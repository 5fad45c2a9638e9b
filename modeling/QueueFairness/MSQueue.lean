import QueueFairness.Heap
import QueueFairness.Lib.AtomicQueue
import QueueFairness.LogRecord

/-!
# MSQueue

`msqueue.hpp`, one atomic access or one plain access to a node's field a step. Nodes live in a heap
whose allocator never hands out an address twice; a deleted node keeps its contents, and the heap
says which nodes are allocated.

The history records calls and returns, the compare-and-swaps that link a node behind the last and
that move `head` off a node, with the effect each has on the queue, the stamps written and the
records logged. A dequeue that finds the queue empty has no event for that.
-/

namespace QueueFairness.MSQueue

open Interleaving AtomicQueue

variable {α : Type}

/-- A counted pointer; `none` is `nullptr`. -/
structure MSPointer where
  ptr : Option Nat := none
  count : UInt32 := 0
  deriving DecidableEq

/-- `none` in a stamp is a field nobody has written yet. -/
structure MSNode (α : Type) where
  value : α
  next : MSPointer := {}
  enqInvTs : Option Nat := none
  enqLinTs : Option Nat := none

/-- What a dequeue logs. The enqueue stamps are what it read from the node. -/
structure MSLogRecord where
  enqInvTs : Option Nat
  enqLinTs : Option Nat
  deqInvTs : Nat
  deqLinTs : Nat
  deriving DecidableEq

/-- `log` are the thread-local logs. -/
structure Shared (α : Type) where
  heap : Nat → MSNode α
  status : Nat → Status
  head : MSPointer
  tail : MSPointer
  enqRetries : UInt64
  clock : Nat
  log : Tid → List MSLogRecord

/-- Where a thread stands in `enqueue` or `dequeue`, with the local variables live there. -/
inductive Local (α : Type) where
  | idle
  | enqNowInv (value : α)
  | enqNew (value : α) (enqInvTs : Nat)
  | enqStoreInv (node enqInvTs : Nat)
  | enqLoadTail (node : Nat)
  | enqLoadNext (node : Nat) (curTail : MSPointer)
  | enqCheckTail (node : Nat) (curTail next : MSPointer)
  | enqCasNext (node : Nat) (curTail next : MSPointer)
  | enqRetry (node : Nat)
  | enqHelpTail (node : Nat) (curTail next : MSPointer)
  | enqNowLin (node : Nat) (curTail : MSPointer)
  | enqStoreLin (node : Nat) (curTail : MSPointer) (enqLinTs : Nat)
  | enqSwingTail (node : Nat) (curTail : MSPointer)
  | deqNowInv
  | deqLoadHead (deqInvTs : Nat)
  | deqLoadTail (deqInvTs : Nat) (curHead : MSPointer)
  | deqLoadNext (deqInvTs : Nat) (curHead curTail : MSPointer)
  | deqCheckHead (deqInvTs : Nat) (curHead curTail next : MSPointer)
  | deqHelpTail (deqInvTs : Nat) (curTail next : MSPointer)
  | deqReadValue (deqInvTs : Nat) (curHead next : MSPointer)
  | deqReadInv (deqInvTs : Nat) (curHead next : MSPointer) (value : α)
  | deqReadLin (deqInvTs : Nat) (curHead next : MSPointer) (value : α) (enqInvTs : Option Nat)
  | deqCasHead (deqInvTs : Nat) (curHead next : MSPointer) (value : α)
      (enqInvTs enqLinTs : Option Nat)
  | deqNowLin (deqInvTs : Nat) (curHead next : MSPointer) (value : α)
      (enqInvTs enqLinTs : Option Nat)
  | deqDelete (curHead : MSPointer) (value : α)

/-- What the program text leaves open: the next call, what the clock reads, which address `new`
returns, and whether a weak compare-and-swap fails although it compares equal. -/
structure Input (α : Type) where
  op : Option (Op α) := none
  ts : Nat := 0
  addr : Nat := 0
  fail : Bool := false

/-- `out` is a write to a dequeue's output argument, which a dequeue that later returns `false` may
have made too. -/
inductive Event (α : Type) where
  | act (a : Act α)
  | alloc (t : Tid) (node : Nat)
  | link (t : Tid) (node : Nat)
  | unlink (t : Tid) (node : Nat)
  | out (t : Tid) (value : α)
  | stamp (t : Tid) (node ts : Nat)
  | logged (t : Tid) (node : Nat) (r : MSLogRecord)
  deriving DecidableEq

def Shared.setNode (g : Shared α) (n : Nat) (node : MSNode α) : Shared α :=
  { g with heap := Function.update g.heap n node }

def Shared.setStatus (g : Shared α) (n : Nat) (s : Status) : Shared α :=
  { g with status := Function.update g.status n s }

/-- `tail.compare_exchange_weak(expected, desired)`, whose answer the code never uses. -/
def Shared.casTail (g : Shared α) (fail : Bool) (expected desired : MSPointer) : Shared α :=
  if g.tail = expected ∧ fail = false then { g with tail := desired } else g

/-- A step of thread `t`. Where the code dereferences a pointer, or has done so before, a null
pointer has no step. -/
def step (t : Tid) (i : Input α) (g : Shared α) :
    Local α → Option (Shared α × Local α × List (Event α))
  | .idle =>
      i.op.map fun
        | .enqueue value => (g, .enqNowInv value, [.act (.call t (.enqueue value))])
        | .dequeue => (g, .deqNowInv, [.act (.call t .dequeue)])
  | .enqNowInv value =>
      if g.clock ≤ i.ts then some ({ g with clock := i.ts }, .enqNew value i.ts, []) else none
  | .enqNew value enqInvTs =>
      if g.status i.addr = .unallocated then
        some ((g.setStatus i.addr .allocated).setNode i.addr { value },
          .enqStoreInv i.addr enqInvTs, [.alloc t i.addr])
      else
        none
  | .enqStoreInv node enqInvTs =>
      some (g.setNode node { g.heap node with enqInvTs := some enqInvTs }, .enqLoadTail node, [])
  | .enqLoadTail node => some (g, .enqLoadNext node g.tail, [])
  | .enqLoadNext node curTail =>
      curTail.ptr.map fun n => (g, .enqCheckTail node curTail (g.heap n).next, [])
  | .enqCheckTail node curTail next =>
      if curTail = g.tail then
        match next.ptr with
        | none => some (g, .enqCasNext node curTail next, [])
        | some _ => some (g, .enqHelpTail node curTail next, [])
      else
        some (g, .enqLoadTail node, [])
  | .enqCasNext node curTail next =>
      curTail.ptr.map fun n =>
        if (g.heap n).next = next ∧ i.fail = false then
          (g.setNode n { g.heap n with next := ⟨some node, next.count + 1⟩ },
            .enqNowLin node curTail,
            [.link t node, .act (.effect t (.enqueue (g.heap node).value) .enqueued)])
        else
          (g, .enqRetry node, [])
  | .enqRetry node => some ({ g with enqRetries := g.enqRetries + 1 }, .enqLoadTail node, [])
  | .enqHelpTail node curTail next =>
      some (g.casTail i.fail curTail ⟨next.ptr, curTail.count + 1⟩, .enqLoadTail node, [])
  | .enqNowLin node curTail =>
      if g.clock ≤ i.ts then some ({ g with clock := i.ts }, .enqStoreLin node curTail i.ts, [])
      else none
  | .enqStoreLin node curTail enqLinTs =>
      some (g.setNode node { g.heap node with enqLinTs := some enqLinTs },
        .enqSwingTail node curTail, [.stamp t node enqLinTs])
  | .enqSwingTail node curTail =>
      some (g.casTail i.fail curTail ⟨some node, curTail.count + 1⟩, .idle,
        [.act (.ret t .enqueued)])
  | .deqNowInv =>
      if g.clock ≤ i.ts then some ({ g with clock := i.ts }, .deqLoadHead i.ts, []) else none
  | .deqLoadHead inv => some (g, .deqLoadTail inv g.head, [])
  | .deqLoadTail inv curHead => some (g, .deqLoadNext inv curHead g.tail, [])
  | .deqLoadNext inv curHead curTail =>
      curHead.ptr.map fun n => (g, .deqCheckHead inv curHead curTail (g.heap n).next, [])
  | .deqCheckHead inv curHead curTail next =>
      if curHead = g.head then
        if curHead.ptr = curTail.ptr then
          match next.ptr with
          | none => some (g, .idle, [.act (.ret t (.dequeued false none))])
          | some _ => some (g, .deqHelpTail inv curTail next, [])
        else
          match next.ptr with
          | none => some (g, .deqLoadHead inv, [])
          | some _ => some (g, .deqReadValue inv curHead next, [])
      else
        some (g, .deqLoadHead inv, [])
  | .deqHelpTail inv curTail next =>
      some (g.casTail i.fail curTail ⟨next.ptr, curTail.count + 1⟩, .deqLoadHead inv, [])
  | .deqReadValue inv curHead next =>
      next.ptr.map fun n =>
        (g, .deqReadInv inv curHead next (g.heap n).value, [.out t (g.heap n).value])
  | .deqReadInv inv curHead next value =>
      next.ptr.map fun n => (g, .deqReadLin inv curHead next value (g.heap n).enqInvTs, [])
  | .deqReadLin inv curHead next value enqInvTs =>
      next.ptr.map fun n =>
        (g, .deqCasHead inv curHead next value enqInvTs (g.heap n).enqLinTs, [])
  | .deqCasHead inv curHead next value enqInvTs enqLinTs =>
      curHead.ptr.map fun n =>
        if g.head = curHead ∧ i.fail = false then
          ({ g with head := ⟨next.ptr, curHead.count + 1⟩ },
            .deqNowLin inv curHead next value enqInvTs enqLinTs,
            [.unlink t n, .act (.effect t .dequeue (.dequeued true (some value)))])
        else
          (g, .deqLoadHead inv, [])
  | .deqNowLin inv curHead next value enqInvTs enqLinTs =>
      if g.clock ≤ i.ts then
        next.ptr.map fun n =>
          let r : MSLogRecord := ⟨enqInvTs, enqLinTs, inv, i.ts⟩
          ({ g with clock := i.ts, log := Function.update g.log t (g.log t ++ [r]) },
            .deqDelete curHead value, [.logged t n r])
      else
        none
  | .deqDelete curHead value =>
      curHead.ptr.map fun n =>
        (g.setStatus n .deleted, .idle, [.act (.ret t (.dequeued true (some value)))])

/-- The address of the node the constructor allocates. -/
def dummyNode : Nat := 0

/-- `MSQueue()`. -/
def program (α : Type) [Inhabited α] : Program (Shared α) (Local α) (Input α) (Event α) where
  start :=
    { heap := fun _ => { value := default }
      status := fun n => if n = dummyNode then .allocated else .unallocated
      head := ⟨some dummyNode, 0⟩
      tail := ⟨some dummyNode, 0⟩
      enqRetries := 0
      clock := 0
      log := fun _ => [] }
  idle := .idle
  step := step

/-- The loop of `~MSQueue` with `fuel` rounds left: `next` is read from a node before the node is
deleted, and neither is done with a node that is not there. -/
def destroy (heap : Nat → MSNode α) : Nat → MSPointer → (Nat → Status) → Option (Nat → Status)
  | 0, _, _ => none
  | fuel + 1, cur, status =>
      match cur.ptr with
      | none => some status
      | some n =>
          if status n = .allocated then
            destroy heap fuel (heap n).next (Function.update status n .deleted)
          else
            none

/-! ### What the history says -/

def queueAct : Event α → Option (Act α)
  | .act a => some a
  | _ => none

/-- The calls and returns, and the effects of the two successful compare-and-swaps. -/
def acts (history : List (Event α)) : List (Act α) := history.filterMap queueAct

def linkedNode : Event α → Option Nat
  | .link _ node => some node
  | _ => none

def unlinkedNode : Event α → Option (Tid × Nat)
  | .unlink t node => some (t, node)
  | _ => none

/-- Every node that was ever part of the list, in its order. -/
def chain (history : List (Event α)) : List Nat :=
  dummyNode :: history.filterMap linkedNode

/-- The nodes `head` has moved off, with the thread that moved it. -/
def unlinked (history : List (Event α)) : List (Tid × Nat) :=
  history.filterMap unlinkedNode

end QueueFairness.MSQueue
