import QueueFairness.Lib.AtomicQueue
import QueueFairness.LogRecord

/-!
# The flat combining queue

`fcqueue.hpp`, one atomic access a step. Every thread has a slot in `operations_`; it writes its
request there, stores the opcode, and then either finds the opcode back at `Done` or takes the lock
and serves all the slots itself. A slot's node carries the request in and the reply out.

The history records calls and returns, the moment an operation is applied to the inner queue, the
clock readings that become stamps, and the records logged.
-/

namespace QueueFairness.FlatCombiningQueue

open Interleaving AtomicQueue

variable {α : Type}

inductive Opcode where
  | done
  | enqueue
  | dequeue
  deriving DecidableEq

structure FCNode (α : Type) where
  value : α
  enqInvTs : Nat
  enqLinTs : Nat
  deqInvTs : Nat
  deqLinTs : Nat

/-- A slot of `operations_`. -/
structure Operation (α : Type) where
  opcode : Opcode
  node : FCNode α
  success : Bool

/-- `q_` is the inner queue, `lock` the holder of `lock_`, `log` the thread-local logs. -/
structure Shared (α : Type) where
  operations : Nat → Operation α
  q : List (FCNode α)
  lock : Option Tid
  clock : Nat
  log : Tid → List LogRecord

/-- Where a combiner stands in `scan_combine_apply`, with the local variables live there. -/
inductive Scan (α : Type) where
  | loadOpcode (i : Nat)
  | copyValue (i : Nat)
  | copyEnqInv (i : Nat) (value : α)
  | copyRest (i : Nat) (value : α) (enqInvTs : Nat)
  | nowEnqLin (i : Nat) (n : FCNode α)
  | push (i : Nat) (n : FCNode α)
  | testEmpty (i : Nat)
  | front (i : Nat)
  | nowDeqLin (i : Nat) (n : FCNode α)
  | pop (i : Nat) (n : FCNode α) (deqLinTs : Nat)
  | storeValue (i : Nat) (n : FCNode α) (deqLinTs : Nat)
  | storeEnqInv (i : Nat) (n : FCNode α) (deqLinTs : Nat)
  | storeEnqLin (i : Nat) (n : FCNode α) (deqLinTs : Nat)
  | storeDeqLin (i : Nat) (deqLinTs : Nat)
  | storeSuccess (i : Nat) (success : Bool)
  | storeDone (i : Nat)
  | unlock

/-- Where a thread stands in `enqueue` or `dequeue`. -/
inductive Local (α : Type) where
  | idle
  | nowInv (op : Op α)
  | storeEnqInv (item : α) (enqInvTs : Nat)
  | storeItem (item : α)
  | publishEnqueue (item : α)
  | clearValue (deqInvTs : Nat)
  | clearSuccess (deqInvTs : Nat)
  | storeDeqInv (deqInvTs : Nat)
  | publishDequeue
  | tryLock (op : Op α)
  | loadDone (op : Op α)
  | combine (op : Op α) (scan : Scan α)
  | readSuccess
  | readValue
  | readEnqInv (out : α)
  | readEnqLin (out : α) (enqInvTs : Nat)
  | readDeqInv (out : α) (enqInvTs enqLinTs : Nat)
  | logRecord (out : α) (enqInvTs enqLinTs deqInvTs : Nat)
  | returnSuccess (out : Option α)

/-- What the program text leaves open: the next call, what the clock reads, and whether `try_lock`
fails although the lock is free. -/
structure Input (α : Type) where
  op : Option (Op α) := none
  ts : Nat := 0
  fail : Bool := false

inductive Event (α : Type) where
  | act (a : Act α)
  | inv (t : Tid) (ts : Nat)
  | lin (i : Nat) (ts : Nat)
  | logged (t : Tid) (r : LogRecord)
  deriving DecidableEq

def Shared.setOperation (g : Shared α) (i : Nat) (o : Operation α) : Shared α :=
  { g with operations := Function.update g.operations i o }

def Shared.setOpcode (g : Shared α) (i : Nat) (c : Opcode) : Shared α :=
  g.setOperation i { g.operations i with opcode := c }

def Shared.setNode (g : Shared α) (i : Nat) (n : FCNode α) : Shared α :=
  g.setOperation i { g.operations i with node := n }

def Shared.setSuccess (g : Shared α) (i : Nat) (b : Bool) : Shared α :=
  g.setOperation i { g.operations i with success := b }

/-- The loop head of `scan_combine_apply` at slot `i` of `numThreads`. -/
def Scan.at (numThreads i : Nat) : Scan α :=
  if i < numThreads then .loadOpcode i else .unlock

/-- What a call does once its operation has been applied and the lock is not held. -/
def afterApply (t : Tid) : Op α → Local α × List (Event α)
  | .enqueue _ => (.idle, [.act (.ret t .enqueued)])
  | .dequeue => (.readSuccess, [])

/-- A step of `scan_combine_apply`, up to the release of the lock. -/
def scanStep (numThreads : Nat) (ts : Nat) (g : Shared α) :
    Scan α → Option (Shared α × Scan α × List (Event α))
  | .loadOpcode i =>
      match (g.operations i).opcode with
      | .enqueue => some (g, .copyValue i, [])
      | .dequeue => some (g, .testEmpty i, [])
      | .done => some (g, .at numThreads (i + 1), [])
  | .copyValue i => some (g, .copyEnqInv i (g.operations i).node.value, [])
  | .copyEnqInv i v => some (g, .copyRest i v (g.operations i).node.enqInvTs, [])
  | .copyRest i v enqInvTs =>
      some (g, .nowEnqLin i { (g.operations i).node with value := v, enqInvTs := enqInvTs }, [])
  | .nowEnqLin i n =>
      if g.clock ≤ ts then
        some ({ g with clock := ts }, .push i { n with enqLinTs := ts }, [.lin i ts])
      else
        none
  | .push i n =>
      some ({ g with q := g.q ++ [n] }, .storeDone i,
        [.act (.effect i (.enqueue n.value) .enqueued)])
  | .testEmpty i =>
      match g.q with
      | [] => some (g, .storeSuccess i false, [.act (.effect i .dequeue (.dequeued false none))])
      | _ :: _ => some (g, .front i, [])
  | .front i =>
      match g.q with
      | [] => none
      | n :: _ => some (g, .nowDeqLin i n, [])
  | .nowDeqLin i n =>
      if g.clock ≤ ts then some ({ g with clock := ts }, .pop i n ts, [.lin i ts]) else none
  | .pop i n deqLinTs =>
      some ({ g with q := g.q.tail }, .storeValue i n deqLinTs,
        [.act (.effect i .dequeue (.dequeued true (some n.value)))])
  | .storeValue i n deqLinTs =>
      some (g.setNode i { (g.operations i).node with value := n.value },
        .storeEnqInv i n deqLinTs, [])
  | .storeEnqInv i n deqLinTs =>
      some (g.setNode i { (g.operations i).node with enqInvTs := n.enqInvTs },
        .storeEnqLin i n deqLinTs, [])
  | .storeEnqLin i n deqLinTs =>
      some (g.setNode i { (g.operations i).node with enqLinTs := n.enqLinTs },
        .storeDeqLin i deqLinTs, [])
  | .storeDeqLin i deqLinTs =>
      some (g.setNode i { (g.operations i).node with deqLinTs := deqLinTs },
        .storeSuccess i true, [])
  | .storeSuccess i success => some (g.setSuccess i success, .storeDone i, [])
  | .storeDone i => some (g.setOpcode i .done, .at numThreads (i + 1), [])
  | .unlock => none

variable [Inhabited α]

/-- A step of thread `t`, which may only call the queue with a `tid` below `num_threads`. -/
def step (numThreads : Nat) (t : Tid) (i : Input α) (g : Shared α) :
    Local α → Option (Shared α × Local α × List (Event α))
  | .idle =>
      if t < numThreads then i.op.map fun op => (g, .nowInv op, [.act (.call t op)]) else none
  | .nowInv op =>
      if g.clock ≤ i.ts then
        match op with
        | .enqueue item =>
            some ({ g with clock := i.ts }, .storeEnqInv item i.ts, [.inv t i.ts])
        | .dequeue => some ({ g with clock := i.ts }, .clearValue i.ts, [.inv t i.ts])
      else
        none
  | .storeEnqInv item enqInvTs =>
      some (g.setNode t { (g.operations t).node with enqInvTs := enqInvTs }, .storeItem item, [])
  | .storeItem item =>
      some (g.setNode t { (g.operations t).node with value := item }, .publishEnqueue item, [])
  | .publishEnqueue item => some (g.setOpcode t .enqueue, .tryLock (.enqueue item), [])
  | .clearValue deqInvTs =>
      some (g.setNode t { (g.operations t).node with value := default },
        .clearSuccess deqInvTs, [])
  | .clearSuccess deqInvTs => some (g.setSuccess t false, .storeDeqInv deqInvTs, [])
  | .storeDeqInv deqInvTs =>
      some (g.setNode t { (g.operations t).node with deqInvTs := deqInvTs }, .publishDequeue, [])
  | .publishDequeue => some (g.setOpcode t .dequeue, .tryLock .dequeue, [])
  | .tryLock op =>
      if g.lock = none ∧ i.fail = false then
        some ({ g with lock := some t }, .combine op (.at numThreads 0), [])
      else
        some (g, .loadDone op, [])
  | .loadDone op =>
      if (g.operations t).opcode = .done then
        some (g, afterApply t op)
      else
        some (g, .tryLock op, [])
  | .combine op .unlock => some ({ g with lock := none }, afterApply t op)
  | .combine op scan =>
      (scanStep numThreads i.ts g scan).map fun r => (r.1, .combine op r.2.1, r.2.2)
  | .readSuccess =>
      if (g.operations t).success then some (g, .readValue, [])
      else some (g, .returnSuccess none, [])
  | .readValue => some (g, .readEnqInv (g.operations t).node.value, [])
  | .readEnqInv out => some (g, .readEnqLin out (g.operations t).node.enqInvTs, [])
  | .readEnqLin out enqInvTs =>
      some (g, .readDeqInv out enqInvTs (g.operations t).node.enqLinTs, [])
  | .readDeqInv out enqInvTs enqLinTs =>
      some (g, .logRecord out enqInvTs enqLinTs (g.operations t).node.deqInvTs, [])
  | .logRecord out enqInvTs enqLinTs deqInvTs =>
      let r : LogRecord := ⟨enqInvTs, enqLinTs, deqInvTs, (g.operations t).node.deqLinTs⟩
      some ({ g with log := Function.update g.log t (g.log t ++ [r]) },
        .returnSuccess (some out), [.logged t r])
  | .returnSuccess out =>
      some (g, .idle, [.act (.ret t (.dequeued (g.operations t).success out))])

/-- `FlatCombiningQueue(num_threads)`. -/
def program (α : Type) [Inhabited α] (numThreads : Nat) :
    Program (Shared α) (Local α) (Input α) (Event α) where
  start :=
    { operations := fun _ => ⟨.done, ⟨default, 0, 0, 0, 0⟩, false⟩
      q := []
      lock := none
      clock := 0
      log := fun _ => [] }
  idle := .idle
  step := step numThreads

end QueueFairness.FlatCombiningQueue
