import Mathlib.Algebra.Order.Group.Int
import QueueFairness.CacheRemap
import QueueFairness.HazardPointers
import QueueFairness.Heap
import QueueFairness.Lib.AtomicQueue

/-!
# The fetch-and-add array queue

`FAAArrayQueue.hpp`, one atomic access a step. A node is an array of cells with two counters; an
enqueue draws an index from `enqidx` and fills that cell, a dequeue draws one from `deqidx` and
exchanges the cell's content for the marker `taken`. Items are pointers, so the queue carries their
addresses; its nodes are at addresses of their own, which the allocator hands out once.

The stamps are written into the items, which are not the queue's: the history records the writes.
It also records each item's arrival in a cell of the list, each index drawn by a dequeue, and each
exchange.
-/

namespace QueueFairness.FAAArrayQueue

open Interleaving AtomicQueue HazardPointers

/-- What a cell holds: `nullptr`, an item, or the marker. -/
inductive Slot where
  | empty
  | item (a : Nat)
  | taken
  deriving DecidableEq

structure Node where
  deqidx : Int
  enqidx : Int
  next : Option Nat
  items : Nat → Slot
  startIndexOffset : UInt64

structure Shared where
  nodes : Nat → Node
  status : Nat → Status
  head : Nat
  tail : Nat
  hp : HazardPointers

/-- Where a thread stands in `enqueue` or `dequeue`, with the local variables live there. The
`Protect` and `Publish` points are the loop of `HazardPointers::protect`, `Retire` and `Scan` are
`HazardPointers::retire`. -/
inductive Local where
  | idle
  | enqProtect (item : Nat) (n : Option Nat)
  | enqPublish (item ret : Nat)
  | enqFetchAdd (item ltail : Nat)
  | enqCheckTail (item ltail : Nat)
  | enqLoadNext (item ltail : Nat)
  | enqHelpTail (item ltail lnext : Nat)
  | enqNewNode (item ltail : Nat)
  | enqCasNext (item ltail newNode : Nat)
  | enqNowLinked (item ltail newNode : Nat)
  | enqStampLinked (item ltail newNode ts : Nat)
  | enqCasTail (item ltail newNode : Nat)
  | enqCasCell (item ltail : Nat) (idx : Int)
  | enqNowCell (item : Nat)
  | enqStampCell (item ts : Nat)
  | enqClear (item : Nat)
  | deqProtect (n : Option Nat)
  | deqPublish (ret : Nat)
  | deqFetchAdd (lhead : Nat)
  | deqLoadNext (lhead : Nat)
  | deqCasHead (lhead lnext : Nat)
  | deqRetire (lhead : Nat)
  | deqScan (scan : Scan)
  | deqLoadCell (lhead : Nat) (idx : Int)
  | deqLoadEnqidx (lhead : Nat) (idx : Int)
  | deqSpin (lhead : Nat) (idx : Int) (i : Nat)
  | deqExchange (lhead : Nat) (idx : Int)
  | deqNowLin (item : Slot)
  | deqStampLin (item : Slot) (ts : Nat)
  | deqReloadEnqidx (lhead : Nat) (idx : Int)
  | deqCheckNext (lhead : Nat) (idx t : Int)
  | deqCasEnqidx (lhead : Nat) (idx t : Int)
  | deqClear (item : Slot)
  deriving DecidableEq

/-- What the program text leaves open: the next call, what the clock reads, and which address `new`
returns. -/
structure Input where
  op : Option (Op Nat) := none
  ts : Nat := 0
  addr : Nat := 0

inductive Event where
  | call (t : Tid) (op : Op Nat)
  | alloc (t : Tid) (n : Nat)
  | link (t : Tid) (n a : Nat)
  | fill (t : Tid) (a n : Nat) (idx : Int)
  | claim (t : Tid) (n : Nat) (idx : Int)
  | take (t : Tid) (n : Nat) (idx : Int) (v : Slot)
  | stampEnq (t : Tid) (a ts : Nat)
  | stampDeq (t : Tid) (v : Slot) (ts : Nat)
  | retEnq (t : Tid) (a : Nat)
  | retDeq (t : Tid) (v : Slot)
  deriving DecidableEq

/-- `fetch_add(1)` on an `int` wraps. -/
def succ32 (i : Int) : Int := (i + 1).bmod (2 ^ 32)

def Shared.setNode (g : Shared) (n : Nat) (node : Node) : Shared :=
  { g with nodes := Function.update g.nodes n node }

/-- A store to the cell of index `idx`. -/
def Shared.setCell (L : Layout) (g : Shared) (n : Nat) (idx : Int) (v : Slot) : Shared :=
  g.setNode n
    { g.nodes n with items := Function.update (g.nodes n).items (L.position idx.toNat) v }

/-- `ltail->items[remap[idx]]`. -/
def Shared.cell (L : Layout) (g : Shared) (n : Nat) (idx : Int) : Slot :=
  (g.nodes n).items (L.position idx.toNat)

def Shared.setSlot (g : Shared) (t : Tid) (index : Nat) (p : Option Nat) : Shared :=
  { g with hp := g.hp.setSlot t index p }

def Shared.setStatus (g : Shared) (n : Nat) (s : Status) : Shared :=
  { g with status := Function.update g.status n s }

/-- `Node(item, startIndexOffset)`. -/
def newNode (L : Layout) (item : Slot) (startIndexOffset : UInt64) : Node where
  deqidx := 0
  enqidx := 1
  next := none
  items := Function.update (fun _ => .empty) (L.position 0) item
  startIndexOffset := startIndexOffset

/-- Where a dequeue goes on during and after `retire`. -/
def afterScan : Option Scan → Local
  | some scan => .deqScan scan
  | none => .deqProtect none

/-- A step of thread `t`. Reading outside a node's cells has no step. -/
def step (L : Layout) (maxThreads : Nat) (t : Tid) (i : Input) (g : Shared) :
    Local → Option (Shared × Local × List Event)
  | .idle =>
      i.op.map fun
        | .enqueue item => (g, .enqProtect item none, [.call t (.enqueue item)])
        | .dequeue => (g, .deqProtect none, [.call t .dequeue])
  | .enqProtect item n =>
      if some g.tail = n then some (g, .enqFetchAdd item g.tail, [])
      else some (g, .enqPublish item g.tail, [])
  | .enqPublish item ret => some (g.setSlot t kHpTail (some ret), .enqProtect item (some ret), [])
  | .enqFetchAdd item ltail =>
      let idx := (g.nodes ltail).enqidx
      let g' := g.setNode ltail { g.nodes ltail with enqidx := succ32 idx }
      if idx > (L.size : Int) - 1 then some (g', .enqCheckTail item ltail, [])
      else some (g', .enqCasCell item ltail idx, [])
  | .enqCheckTail item ltail =>
      if ltail ≠ g.tail then some (g, .enqProtect item none, [])
      else some (g, .enqLoadNext item ltail, [])
  | .enqLoadNext item ltail =>
      match (g.nodes ltail).next with
      | none => some (g, .enqNewNode item ltail, [])
      | some lnext => some (g, .enqHelpTail item ltail lnext, [])
  | .enqHelpTail item ltail lnext =>
      some (if g.tail = ltail then { g with tail := lnext } else g, .enqProtect item none, [])
  | .enqNewNode item ltail =>
      if g.status i.addr = .unallocated then
        let node := newNode L (.item item) ((g.nodes ltail).startIndexOffset + .ofNat L.size)
        some ((g.setStatus i.addr .allocated).setNode i.addr node,
          .enqCasNext item ltail i.addr, [.alloc t i.addr])
      else
        none
  | .enqCasNext item ltail n =>
      if (g.nodes ltail).next = none then
        some (g.setNode ltail { g.nodes ltail with next := some n },
          .enqNowLinked item ltail n, [.link t n item])
      else
        some (g, .enqProtect item none, [])
  | .enqNowLinked item ltail n => some (g, .enqStampLinked item ltail n i.ts, [])
  | .enqStampLinked item ltail n ts => some (g, .enqCasTail item ltail n, [.stampEnq t item ts])
  | .enqCasTail item ltail n =>
      some (if g.tail = ltail then { g with tail := n } else g, .enqClear item, [])
  | .enqCasCell item ltail idx =>
      if idx < 0 then
        none
      else if g.cell L ltail idx = .empty then
        some (g.setCell L ltail idx (.item item), .enqNowCell item, [.fill t item ltail idx])
      else
        some (g, .enqProtect item none, [])
  | .enqNowCell item => some (g, .enqStampCell item i.ts, [])
  | .enqStampCell item ts => some (g, .enqClear item, [.stampEnq t item ts])
  | .enqClear item => some (g.setSlot t kHpTail none, .idle, [.retEnq t item])
  | .deqProtect n =>
      if some g.head = n then some (g, .deqFetchAdd g.head, [])
      else some (g, .deqPublish g.head, [])
  | .deqPublish ret => some (g.setSlot t kHpHead (some ret), .deqProtect (some ret), [])
  | .deqFetchAdd lhead =>
      let idx := (g.nodes lhead).deqidx
      let g' := g.setNode lhead { g.nodes lhead with deqidx := succ32 idx }
      if idx > (L.size : Int) - 1 then some (g', .deqLoadNext lhead, [])
      else some (g', .deqLoadCell lhead idx, [.claim t lhead idx])
  | .deqLoadNext lhead =>
      match (g.nodes lhead).next with
      | none => some (g, .deqClear .empty, [])
      | some lnext => some (g, .deqCasHead lhead lnext, [])
  | .deqCasHead lhead lnext =>
      if g.head = lhead then some ({ g with head := lnext }, .deqRetire lhead, [])
      else some (g, .deqProtect none, [])
  | .deqRetire lhead =>
      let ptrs := g.hp.retiredList t ++ [lhead]
      some ({ g with hp := g.hp.setRetired t ptrs }, afterScan (scanFrom maxThreads ptrs 0), [])
  | .deqScan scan =>
      let r := scanStep maxThreads t g.hp scan
      let g' := { g with hp := r.1 }
      some (r.2.2.elim g' (g'.setStatus · .deleted), afterScan r.2.1, [])
  | .deqLoadCell lhead idx =>
      if idx < 0 then none
      else if g.cell L lhead idx = .empty then some (g, .deqLoadEnqidx lhead idx, [])
      else some (g, .deqExchange lhead idx, [])
  | .deqLoadEnqidx lhead idx =>
      if idx < (g.nodes lhead).enqidx then some (g, .deqSpin lhead idx 0, [])
      else some (g, .deqExchange lhead idx, [])
  | .deqSpin lhead idx n =>
      if n < 4 * 1024 ∧ g.cell L lhead idx = .empty then some (g, .deqSpin lhead idx (n + 1), [])
      else some (g, .deqExchange lhead idx, [])
  | .deqExchange lhead idx =>
      let v := g.cell L lhead idx
      let g' := g.setCell L lhead idx .taken
      if v = .empty then some (g', .deqReloadEnqidx lhead idx, [.take t lhead idx v])
      else some (g', .deqNowLin v, [.take t lhead idx v])
  | .deqNowLin v => some (g, .deqStampLin v i.ts, [])
  | .deqStampLin v ts => some (g, .deqClear v, [.stampDeq t v ts])
  | .deqReloadEnqidx lhead idx =>
      if idx + 1 ≥ (g.nodes lhead).enqidx then
        some (g, .deqCheckNext lhead idx (g.nodes lhead).enqidx, [])
      else
        some (g, .deqFetchAdd lhead, [])
  | .deqCheckNext lhead idx enqidx =>
      if (g.nodes lhead).next = none then some (g, .deqCasEnqidx lhead idx enqidx, [])
      else some (g, .deqFetchAdd lhead, [])
  | .deqCasEnqidx lhead idx enqidx =>
      let g' :=
        if (g.nodes lhead).enqidx = enqidx then
          g.setNode lhead { g.nodes lhead with enqidx := idx + 1 }
        else g
      some (g', .deqClear .empty, [])
  | .deqClear v => some (g.setSlot t kHpHead none, .idle, [.retDeq t v])

/-- What the next step of thread `t` gets at in the arrays of the table. -/
def Local.tableAccesses (t : Tid) : Local → List Access
  | .enqPublish _ _ | .enqClear _ => [slotOf t kHpTail]
  | .deqPublish _ | .deqClear _ => [slotOf t kHpHead]
  | .deqRetire _ => [listOf t]
  | .deqScan scan => scan.tableAccesses t
  | _ => []

/-- The address of the node the constructor allocates. -/
def sentinelNode : Nat := 0

/-- `FAAArrayQueue(maxThreads)`. -/
def program (L : Layout) (maxThreads : Nat) : Program Shared Local Input Event where
  start :=
    { nodes := fun _ => { newNode L .empty 0 with enqidx := 0 }
      status := fun n => if n = sentinelNode then .allocated else .unallocated
      head := sentinelNode
      tail := sentinelNode
      hp := .init }
  idle := .idle
  step := step L maxThreads

/-- A step under an allocator that may hand out a deleted address again. -/
def reusingStep (L : Layout) (maxThreads : Nat) (t : Tid) (i : Input) (g : Shared) :
    Local → Option (Shared × Local × List Event)
  | .enqNewNode item ltail =>
      if g.status i.addr ≠ .allocated then
        let node := newNode L (.item item) ((g.nodes ltail).startIndexOffset + .ofNat L.size)
        some ((g.setStatus i.addr .allocated).setNode i.addr node,
          .enqCasNext item ltail i.addr, [.alloc t i.addr])
      else
        none
  | l => step L maxThreads t i g l

/-- `FAAArrayQueue(maxThreads)` under such an allocator. -/
def reusingProgram (L : Layout) (maxThreads : Nat) : Program Shared Local Input Event :=
  { program L maxThreads with step := reusingStep L maxThreads }

/-! ### What the history says -/

def linkedNode : Event → Option Nat
  | .link _ n _ => some n
  | _ => none

/-- Every node that was ever part of the list, in its order. -/
def chain (history : List Event) : List Nat :=
  sentinelNode :: history.filterMap linkedNode

/-- Item `a` was put in the cell of index `idx` of node `n`: by a compare-and-swap on the cell, or
when the node was linked with the item already in its first cell. -/
def Put (history : List Event) (a n : Nat) (idx : Int) : Prop :=
  (∃ t, .fill t a n idx ∈ history) ∨ idx = 0 ∧ ∃ t, .link t n a ∈ history

end QueueFairness.FAAArrayQueue
