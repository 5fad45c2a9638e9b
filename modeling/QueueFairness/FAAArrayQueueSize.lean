import QueueFairness.FAAArrayQueue

/-!
# The size of the array queue

`FAAArrayQueue::estimateSize`, and the queue with it as a third call. It protects the first and the
last node, and subtracts the indices that dequeues have drawn from those that enqueues have.
-/

namespace QueueFairness.FAAArrayQueue

open Interleaving HazardPointers

/-- Where a thread stands in `estimateSize`. -/
inductive SizeLocal where
  | protectHead (n : Option Nat)
  | publishHead (ret : Nat)
  | protectTail (lhead : Nat) (n : Option Nat)
  | publishTail (lhead ret : Nat)
  | loadEnqidx (lhead ltail : Nat)
  | loadDeqidx (lhead : Nat) (t : UInt64)
  | clear (ihp : Nat) (size : UInt64)
  deriving DecidableEq

/-- `std::min((uint64_t) RING_SIZE, (uint64_t) idx) + node->startIndexOffset`. -/
def Node.index (L : Layout) (node : Node) (idx : Int) : UInt64 :=
  min (.ofNat L.size) (.ofInt idx) + node.startIndexOffset

/-- A step of `estimateSize`, which ends with its result. -/
def sizeStep (L : Layout) (t : Tid) (g : Shared) : SizeLocal → Shared × (SizeLocal ⊕ UInt64)
  | .protectHead n =>
      if some g.head = n then (g, .inl (.protectTail g.head none))
      else (g, .inl (.publishHead g.head))
  | .publishHead ret => (g.setSlot t kHpHead (some ret), .inl (.protectHead (some ret)))
  | .protectTail lhead n =>
      if some g.tail = n then (g, .inl (.loadEnqidx lhead g.tail))
      else (g, .inl (.publishTail lhead g.tail))
  | .publishTail lhead ret =>
      (g.setSlot t kHpTail (some ret), .inl (.protectTail lhead (some ret)))
  | .loadEnqidx lhead ltail =>
      (g, .inl (.loadDeqidx lhead ((g.nodes ltail).index L (g.nodes ltail).enqidx)))
  | .loadDeqidx lhead t' =>
      let h := (g.nodes lhead).index L (g.nodes lhead).deqidx
      (g, .inl (.clear 0 (if t' > h then t' - h else 0)))
  | .clear ihp size =>
      let g' := g.setSlot t ihp none
      if ihp + 1 < maxHPs then (g', .inl (.clear (ihp + 1) size)) else (g', .inr size)

/-! ### The three calls -/

inductive Call where
  | enqueue (item : Nat)
  | dequeue
  | estimateSize
  deriving DecidableEq

inductive SizedLocal where
  | queue (l : Local)
  | size (l : SizeLocal)
  deriving DecidableEq

/-- What the program text leaves open: the next call, what the clock reads, and which address `new`
returns. -/
structure SizedInput where
  call : Option Call := none
  ts : Nat := 0
  addr : Nat := 0

inductive SizedEvent where
  | queue (e : Event)
  | callSize (t : Tid)
  | retSize (t : Tid) (size : UInt64)
  deriving DecidableEq

/-- What the call asks of the queue itself. -/
def Call.op : Call → Option (AtomicQueue.Op Nat)
  | .enqueue item => some (.enqueue item)
  | .dequeue => some .dequeue
  | .estimateSize => none

def SizedInput.queue (i : SizedInput) : Input := ⟨i.call.bind Call.op, i.ts, i.addr⟩

def sizedStep (L : Layout) (maxThreads : Nat) (t : Tid) (i : SizedInput) (g : Shared) :
    SizedLocal → Option (Shared × SizedLocal × List SizedEvent)
  | .queue l =>
      if l = .idle ∧ i.call = some .estimateSize then
        some (g, .size (.protectHead none), [.callSize t])
      else
        (step L maxThreads t i.queue g l).map fun r => (r.1, .queue r.2.1, r.2.2.map .queue)
  | .size l =>
      let r := sizeStep L t g l
      match r.2 with
      | .inl l' => some (r.1, .size l', [])
      | .inr size => some (r.1, .queue .idle, [.retSize t size])

/-- `FAAArrayQueue(maxThreads)`, whose threads call `estimateSize` as well. -/
def sizedProgram (L : Layout) (maxThreads : Nat) :
    Program Shared SizedLocal SizedInput SizedEvent where
  start := (program L maxThreads).start
  idle := .queue .idle
  step := sizedStep L maxThreads

end QueueFairness.FAAArrayQueue
