import QueueFairness.CacheRemap
import QueueFairness.LinkedRingQueue

/-!
# The portable ring segment

The `PRQueue` of `LPRQueue.hpp`, one atomic access a step. A ticket is drawn from `tail` by an
enqueue and from `head` by a dequeue, and the ticket names a cell. The two words of a cell are
accessed one at a time; an enqueue reserves the cell with a marker of its own before it moves the
cell's index on and puts the item there.

Tickets stay below 2^63, so that an index is a natural number beside the flag that calls the cell
unsafe.
-/

namespace QueueFairness.PRQueue

open Interleaving

/-- What a cell holds: `nullptr`, `threadLocalBottom(tid)`, or an item. -/
inductive Val where
  | null
  | bottom (tid : Tid)
  | item (a : Nat)
  deriving DecidableEq

structure Cell where
  val : Val
  idx : Word
  deriving DecidableEq

structure Segment where
  base : SegmentBase
  array : Nat → Cell

/-- `PRQueue(start)`. -/
def new (L : Layout) (start : Nat) : Segment where
  base := { head := start, tail := ⟨false, start⟩ }
  array :=
    (List.range' start L.size).foldl
      (fun array i => Function.update array (L.position (i % L.size)) ⟨.null, ⟨false, i⟩⟩)
      fun _ => ⟨.null, ⟨false, 0⟩⟩

/-- The place of a ticket's cell in the array. -/
def place (L : Layout) (ticket : Nat) : Nat := L.position (ticket % L.size)

/-- `array[remap[ticket % RING_SIZE]]`. -/
def Segment.cell (L : Layout) (s : Segment) (ticket : Nat) : Cell := s.array (place L ticket)

def Segment.setVal (L : Layout) (s : Segment) (ticket : Nat) (v : Val) : Segment :=
  { s with array := Function.update s.array (place L ticket) { s.cell L ticket with val := v } }

def Segment.setIdx (L : Layout) (s : Segment) (ticket : Nat) (idx : Word) : Segment :=
  { s with array := Function.update s.array (place L ticket) { s.cell L ticket with idx := idx } }

/-- Where a thread stands in `enqueue`, with the local variables live there. -/
inductive Enq where
  | fetchAdd (tryClose : Nat)
  | loadIdx (tryClose tailticket : Nat)
  | loadVal (tryClose tailticket : Nat) (idx : Word)
  | checkHead (tryClose tailticket : Nat) (idx : Word)
  | casBottom (tryClose tailticket : Nat) (idx : Word)
  | casIdx (tryClose tailticket : Nat) (idx : Word)
  | casNull (tryClose tailticket : Nat)
  | casItem (tryClose tailticket : Nat)
  | nowLin
  | stampLin (ts : Nat)
  | loadHead (tryClose tailticket : Nat)
  | close (tryClose tailticket : Nat)
  deriving DecidableEq

/-- Where a thread stands in `dequeue`, with the local variables live there; `idx` is the word
`cell_idx`. -/
inductive Deq where
  | fetchAdd
  | loadIdx (headticket r : Nat) (tt : Word)
  | loadVal (headticket r : Nat) (tt idx : Word)
  | storeNull (headticket a : Nat)
  | nowLin (a : Nat)
  | stampLin (a ts : Nat)
  | reloadIdx (headticket r : Nat) (tt idx : Word)
  | casUnsafe (headticket r : Nat) (tt idx : Word)
  | loadTail (headticket r : Nat) (idx : Word) (bottom : Option Tid)
  | casNull (headticket r : Nat) (tt idx : Word) (tid : Tid)
  | casIdx (headticket r : Nat) (tt idx : Word)
  | loadTailIndex (headticket : Nat)
  | fixState (l : SegmentBase.Fix)
  deriving DecidableEq

/-- A step of thread `t` in `enqueue(item)`. -/
def enqueueStep (L : Layout) (t : Tid) (now item : Nat) (s : Segment) :
    Enq → Segment × (Enq ⊕ Bool) × List SegmentEvent
  | .fetchAdd c =>
      let s' := { s with base := s.base.drawTail }
      if s.base.tail.flag then (s', .inr false, [])
      else (s', .inl (.loadIdx c s.base.tail.index), [.drawTail t s.base.tail.index])
  | .loadIdx c k => (s, .inl (.loadVal c k (s.cell L k).idx), [])
  | .loadVal c k idx =>
      if (s.cell L k).val = .null ∧ idx.index ≤ k then
        if idx.flag then (s, .inl (.checkHead c k idx), [])
        else (s, .inl (.casBottom c k idx), [])
      else
        (s, .inl (.loadHead c k), [])
  | .checkHead c k idx =>
      if s.base.head ≤ k then (s, .inl (.casBottom c k idx), [])
      else (s, .inl (.loadHead c k), [])
  | .casBottom c k idx =>
      if (s.cell L k).val = .null then (s.setVal L k (.bottom t), .inl (.casIdx c k idx), [])
      else (s, .inl (.loadHead c k), [])
  | .casIdx c k idx =>
      if (s.cell L k).idx = idx then
        (s.setIdx L k ⟨false, k + L.size⟩, .inl (.casItem c k), [])
      else
        (s, .inl (.casNull c k), [])
  | .casNull c k =>
      if (s.cell L k).val = .bottom t then (s.setVal L k .null, .inl (.loadHead c k), [])
      else (s, .inl (.loadHead c k), [])
  | .casItem c k =>
      if (s.cell L k).val = .bottom t then
        (s.setVal L k (.item item), .inl .nowLin, [.deposit t item k])
      else
        (s, .inl (.loadHead c k), [])
  | .nowLin => (s, .inl (.stampLin now), [])
  | .stampLin ts => (s, .inr true, [.stampEnq t item ts])
  | .loadHead c k =>
      if s.base.head + L.size ≤ k then (s, .inl (.close c k), [])
      else (s, .inl (.fetchAdd c), [])
  | .close c k =>
      let r := s.base.closeSegment k (c + 1 > 10)
      ({ s with base := r.1 }, if r.2 then .inr false else .inl (.fetchAdd (c + 1)), [])

/-- The end of an iteration that found no item in the cell: give the ticket up or go round again. -/
def afterEmpty (headticket r : Nat) (tt idx : Word) (bottom : Option Tid) : Deq :=
  if idx.flag ∨ tt.index < headticket + 1 ∨ tt.flag ∨ r > 4 * 1024 then
    match bottom with
    | some tid => .casNull headticket r tt idx tid
    | none => .casIdx headticket r tt idx
  else
    .loadIdx headticket (r + 1) tt

/-- An iteration that finds no item in the cell loads `tail` every 256 rounds. -/
def onEmpty (headticket r : Nat) (tt idx : Word) (bottom : Option Tid) : Deq :=
  if r % 256 = 0 then .loadTail headticket r idx bottom else afterEmpty headticket r tt idx bottom

/-- A step of thread `t` in `dequeue()`. -/
def dequeueStep (L : Layout) (t : Tid) (now : Nat) (s : Segment) :
    Deq → Segment × (Deq ⊕ Option Nat) × List SegmentEvent
  | .fetchAdd =>
      ({ s with base := s.base.drawHead }, .inl (.loadIdx s.base.head 0 ⟨false, 0⟩),
        [.drawHead t s.base.head])
  | .loadIdx h r tt => (s, .inl (.loadVal h r tt (s.cell L h).idx), [])
  | .loadVal h r tt idx =>
      if idx.index > h + L.size then
        (s, .inl (.loadTailIndex h), [.leave t h])
      else
        match (s.cell L h).val with
        | .item a =>
            if idx.index = h + L.size then (s, .inl (.storeNull h a), [])
            else if idx.flag then (s, .inl (.reloadIdx h r tt idx), [])
            else (s, .inl (.casUnsafe h r tt idx), [])
        | .bottom tid => (s, .inl (onEmpty h r tt idx (some tid)), [])
        | .null => (s, .inl (onEmpty h r tt idx none), [])
  | .storeNull h a => (s.setVal L h .null, .inl (.nowLin a), [.take t a h])
  | .nowLin a => (s, .inl (.stampLin a now), [])
  | .stampLin a ts => (s, .inr (some a), [.stampDeq t a ts])
  | .reloadIdx h r tt idx =>
      if (s.cell L h).idx = idx then (s, .inl (.loadTailIndex h), [.leave t h])
      else (s, .inl (.loadIdx h r tt), [])
  | .casUnsafe h r tt idx =>
      if (s.cell L h).idx = idx then
        (s.setIdx L h ⟨true, idx.index⟩, .inl (.loadTailIndex h), [.leave t h])
      else
        (s, .inl (.loadIdx h r tt), [])
  | .loadTail h r idx bottom => (s, .inl (afterEmpty h r s.base.tail idx bottom), [])
  | .casNull h r tt idx tid =>
      if (s.cell L h).val = .bottom tid then (s.setVal L h .null, .inl (.casIdx h r tt idx), [])
      else (s, .inl (.loadIdx h r tt), [])
  | .casIdx h r tt idx =>
      if (s.cell L h).idx = idx then
        (s.setIdx L h ⟨idx.flag, h + L.size⟩, .inl (.loadTailIndex h), [.leave t h])
      else
        (s, .inl (.loadIdx h (r + 1) tt), [])
  | .loadTailIndex h =>
      if s.base.tail.index ≤ h + 1 then (s, .inl (.fixState .loadTail), [])
      else (s, .inl .fetchAdd, [])
  | .fixState l =>
      let r := s.base.fixStep l
      ({ s with base := r.1 }, r.2.elim (.inr none) (.inl ∘ .fixState), [])

/-- `PRQueue`. -/
def type (L : Layout) : SegmentType Segment Enq Deq where
  new := new L
  enqueue := .fetchAdd 0
  dequeue := .fetchAdd
  enqueueStep := enqueueStep L
  dequeueStep := dequeueStep L
  base := Segment.base

end QueueFairness.PRQueue

namespace QueueFairness.LPRQueue

/-- `LPRQueue`, a `LinkedRingQueue` over `PRQueue`. -/
abbrev program (L : Layout) (maxThreads : Nat) :=
  LinkedRingQueue.program (PRQueue.type L) maxThreads

end QueueFairness.LPRQueue
