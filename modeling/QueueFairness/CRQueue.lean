import QueueFairness.PRQueue

/-!
# The ring segment with double-word cells

The `CRQueue` of `LCRQueue.hpp`, one atomic access a step. The two words of a cell are loaded one at
a time and replaced together: `CAS2` compares and swaps the pair. The index of a cell that holds an
item is the ticket it was put there under; that of an empty cell is the first ticket that may use
it.

Tickets stay below 2^63, so that an index is a natural number beside the flag that calls the cell
unsafe.
-/

namespace QueueFairness.CRQueue

open Interleaving
open PRQueue (place)

structure Cell where
  val : Option Nat
  idx : Word
  deriving DecidableEq

structure Segment where
  base : SegmentBase
  array : Nat → Cell

/-- `CRQueue(start)`. -/
def new (L : Layout) (start : Nat) : Segment where
  base := { head := start, tail := ⟨false, start⟩ }
  array :=
    (List.range' start L.size).foldl
      (fun array i => Function.update array (L.position (i % L.size)) ⟨none, ⟨false, i⟩⟩)
      fun _ => ⟨none, ⟨false, 0⟩⟩

/-- `array[remap[ticket % RING_SIZE]]`. -/
def Segment.cell (L : Layout) (s : Segment) (ticket : Nat) : Cell := s.array (place L ticket)

def Segment.setCell (L : Layout) (s : Segment) (ticket : Nat) (c : Cell) : Segment :=
  { s with array := Function.update s.array (place L ticket) c }

/-- `CAS2(&cell, val, idx, val', idx')`. -/
def Segment.cas2 (L : Layout) (s : Segment) (ticket : Nat) (old new : Cell) : Segment × Bool :=
  if s.cell L ticket = old then (s.setCell L ticket new, true) else (s, false)

/-- Where a thread stands in `enqueue`, with the local variables live there. -/
inductive Enq where
  | fetchAdd (tryClose : Nat)
  | loadIdx (tryClose tailticket : Nat)
  | loadVal (tryClose tailticket : Nat) (idx : Word)
  | checkHead (tryClose tailticket : Nat) (idx : Word)
  | cas2 (tryClose tailticket : Nat) (idx : Word)
  | nowLin
  | stampLin (ts : Nat)
  | loadHead (tryClose tailticket : Nat)
  | close (tryClose tailticket : Nat)
  deriving DecidableEq

/-- Where a thread stands in `dequeue`, with the local variables live there; `idx` is the word
`cell_idx`. -/
inductive Deq where
  | fetchAdd
  | loadIdx (headticket r : Nat) (tt : Word)
  | loadVal (headticket r : Nat) (tt idx : Word)
  | casTake (headticket r : Nat) (tt idx : Word) (a : Nat)
  | nowLin (a : Nat)
  | stampLin (a ts : Nat)
  | casUnsafe (headticket r : Nat) (tt idx : Word) (a : Nat)
  | loadTail (headticket r : Nat) (idx : Word)
  | casIdx (headticket r : Nat) (tt idx : Word)
  | loadTailIndex (headticket : Nat)
  | fixState (l : SegmentBase.Fix)
  deriving DecidableEq

/-- A step of thread `t` in `enqueue(item)`. -/
def enqueueStep (L : Layout) (t : Tid) (now item : Nat) (s : Segment) :
    Enq → Segment × (Enq ⊕ Bool) × List SegmentEvent
  | .fetchAdd c =>
      let s' := { s with base := s.base.drawTail }
      if s.base.tail.flag then (s', .inr false, [])
      else (s', .inl (.loadIdx c s.base.tail.index), [.drawTail t s.base.tail.index])
  | .loadIdx c k => (s, .inl (.loadVal c k (s.cell L k).idx), [])
  | .loadVal c k idx =>
      if (s.cell L k).val = none ∧ idx.index ≤ k then
        if idx.flag then (s, .inl (.checkHead c k idx), [])
        else (s, .inl (.cas2 c k idx), [])
      else
        (s, .inl (.loadHead c k), [])
  | .checkHead c k idx =>
      if s.base.head < k then (s, .inl (.cas2 c k idx), [])
      else (s, .inl (.loadHead c k), [])
  | .cas2 c k idx =>
      let r := s.cas2 L k ⟨none, idx⟩ ⟨some item, ⟨false, k⟩⟩
      if r.2 then (r.1, .inl .nowLin, [.deposit t item k])
      else (r.1, .inl (.loadHead c k), [])
  | .nowLin => (s, .inl (.stampLin now), [])
  | .stampLin ts => (s, .inr true, [.stampEnq t item ts])
  | .loadHead c k =>
      if s.base.head + L.size ≤ k then (s, .inl (.close c k), [])
      else (s, .inl (.fetchAdd c), [])
  | .close c k =>
      let r := s.base.closeSegment k (c + 1 > 10)
      ({ s with base := r.1 }, if r.2 then .inr false else .inl (.fetchAdd (c + 1)), [])

/-- The end of an iteration that found the cell empty: give the ticket up or go round again. -/
def afterEmpty (headticket r : Nat) (tt idx : Word) : Deq :=
  if idx.flag ∨ tt.index < headticket + 1 ∨ tt.flag ∨ r > 4 * 1024 then
    .casIdx headticket r tt idx
  else
    .loadIdx headticket (r + 1) tt

/-- A step of thread `t` in `dequeue()`. -/
def dequeueStep (L : Layout) (t : Tid) (now : Nat) (s : Segment) :
    Deq → Segment × (Deq ⊕ Option Nat) × List SegmentEvent
  | .fetchAdd =>
      ({ s with base := s.base.drawHead }, .inl (.loadIdx s.base.head 0 ⟨false, 0⟩),
        [.drawHead t s.base.head])
  | .loadIdx h r tt => (s, .inl (.loadVal h r tt (s.cell L h).idx), [])
  | .loadVal h r tt idx =>
      if idx.index > h then
        (s, .inl (.loadTailIndex h), [.leave t h])
      else
        match (s.cell L h).val with
        | some a =>
            if idx.index = h then (s, .inl (.casTake h r tt idx a), [])
            else (s, .inl (.casUnsafe h r tt idx a), [])
        | none =>
            if r % 256 = 0 then (s, .inl (.loadTail h r idx), [])
            else (s, .inl (afterEmpty h r tt idx), [])
  | .casTake h r tt idx a =>
      let res := s.cas2 L h ⟨some a, idx⟩ ⟨none, ⟨idx.flag, h + L.size⟩⟩
      if res.2 then (res.1, .inl (.nowLin a), [.take t a h])
      else (res.1, .inl (.loadIdx h r tt), [])
  | .nowLin a => (s, .inl (.stampLin a now), [])
  | .stampLin a ts => (s, .inr (some a), [.stampDeq t a ts])
  | .casUnsafe h r tt idx a =>
      let res := s.cas2 L h ⟨some a, idx⟩ ⟨some a, ⟨true, idx.index⟩⟩
      if res.2 then (res.1, .inl (.loadTailIndex h), [.leave t h])
      else (res.1, .inl (.loadIdx h r tt), [])
  | .loadTail h r idx => (s, .inl (afterEmpty h r s.base.tail idx), [])
  | .casIdx h r tt idx =>
      let res := s.cas2 L h ⟨none, idx⟩ ⟨none, ⟨idx.flag, h + L.size⟩⟩
      if res.2 then (res.1, .inl (.loadTailIndex h), [.leave t h])
      else (res.1, .inl (.loadIdx h (r + 1) tt), [])
  | .loadTailIndex h =>
      if s.base.tail.index ≤ h + 1 then (s, .inl (.fixState .loadTail), [])
      else (s, .inl .fetchAdd, [])
  | .fixState l =>
      let r := s.base.fixStep l
      ({ s with base := r.1 }, r.2.elim (.inr none) (.inl ∘ .fixState), [])

/-- `CRQueue`. -/
def type (L : Layout) : SegmentType Segment Enq Deq where
  new := new L
  enqueue := .fetchAdd 0
  dequeue := .fetchAdd
  enqueueStep := enqueueStep L
  dequeueStep := dequeueStep L
  base := Segment.base

end QueueFairness.CRQueue

namespace QueueFairness.LCRQueue

/-- `LCRQueue_Internal`, a `LinkedRingQueue` over `CRQueue`. -/
abbrev program (L : Layout) (maxThreads : Nat) :=
  LinkedRingQueue.program (CRQueue.type L) maxThreads

end QueueFairness.LCRQueue
