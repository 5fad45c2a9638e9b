import QueueFairness.Proof.PRQueueStep
import QueueFairness.Proof.RingSequential

/-!
# The portable ring queue used by one thread at a time

An item is in the cell of its ticket under the index of the next round; an empty cell is under the
index of the ticket that comes next. An enqueue reserves its cell, moves the index on and stores the
item; a dequeue takes the item away, or moves the index of a cell it found empty on by a round.
-/

namespace QueueFairness.PRQueue

open Interleaving LinkedRingQueue TicketWindow

variable {L : Layout} {s : Segment} {t : Tid} {k j a item : Nat}

/-- The cell of ticket `k` with item `a` in it. -/
def fullCell (L : Layout) (k a : Nat) : Cell := ⟨.item a, ⟨false, k + L.size⟩⟩

/-- The cell that waits for ticket `k`. -/
def emptyCell (k : Nat) : Cell := ⟨.null, ⟨false, k⟩⟩

/-- The ticket of an enqueue, when its cell is empty. -/
theorem enqueue_room (hcell : s.cell L k = emptyCell k) :
    Completes (fun now => enqueueStep L t now item) (fun s' ok => ok = true ∧ s'.base = s.base
      ∧ Sets L.size (s.cell L) (s'.cell L) k (fullCell L k item)) s (.loadIdx 0 k) := by
  let s₁ := s.setVal L k (.bottom t)
  let s₂ := s₁.setIdx L k ⟨false, k + L.size⟩
  let s₃ := s₂.setVal L k (.item item)
  have hcell : s.cell L k = ⟨.null, ⟨false, k⟩⟩ := hcell
  have hs₁ : s₁.cell L k = ⟨.bottom t, ⟨false, k⟩⟩ := by simp [s₁, hcell]
  have hs₂ : s₂.cell L k = ⟨.bottom t, ⟨false, k + L.size⟩⟩ := by simp [s₂, hs₁]
  have hloadIdx : ∀ now, enqueueStep L t now item s (.loadIdx 0 k)
      = (s, .inl (.loadVal 0 k ⟨false, k⟩), []) := fun now => by
    rw [enqueueStep, hcell]
  have hloadVal : ∀ now, enqueueStep L t now item s (.loadVal 0 k ⟨false, k⟩)
      = (s, .inl (.casBottom 0 k ⟨false, k⟩), []) := fun now => by
    simp [enqueueStep, hcell]
  have hcasBottom : ∀ now, enqueueStep L t now item s (.casBottom 0 k ⟨false, k⟩)
      = (s₁, .inl (.casIdx 0 k ⟨false, k⟩), []) := fun now => by
    simp [enqueueStep, hcell, s₁]
  have hcasIdx : ∀ now, enqueueStep L t now item s₁ (.casIdx 0 k ⟨false, k⟩)
      = (s₂, .inl (.casItem 0 k), []) := fun now => by
    simp [enqueueStep, hs₁, s₂]
  have hcasItem : ∀ now, enqueueStep L t now item s₂ (.casItem 0 k)
      = (s₃, .inl .nowLin, [.deposit t item k]) := fun now => by
    simp [enqueueStep, hs₂, s₃]
  refine .next hloadIdx (.next hloadVal (.next hcasBottom (.next hcasIdx (.next hcasItem ?_))))
  -- The clock is read and the timestamp stored.
  refine .step (fun now r hr => by simp [enqueueStep] at hr) fun now l' hl' => ?_
  obtain rfl : Enq.stampLin now = l' := by simpa [enqueueStep] using hl'
  refine .last (fun _ => rfl) ⟨rfl, rfl, fun j => ?_⟩
  change s₃.cell L j = _
  by_cases hj : j % L.size = k % L.size
  · rw [if_pos hj, Segment.cell_congr s₃ hj]
    simp [s₃, hs₂, fullCell]
  · rw [if_neg hj]
    simp [s₃, s₂, s₁, Segment.cell_setVal, Segment.cell_setIdx, hj]

/-- The ticket of an enqueue, when its cell is taken. -/
theorem enqueue_found {Q : Segment → Bool → Prop} (hcell : s.cell L k = fullCell L j a)
    (hnext : Completes (fun now => enqueueStep L t now item) Q s (.loadHead 0 k)) :
    Completes (fun now => enqueueStep L t now item) Q s (.loadIdx 0 k) := by
  have hloadIdx : ∀ now, enqueueStep L t now item s (.loadIdx 0 k)
      = (s, .inl (.loadVal 0 k ⟨false, j + L.size⟩), []) := fun now => by
    rw [enqueueStep, hcell, fullCell]
  have hloadVal : ∀ now, enqueueStep L t now item s (.loadVal 0 k ⟨false, j + L.size⟩)
      = (s, .inl (.loadHead 0 k), []) := fun now => by
    simp [enqueueStep, hcell, fullCell]
  exact .next hloadIdx (.next hloadVal hnext)

/-- The ticket of a dequeue, when an item is there. -/
theorem dequeue_item (hcell : s.cell L k = fullCell L k a) :
    Completes (dequeueStep L t) (fun s' r => r = some a ∧ s'.base = s.base
      ∧ Sets L.size (s.cell L) (s'.cell L) k (emptyCell (k + L.size))) s
      (.loadIdx k 0 ⟨false, 0⟩) := by
  have hloadIdx : ∀ now, dequeueStep L t now s (.loadIdx k 0 ⟨false, 0⟩)
      = (s, .inl (.loadVal k 0 ⟨false, 0⟩ ⟨false, k + L.size⟩), []) := fun now => by
    rw [dequeueStep, hcell, fullCell]
  have hloadVal : ∀ now, dequeueStep L t now s (.loadVal k 0 ⟨false, 0⟩ ⟨false, k + L.size⟩)
      = (s, .inl (.storeNull k a), []) := fun now => by
    simp [dequeueStep, hcell, fullCell]
  have hstoreNull : ∀ now, dequeueStep L t now s (.storeNull k a)
      = (s.setVal L k .null, .inl (.nowLin a), [.take t a k]) := fun now => rfl
  refine .next hloadIdx (.next hloadVal (.next hstoreNull ?_))
  -- The clock is read and the timestamp stored.
  refine .step (fun now r hr => by simp [dequeueStep] at hr) fun now l' hl' => ?_
  obtain rfl : Deq.stampLin a now = l' := by simpa [dequeueStep] using hl'
  refine .last (fun _ => rfl) ⟨rfl, rfl, fun j => ?_⟩
  change (s.setVal L k .null).cell L j = _
  rw [Segment.cell_setVal, hcell, fullCell, emptyCell]

/-- The ticket of a dequeue, when nothing is there and the tail is behind it or closed. -/
theorem dequeue_leave {Q : Segment → Option Nat → Prop} (hcell : s.cell L k = emptyCell k)
    (hgiveUp : s.base.tail.index < k + 1 ∨ s.base.tail.flag = true)
    (hnext : ∀ s' : Segment, s'.base = s.base →
      Sets L.size (s.cell L) (s'.cell L) k (emptyCell (k + L.size)) →
      Completes (dequeueStep L t) Q s' (.loadTailIndex k)) :
    Completes (dequeueStep L t) Q s (.loadIdx k 0 ⟨false, 0⟩) := by
  have hloadIdx : ∀ now, dequeueStep L t now s (.loadIdx k 0 ⟨false, 0⟩)
      = (s, .inl (.loadVal k 0 ⟨false, 0⟩ ⟨false, k⟩), []) := fun now => by
    rw [dequeueStep, hcell, emptyCell]
  have hloadVal : ∀ now, dequeueStep L t now s (.loadVal k 0 ⟨false, 0⟩ ⟨false, k⟩)
      = (s, .inl (.loadTail k 0 ⟨false, k⟩ none), []) := fun now => by
    simp [dequeueStep, hcell, emptyCell, onEmpty]
  have hloadTail : ∀ now, dequeueStep L t now s (.loadTail k 0 ⟨false, k⟩ none)
      = (s, .inl (.casIdx k 0 s.base.tail ⟨false, k⟩), []) := fun now => by
    rcases hgiveUp with hlt | hflag
    · simp [dequeueStep, afterEmpty, hlt]
    · simp [dequeueStep, afterEmpty, hflag]
  have hcasIdx : ∀ now, dequeueStep L t now s (.casIdx k 0 s.base.tail ⟨false, k⟩)
      = (s.setIdx L k ⟨false, k + L.size⟩, .inl (.loadTailIndex k), [.leave t k]) :=
    fun now => by simp [dequeueStep, hcell, emptyCell]
  have hsets : Sets L.size (s.cell L) ((s.setIdx L k ⟨false, k + L.size⟩).cell L) k
      (emptyCell (k + L.size)) := fun j => by
    rw [Segment.cell_setIdx, hcell, emptyCell, emptyCell]
  exact .next hloadIdx (.next hloadVal (.next hloadTail (.next hcasIdx (hnext _ rfl hsets))))

/-- The cells of a `PRQueue` in the hands of one thread. -/
def ringCells (L : Layout) : RingCells (type L) Cell where
  size := L.size
  size_pos := L.size_pos
  cell := Segment.cell L
  full := fullCell L
  empty := emptyCell
  setBase s b := { s with base := b }
  enqHas := .loadIdx 0
  enqFound := .loadHead 0
  enqCloses := .close 0
  deqHas k := .loadIdx k 0 ⟨false, 0⟩
  deqLeft := .loadTailIndex
  deqFixes := .fixState
  cell_mod hmod := Segment.cell_congr _ hmod
  base_set _ _ := rfl
  cell_set _ _ := rfl
  set_base _ := rfl
  new_base _ := rfl
  new_cell := cell_new L
  enqueue_draw hopen := by
    simp only [type, enqueueStep] at hopen ⊢
    simp [hopen]
  enqueue_room := enqueue_room
  enqueue_found := enqueue_found
  enqueue_behind hbehind := if_pos hbehind
  enqueue_close hlast := by
    simp only [type] at hlast
    simp [type, enqueueStep, hlast]
  dequeue_draw _ _ _ := rfl
  dequeue_item := dequeue_item
  dequeue_leave := dequeue_leave
  dequeue_last hlast := if_pos hlast
  dequeue_fix _ _ _ _ := rfl

/-- A ring is a bounded list. -/
def sequential (L : Layout) : Sequential (type L) := (ringCells L).sequential

end QueueFairness.PRQueue

namespace QueueFairness.LPRQueue

open Interleaving LinkedRingQueue

/-- **Used by one thread at a time, LPRQ is a FIFO list.** Whatever the layout of the rings, the
calls and the threads that make them, every call comes to its end, every dequeue returns the oldest
item that is there or `nullptr` when there is none, and `estimateSize` returns how many there
are. -/
theorem sequential_fifo (L : Layout) (maxThreads : Nat) (calls : List (Tid × Op)) :
    (program L maxThreads).Serves FreeAddress (calls.map fun (t, op) => (t, { op := some op }))
      (fun c => returns c.history = answers [] calls) (program L maxThreads).init :=
  (PRQueue.sequential L).serves (answered_init (PRQueue.sequential L) maxThreads) calls

end QueueFairness.LPRQueue
