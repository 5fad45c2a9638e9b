import QueueFairness.Proof.CRQueueCells
import QueueFairness.Proof.RingSequential

/-!
# The ring queue with double-word cells used by one thread at a time

An item is in the cell of its ticket under the index of its ticket; an empty cell is under the index
of the ticket that comes next, and a dequeue moves the index of the cell it leaves on by a round,
with an item in its hands or without.
-/

namespace QueueFairness.CRQueue

open Interleaving LinkedRingQueue TicketWindow

variable {L : Layout} {s : Segment} {t : Tid} {k j a item : Nat}

/-- The cell of ticket `k` with item `a` in it. -/
def fullCell (k a : Nat) : Cell := ⟨some a, ⟨false, k⟩⟩

/-- The cell that waits for ticket `k`. -/
def emptyCell (k : Nat) : Cell := ⟨none, ⟨false, k⟩⟩

theorem cas2_self {old : Cell} (hcell : s.cell L k = old) (new : Cell) :
    s.cas2 L k old new = (s.setCell L k new, true) := by
  rw [Segment.cas2, if_pos hcell]

theorem setCell_sets (s : Segment) (k : Nat) (c : Cell) :
    Sets L.size (s.cell L) ((s.setCell L k c).cell L) k c :=
  fun j => s.cell_setCell k c j

/-- The ticket of an enqueue, when its cell is empty. -/
theorem enqueue_room (hcell : s.cell L k = emptyCell k) :
    Completes (fun now => enqueueStep L t now item) (fun s' ok => ok = true ∧ s'.base = s.base
      ∧ Sets L.size (s.cell L) (s'.cell L) k (fullCell k item)) s (.loadIdx 0 k) := by
  have hloadIdx : ∀ now, enqueueStep L t now item s (.loadIdx 0 k)
      = (s, .inl (.loadVal 0 k ⟨false, k⟩), []) := fun now => by
    rw [enqueueStep, hcell, emptyCell]
  have hloadVal : ∀ now, enqueueStep L t now item s (.loadVal 0 k ⟨false, k⟩)
      = (s, .inl (.cas2 0 k ⟨false, k⟩), []) := fun now => by
    simp [enqueueStep, hcell, emptyCell]
  have hcas : ∀ now, enqueueStep L t now item s (.cas2 0 k ⟨false, k⟩)
      = (s.setCell L k (fullCell k item), .inl .nowLin, [.deposit t item k]) := fun now => by
    have hwon : s.cas2 L k ⟨none, ⟨false, k⟩⟩ ⟨some item, ⟨false, k⟩⟩
        = (s.setCell L k (fullCell k item), true) := cas2_self hcell _
    simp only [enqueueStep, hwon, if_true]
  refine .next hloadIdx (.next hloadVal (.next hcas ?_))
  -- The clock is read and the timestamp stored.
  refine .step (fun now r hr => by simp [enqueueStep] at hr) fun now l' hl' => ?_
  obtain rfl : Enq.stampLin now = l' := by simpa [enqueueStep] using hl'
  exact .last (fun _ => rfl) ⟨rfl, rfl, setCell_sets s k _⟩

/-- The ticket of an enqueue, when its cell is taken. -/
theorem enqueue_found {Q : Segment → Bool → Prop} (hcell : s.cell L k = fullCell j a)
    (hnext : Completes (fun now => enqueueStep L t now item) Q s (.loadHead 0 k)) :
    Completes (fun now => enqueueStep L t now item) Q s (.loadIdx 0 k) := by
  have hloadIdx : ∀ now, enqueueStep L t now item s (.loadIdx 0 k)
      = (s, .inl (.loadVal 0 k ⟨false, j⟩), []) := fun now => by
    rw [enqueueStep, hcell, fullCell]
  have hloadVal : ∀ now, enqueueStep L t now item s (.loadVal 0 k ⟨false, j⟩)
      = (s, .inl (.loadHead 0 k), []) := fun now => by
    simp [enqueueStep, hcell, fullCell]
  exact .next hloadIdx (.next hloadVal hnext)

/-- The ticket of a dequeue, when an item is there. -/
theorem dequeue_item (hcell : s.cell L k = fullCell k a) :
    Completes (dequeueStep L t) (fun s' r => r = some a ∧ s'.base = s.base
      ∧ Sets L.size (s.cell L) (s'.cell L) k (emptyCell (k + L.size))) s
      (.loadIdx k 0 ⟨false, 0⟩) := by
  have hloadIdx : ∀ now, dequeueStep L t now s (.loadIdx k 0 ⟨false, 0⟩)
      = (s, .inl (.loadVal k 0 ⟨false, 0⟩ ⟨false, k⟩), []) := fun now => by
    rw [dequeueStep, hcell, fullCell]
  have hloadVal : ∀ now, dequeueStep L t now s (.loadVal k 0 ⟨false, 0⟩ ⟨false, k⟩)
      = (s, .inl (.casTake k 0 ⟨false, 0⟩ ⟨false, k⟩ a), []) := fun now => by
    simp [dequeueStep, hcell, fullCell]
  have hcas : ∀ now, dequeueStep L t now s (.casTake k 0 ⟨false, 0⟩ ⟨false, k⟩ a)
      = (s.setCell L k (emptyCell (k + L.size)), .inl (.nowLin a), [.take t a k]) := fun now => by
    have hwon : s.cas2 L k ⟨some a, ⟨false, k⟩⟩ ⟨none, ⟨false, k + L.size⟩⟩
        = (s.setCell L k (emptyCell (k + L.size)), true) := cas2_self hcell _
    simp only [dequeueStep, hwon, if_true]
  refine .next hloadIdx (.next hloadVal (.next hcas ?_))
  -- The clock is read and the timestamp stored.
  refine .step (fun now r hr => by simp [dequeueStep] at hr) fun now l' hl' => ?_
  obtain rfl : Deq.stampLin a now = l' := by simpa [dequeueStep] using hl'
  exact .last (fun _ => rfl) ⟨rfl, rfl, setCell_sets s k _⟩

/-- The ticket of a dequeue, when nothing is there and the tail is behind it or closed. -/
theorem dequeue_leave {Q : Segment → Option Nat → Prop} (hcell : s.cell L k = emptyCell k)
    (hgiveUp : s.base.tail.index < k + 1 ∨ s.base.tail.flag = true)
    (hnext : ∀ s' : Segment, s'.base = s.base →
      Sets L.size (s.cell L) (s'.cell L) k (emptyCell (k + L.size)) →
      Completes (dequeueStep L t) Q s' (.loadTailIndex k)) :
    Completes (dequeueStep L t) Q s (.loadIdx k 0 ⟨false, 0⟩) := by
  have hloadIdx : ∀ now, dequeueStep L t now s (.loadIdx k 0 ⟨false, 0⟩)
      = (s, .inl (.loadVal k 0 ⟨false, 0⟩ ⟨false, k⟩), []) := fun now => by
    rw [dequeueStep, hcell, emptyCell]
  have hloadVal : ∀ now, dequeueStep L t now s (.loadVal k 0 ⟨false, 0⟩ ⟨false, k⟩)
      = (s, .inl (.loadTail k 0 ⟨false, k⟩), []) := fun now => by
    simp [dequeueStep, hcell, emptyCell]
  have hloadTail : ∀ now, dequeueStep L t now s (.loadTail k 0 ⟨false, k⟩)
      = (s, .inl (.casIdx k 0 s.base.tail ⟨false, k⟩), []) := fun now => by
    rcases hgiveUp with hlt | hflag
    · simp [dequeueStep, afterEmpty, hlt]
    · simp [dequeueStep, afterEmpty, hflag]
  have hcasIdx : ∀ now, dequeueStep L t now s (.casIdx k 0 s.base.tail ⟨false, k⟩)
      = (s.setCell L k (emptyCell (k + L.size)), .inl (.loadTailIndex k), [.leave t k]) :=
    fun now => by
      have hwon : s.cas2 L k ⟨none, ⟨false, k⟩⟩ ⟨none, ⟨false, k + L.size⟩⟩
          = (s.setCell L k (emptyCell (k + L.size)), true) := cas2_self hcell _
      simp only [dequeueStep, hwon, if_true]
  exact .next hloadIdx (.next hloadVal (.next hloadTail (.next hcasIdx
    (hnext _ rfl (setCell_sets s k _)))))

/-- The cells of a `CRQueue` in the hands of one thread. -/
def ringCells (L : Layout) : RingCells (type L) Cell where
  size := L.size
  size_pos := L.size_pos
  cell := Segment.cell L
  full := fullCell
  empty := emptyCell
  setBase s b := { s with base := b }
  enqHas := .loadIdx 0
  enqFound := .loadHead 0
  enqCloses := .close 0
  deqHas k := .loadIdx k 0 ⟨false, 0⟩
  deqLeft := .loadTailIndex
  deqFixes := .fixState
  cell_mod hmod := Segment.cell_congr _ hmod
  base_set _ _ := rfl
  cell_set _ _ := rfl
  set_base _ := rfl
  new_base _ := rfl
  new_cell := cell_new L
  enqueue_draw hopen := by
    simp only [type, enqueueStep] at hopen ⊢
    simp [hopen]
  enqueue_room := enqueue_room
  enqueue_found := enqueue_found
  enqueue_behind hbehind := if_pos hbehind
  enqueue_close hlast := by
    simp only [type] at hlast
    simp [type, enqueueStep, hlast]
  dequeue_draw _ _ _ := rfl
  dequeue_item := dequeue_item
  dequeue_leave := dequeue_leave
  dequeue_last hlast := if_pos hlast
  dequeue_fix _ _ _ _ := rfl

/-- A ring is a bounded list. -/
def sequential (L : Layout) : Sequential (type L) := (ringCells L).sequential

end QueueFairness.CRQueue

namespace QueueFairness.LCRQueue

open Interleaving LinkedRingQueue

/-- **Used by one thread at a time, LCRQ is a FIFO list.** Whatever the layout of the rings, the
calls and the threads that make them, every call comes to its end, every dequeue returns the oldest
item that is there or `nullptr` when there is none, and `estimateSize` returns how many there
are. -/
theorem serves_as_list (L : Layout) (maxThreads : Nat) (calls : List (Tid × Op)) :
    (program L maxThreads).Serves FreeAddress (calls.map fun (t, op) => (t, { op := some op }))
      (fun c => returns c.history = answers [] calls) (program L maxThreads).init :=
  (CRQueue.sequential L).serves (answered_init (CRQueue.sequential L) maxThreads) calls

end QueueFairness.LCRQueue
