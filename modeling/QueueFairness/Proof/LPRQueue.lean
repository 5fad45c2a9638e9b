import QueueFairness.Proof.PRQueueStep
import QueueFairness.Proof.RingSpec

/-!
# The items of the portable ring queue

As long as every dequeue that takes an item finds the cell's index still that of its ticket, the
portable ring segment is what the list needs, and the queue neither duplicates nor loses an item.
A dequeue that reads an index, sleeps, and finds the item of a later round takes it in another's
place.
-/

namespace QueueFairness

namespace PRQueue

open Interleaving LinkedRingQueue

variable {L : Layout} {start : Nat} {c : Config Segment (SegmentLocal Enq Deq) SegmentEvent}
  {t : Tid}

/-- What an enqueue finds in a segment nobody else knows. -/
def Alone (L : Layout) (t : Tid) (s : Segment) : Enq → Prop
  | .fetchAdd _ => s.base.tail.flag = false
      ∧ s.cell L s.base.tail.index = ⟨.null, ⟨false, s.base.tail.index⟩⟩
  | .loadIdx _ k => s.cell L k = ⟨.null, ⟨false, k⟩⟩
  | .loadVal _ k idx | .casBottom _ k idx => s.cell L k = ⟨.null, idx⟩ ∧ idx = ⟨false, k⟩
  | .casIdx _ k idx => s.cell L k = ⟨.bottom t, idx⟩
  | .casItem _ k => (s.cell L k).val = .bottom t
  | .nowLin | .stampLin _ => True
  | _ => False

theorem alone_start (L : Layout) (t : Tid) (start : Nat) :
    Alone L t (new L start) (.fetchAdd 0) := by
  obtain ⟨i, hle, hlt, hres, hcell⟩ := cell_new L start start
  obtain rfl : i = start := Nat.le_antisymm (le_of_residue hres hlt) hle
  exact ⟨rfl, hcell⟩

theorem alone_step {now item : Nat} {s : Segment} {l : Enq} (hl : Alone L t s l) :
    (enqueueStep L t now item s l).2.1.elim (Alone L t (enqueueStep L t now item s l).1)
      (· = true) := by
  cases l with
  | fetchAdd c =>
      simp only [enqueueStep, hl.1]
      exact hl.2
  | loadIdx c k =>
      have hl : s.cell L k = ⟨.null, ⟨false, k⟩⟩ := hl
      simp [enqueueStep, Alone, hl]
  | loadVal c k idx =>
      obtain ⟨hcell, rfl⟩ := hl
      simp [enqueueStep, Alone, hcell]
  | casBottom c k idx =>
      obtain ⟨hcell, rfl⟩ := hl
      simp [enqueueStep, Alone, hcell]
  | casIdx c k idx =>
      have hl : s.cell L k = ⟨.bottom t, idx⟩ := hl
      simp [enqueueStep, Alone, hl]
  | casItem c k =>
      have hl : (s.cell L k).val = .bottom t := hl
      simp [enqueueStep, Alone, hl]
  | nowLin => trivial
  | stampLin ts => rfl
  | _ => exact absurd hl id

theorem Runs.of_reach
    (h : (segmentProgram (type L) start).Reach (fun c t _ => TakesCurrently L c t) c) :
    Runs L True start c :=
  h.mono fun _ _ _ hok _ => hok

/-- With nobody about, what is left in a cell waits for a dequeue still to come. -/
theorem stored_drained {strict : Prop} (h : Runs L strict start c)
    (hidle : ∀ t, c.locals t = .idle) (hdrained : Drained (type L) c.shared c.history) :
    stored L c.shared = [] := by
  obtain ⟨x, ⟨-, hw⟩, -⟩ := h.holds
  refine List.filterMap_eq_nil_iff.mpr fun p hp => ?_
  obtain ⟨k, rfl⟩ := exists_ticket (List.mem_range.mp hp)
  cases hval : (c.shared.array (place L k)).val with
  | null | bottom => rfl
  | item a =>
      obtain ⟨j, -, hleft, ⟨t, hdrawn⟩, -⟩ := hw.cells.armed (hw.cells.item (k := k) hval)
      exact absurd ((ring L).left_of_drained h hidle hdrained hdrawn) hleft

/-- What the list needs to know of `PRQueue`. -/
def spec (L : Layout) : SegmentSpec (type L) (TakesCurrently L) where
  stored := stored L
  deposited := (ring L).deposited
  held := (ring L).held
  emptied := (ring L).emptied
  alone := Alone L
  ok_idle hidle l hl := by
    rw [hidle] at hl
    cases hl
  enqueue_start := rfl
  dequeue_start := ⟨rfl, rfl⟩
  enqueue_events := (ring L).enqueue_events
  dequeue_events := (ring L).dequeue_events
  account h := by
    obtain ⟨x, ⟨-, hw⟩, -⟩ := (Runs.of_reach h).holds
    exact hw.account trivial
  stored_drained h := stored_drained (Runs.of_reach h)
  closed_step h _ hstep := (ring L).closed_step h hstep
  refused := (ring L).refused
  emptied_step h _ hlocal hclosed hres :=
    ((ring L).emptied_now h hlocal hres).imp_right (⟨hclosed, ·⟩)
  alone_start := alone_start L
  alone_step _ _ := alone_step

end PRQueue

namespace LPRQueue

open Interleaving LinkedRingQueue PRQueue

/-- **LPRQ neither duplicates nor loses an item**, as long as every dequeue that takes an item finds
the cell's index still that of its ticket. -/
theorem conserved_of_takesCurrently {L : Layout} {maxThreads : Nat}
    {c : Config (Shared Segment) (Local Enq Deq) Event}
    (h : (program L maxThreads).Reach
      (fun c t i => Orderly (TakesCurrently L) c t i ∧ FreshItem c t i) c) :
    Conserved (stored L) c :=
  Reach.conserved (PRQueue.spec L) h

/-! ### Runs -/

section Runs

variable {L : Layout} {c : Config (Shared Segment) (Local Enq Deq) Event} {t : Tid} {i : Input}

def currentCheck (L : Layout) (c : Config (Shared Segment) (Local Enq Deq) Event) (t : Tid) :
    Bool :=
  match c.locals t with
  | .deqSegment s (.loadVal k _ _ idx) | .deqSegmentAgain s _ (.loadVal k _ _ idx) =>
      let cell := (c.shared.nodes s).segment.cell L k
      cell.val.item?.isNone || idx.index ≠ k + L.size || cell.idx.index = k + L.size
  | _ => true

theorem takesCurrently_of_check (h : currentCheck L c t = true) (s : Nat) :
    TakesCurrently L (projected s c) t := by
  intro l hl
  cases l with
  | loadVal k r tt idx =>
      intro hk a hval
      have hval : ((c.shared.nodes s).segment.cell L k).val = .item a := hval
      have hinside : (c.locals t).inSegment s = .dequeue (.loadVal k r tt idx) := hl
      rcases Local.inSegment_eq_dequeue hinside with hlocal | ⟨n, hlocal⟩ <;>
        simpa [currentCheck, hlocal, hval, Val.item?, hk, projected] using h
  | _ => trivial

/-- Thread 0 enqueues 7 and, in a new segment, 8; thread 1 dequeues both. -/
def twoSegmentsSchedule : List (Tid × Input) :=
  List.replicate 14 (0, { op := some (.enqueue 7) })
    ++ List.replicate 23 (0, { op := some (.enqueue 8), addr := 1 })
    ++ List.replicate 48 (1, { op := some .dequeue })

theorem conserved_of_takesCurrently_twoSegments :
    ∃ c, (returnedItems c.history, c.shared.head) = ([7, 8], 1)
      ∧ (program (.identity 1 (by decide)) 2).Reach (fun c t i =>
        Orderly (TakesCurrently (.identity 1 (by decide))) c t i ∧ FreshItem c t i) c
      ∧ Conserved (stored (.identity 1 (by decide))) c := by
  have hrun : ((program (.identity 1 (by decide)) 2).execIf 2
      (fun c t i => freshCheck c t i && currentCheck (.identity 1 (by decide)) c t)
      (program (.identity 1 (by decide)) 2).init twoSegmentsSchedule).map
      (fun c => (returnedItems c.history, c.shared.head)) = some ([7, 8], 1) := by
    decide +kernel
  obtain ⟨c, hexec, heq⟩ := Option.map_eq_some_iff.mp hrun
  have hreach : (program (.identity 1 (by decide)) 2).Reach (fun c t i =>
      Orderly (TakesCurrently (.identity 1 (by decide))) c t i ∧ FreshItem c t i) c := by
    refine .execIf (fun c t i _ hcheck => ?_) .init (fun _ _ => rfl) hexec
    obtain ⟨hfresh, hcurrent⟩ := (Bool.and_eq_true _ _).mp hcheck
    exact ⟨⟨(fresh_of_check hfresh).1, takesCurrently_of_check hcurrent⟩, (fresh_of_check hfresh).2⟩
  exact ⟨c, heq, hreach, conserved_of_takesCurrently hreach⟩

/-- Thread 1 moves the index of the only cell on for ticket 0 and stops. Thread 0 draws head ticket
0, reads the index and stops. Thread 2 draws head ticket 1, takes thread 1's marker away, moves the
index on and finds the queue empty. Thread 1 goes on and puts its item in the cell under ticket 2.
Threads 0 and 2 find it there, each by its own index, and both return it. -/
def staleIndexSchedule : List (Tid × Input) :=
  List.replicate 10 (1, { op := some (.enqueue 7) })
    ++ List.replicate 6 (0, { op := some .dequeue })
    ++ List.replicate 17 (2, { op := some .dequeue })
    ++ List.replicate 11 (1, { op := none })
    ++ [(0, { op := none })]
    ++ List.replicate 11 (2, { op := some .dequeue })
    ++ List.replicate 4 (0, { op := none })

/-- A dequeue that has read the index of an earlier round returns another's item. -/
theorem not_conserved_staleIndex :
    ¬ ∀ c, (program (.identity 1 (by decide)) 3).Reach
        (fun c t i => FreshAddress c t i ∧ FreshItem c t i) c →
      Conserved (stored (.identity 1 (by decide))) c := by
  intro hall
  have hrun : ((program (.identity 1 (by decide)) 3).execIf 3 freshCheck
      (program (.identity 1 (by decide)) 3).init staleIndexSchedule).map
      (fun c => returnedItems c.history) = some [7, 7] := by
    decide +kernel
  obtain ⟨c, hexec, heq⟩ := Option.map_eq_some_iff.mp hrun
  have hreach : (program (.identity 1 (by decide)) 3).Reach
      (fun c t i => FreshAddress c t i ∧ FreshItem c t i) c :=
    .execIf (fun _ _ _ _ hcheck => fresh_of_check hcheck) .init (fun _ _ => rfl) hexec
  have honce := (hall c hreach).once
  rw [heq] at honce
  exact absurd honce (by decide)

end Runs

end LPRQueue

end QueueFairness
