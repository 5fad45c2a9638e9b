import QueueFairness.Proof.CRQueueCells

/-!
# The steps of the ring segment with double-word cells

Every step of the code is one of the moves, by what its thread has seen before.
-/

namespace QueueFairness.CRQueue

open Interleaving LinkedRingQueue
open PRQueue (exists_ticket)

variable {L : Layout}

/-! ### Stages -/

def Enq.stage : Enq → EnqStage
  | .fetchAdd _ | .loadHead _ _ | .close _ _ => .draws
  | .loadIdx _ k | .loadVal _ k _ | .checkHead _ k _ | .cas2 _ k _ => .holds k
  | .nowLin | .stampLin _ => .deposited

def Deq.stage : Deq → DeqStage
  | .fetchAdd => .draws
  | .loadIdx k _ _ | .loadVal k _ _ _ | .casTake k _ _ _ _ | .casUnsafe k _ _ _ _
  | .loadTail k _ _ | .casIdx k _ _ _ => .holds k
  | .nowLin a | .stampLin a _ => .took a
  | .loadTailIndex k => .left k
  | .fixState l => .fixes l

theorem stage_afterEmpty {k r : Nat} {tt idx : Word} :
    (afterEmpty k r tt idx).stage = .holds k := by
  unfold afterEmpty
  split <;> rfl

@[simp]
theorem cas2_base (s : Segment) (k : Nat) (old new : Cell) :
    (s.cas2 L k old new).1.base = s.base := by
  unfold Segment.cas2
  split <;> rfl

theorem enqueueStep_stage (t : Tid) (now item : Nat) (s : Segment) (l : Enq) :
    EnqStep t item s.base l.stage (enqueueStep L t now item s l).1.base
      ((enqueueStep L t now item s l).2.1.map Enq.stage id)
      (enqueueStep L t now item s l).2.2 := by
  cases l with
  | fetchAdd c =>
      cases hflag : s.base.tail.flag with
      | true =>
          simp only [enqueueStep, hflag, if_true]
          exact .refuse hflag
      | false =>
          simp only [enqueueStep, hflag]
          exact .draw hflag
  | loadIdx c k => exact .stay (.holds k)
  | loadVal c k idx =>
      simp only [enqueueStep]
      repeat' split
      · exact .stay (.holds k)
      · exact .stay (.holds k)
      · exact .giveUp k
  | checkHead c k idx =>
      simp only [enqueueStep]
      split
      · exact .stay (.holds k)
      · exact .giveUp k
  | cas2 c k idx =>
      simp only [enqueueStep]
      split
      · simpa using .deposit k
      · simpa using .giveUp k
  | nowLin => exact .stay .deposited
  | stampLin ts => exact .stamp ts
  | loadHead c k =>
      simp only [enqueueStep]
      split <;> exact .stay .draws
  | close c k =>
      simp only [enqueueStep]
      split
      · exact .close k _ ‹_›
      · exact .tryClose k _

theorem dequeueStep_stage (t : Tid) (now : Nat) (s : Segment) (l : Deq) :
    DeqStep t s.base l.stage (dequeueStep L t now s l).1.base
      ((dequeueStep L t now s l).2.1.map Deq.stage id) (dequeueStep L t now s l).2.2 := by
  have hagain : ∀ {k r tt idx}, DeqStep t s.base (.holds k) s.base
      (Sum.map Deq.stage id (.inl (afterEmpty k r tt idx) : Deq ⊕ Option Nat)) [] :=
    fun {k r tt idx} => by
      rw [Sum.map_inl, stage_afterEmpty]
      exact .stay (.holds k)
  cases l with
  | fetchAdd => exact .draw
  | loadIdx k r tt => exact .stay (.holds k)
  | loadVal k r tt idx =>
      simp only [dequeueStep]
      split
      · exact .leave k
      · split <;> split
        · exact .stay (.holds k)
        · exact .stay (.holds k)
        · exact .stay (.holds k)
        · exact hagain
  | casTake k r tt idx a =>
      simp only [dequeueStep]
      split
      · simpa using .take k a
      · simpa using .stay (.holds k)
  | nowLin a => exact .stay (.took a)
  | stampLin a ts => exact .stamp a ts
  | casUnsafe k r tt idx a =>
      simp only [dequeueStep]
      split
      · simpa using .leave k
      · simpa using .stay (.holds k)
  | loadTail k r idx => exact hagain
  | casIdx k r tt idx =>
      simp only [dequeueStep]
      split
      · simpa using .leave k
      · simpa using .stay (.holds k)
  | loadTailIndex k =>
      simp only [dequeueStep]
      split
      · exact .empty k ‹_›
      · exact .retry k
  | fixState f =>
      simp only [dequeueStep]
      cases hnext : (s.base.fixStep f).2 with
      | none => exact .fixed f
      | some f' => exact .fix f f' hnext

/-- The tickets of a `CRQueue`. -/
def ring (L : Layout) : RingType (type L) where
  enqStage := Enq.stage
  deqStage := Deq.stage
  enqueue := rfl
  dequeue := rfl
  new _ := ⟨rfl, rfl⟩
  enqueueStep := enqueueStep_stage
  dequeueStep := dequeueStep_stage

/-! ### What an operation knows -/

/-- What an enqueue knows of the cell of its ticket. -/
def EnqLoc (L : Layout) (w : W) : Enq → Prop
  | .fetchAdd _ | .loadIdx _ _ | .loadHead _ _ | .close _ _ | .nowLin | .stampLin _ => True
  | .loadVal _ k idx => Seen L w k idx
  | .checkHead _ k idx => Seen L w k idx ∧ idx.index ≤ k
  | .cas2 _ k idx => Seen L w k idx ∧ idx.index ≤ k ∧ Checked L w k idx

/-- What a dequeue knows of the cell of its ticket. -/
def DeqLoc (L : Layout) (w : W) : Deq → Prop
  | .fetchAdd | .loadIdx _ _ _ | .nowLin _ | .stampLin _ _ | .loadTailIndex _ | .fixState _ => True
  | .loadVal k _ _ idx => Seen L w k idx
  | .casTake k _ _ idx _ => idx.index = k
  | .casUnsafe k _ _ idx _ => idx.index < k
  | .loadTail k _ idx | .casIdx k _ _ idx => idx.index ≤ k

section Stable

variable {w w' : W} {k : Nat} {idx : Word}

theorem Rely.seen (h : Rely L w w') (hs : Seen L w k idx) : Seen L w' k idx :=
  Nat.le_trans hs (h.rank k)

/-- An empty cell that has come back was there all along. -/
theorem Rely.checked (h : Rely L w w') (hs : Seen L w k idx) (hle : idx.index ≤ k)
    (hc : Checked L w k idx) : Checked L w' k idx := by
  intro hflag heq j hj hjk hl
  have hrank := h.rank k
  rw [heq] at hrank
  have hold := Cell.rank_empty_inj (Nat.le_antisymm hrank hs)
  exact hc hflag hold j hj hjk (h.left hold heq hjk (Nat.le_trans hle hj) hl)

theorem Rely.enqLoc {l : Enq} (h : Rely L w w') (hl : EnqLoc L w l) : EnqLoc L w' l := by
  cases l with
  | fetchAdd | loadIdx | loadHead | close | nowLin | stampLin => trivial
  | loadVal => exact h.seen hl
  | checkHead => exact ⟨h.seen hl.1, hl.2⟩
  | cas2 =>
      obtain ⟨hseen, hle, hchecked⟩ := hl
      exact ⟨h.seen hseen, hle, h.checked hseen hle hchecked⟩

theorem Rely.deqLoc {l : Deq} (h : Rely L w w') (hl : DeqLoc L w l) : DeqLoc L w' l := by
  cases l with
  | loadVal => exact h.seen hl
  | _ => exact hl

end Stable

section Steps

variable {t : Tid} {s : Segment} {h : List SegmentEvent} {k : Nat} {idx : Word}

theorem Move.stay : Move L t s h s [] := .counters s.base [] (by simp)

/-- What a step of an operation has to achieve, for what its thread knows after it. -/
def Moves (L : Layout) (t : Tid) (s : Segment) (h : List SegmentEvent) (s' : Segment)
    (es : List SegmentEvent) (loc : W → Prop) : Prop :=
  Move L t s h s' es ∧ loc ⟨(), s', h ++ es⟩

theorem Moves.stay {loc : W → Prop} (hloc : loc ⟨(), s, h⟩) : Moves L t s h s [] loc :=
  ⟨.stay, by rwa [List.append_nil]⟩

/-- The index of a cell is one it has come to. -/
theorem seen_self (s : Segment) (h : List SegmentEvent) (k : Nat) :
    Seen L ⟨(), s, h⟩ k (s.cell L k).idx := by
  simp only [Seen, Cell.rank, Option.isSome_none, Bool.toNat_false]
  omega

theorem enq_moves (hw : Tickets s.base h) {l : Enq} (hl : EnqLoc L ⟨(), s, h⟩ l)
    (now item : Nat) :
    Moves L t s h (enqueueStep L t now item s l).1 (enqueueStep L t now item s l).2.2 fun w =>
      (enqueueStep L t now item s l).2.1.elim (EnqLoc L w) fun _ => True := by
  cases l with
  | fetchAdd c =>
      cases hflag : s.base.tail.flag with
      | true =>
          simp only [enqueueStep, hflag, if_true]
          exact ⟨.counters s.base.drawTail [] (by simp), trivial⟩
      | false =>
          simp only [enqueueStep, hflag]
          exact ⟨.counters s.base.drawTail _ (by simp [Quiet]), trivial⟩
  | loadIdx c k => exact .stay (seen_self s h k)
  | loadVal c k idx =>
      by_cases hval : (s.cell L k).val = none ∧ idx.index ≤ k
      · by_cases hflag : idx.flag = true
        · simp only [enqueueStep, hval, hflag, and_self, if_true]
          exact .stay ⟨hl, hval.2⟩
        · simp only [enqueueStep, hval, hflag, and_self, if_true]
          exact .stay ⟨hl, hval.2, fun hf => absurd hf hflag⟩
      · simp only [enqueueStep, if_neg hval]
        exact .stay trivial
  | checkHead c k idx =>
      obtain ⟨hseen, hle⟩ := hl
      by_cases hhead : s.base.head < k
      · simp only [enqueueStep, hhead, if_true]
        -- No dequeue has drawn a ticket from this one on.
        refine .stay ⟨hseen, hle, fun _ _ j hj _ hleft => ?_⟩
        obtain ⟨u, hu⟩ := hw.owner hleft
        have hlt : j < s.base.head := hw.drawn hu
        omega
      · simp only [enqueueStep, hhead, if_false]
        exact .stay trivial
  | cas2 c k idx =>
      obtain ⟨hseen, hle, hchecked⟩ := hl
      rcases s.cas2_cases (L := L) k ⟨none, idx⟩ ⟨some item, ⟨false, k⟩⟩
        with ⟨hcell, hcas⟩ | ⟨-, hcas⟩
      · simp only [enqueueStep, hcas, if_true]
        exact ⟨.deposit k item idx hcell hle hchecked, trivial⟩
      · simp only [enqueueStep, hcas]
        exact .stay trivial
  | nowLin => exact .stay trivial
  | stampLin ts => exact ⟨.counters s.base _ (by simp [enqueueStep, Quiet]), trivial⟩
  | loadHead c k =>
      simp only [enqueueStep]
      split <;> exact .stay trivial
  | close c k =>
      simp only [enqueueStep]
      split <;> exact ⟨.counters _ [] (by simp), trivial⟩

theorem deqLoc_afterEmpty {w : W} {r : Nat} {tt : Word} (hle : idx.index ≤ k) :
    DeqLoc L w (afterEmpty k r tt idx) := by
  unfold afterEmpty
  split
  · exact hle
  · trivial

theorem deq_moves {l : Deq} (hl : DeqLoc L ⟨(), s, h⟩ l) (now : Nat) :
    Moves L t s h (dequeueStep L t now s l).1 (dequeueStep L t now s l).2.2 fun w =>
      (dequeueStep L t now s l).2.1.elim (DeqLoc L w) fun _ => True := by
  cases l with
  | fetchAdd => exact ⟨.counters s.base.drawHead _ (by simp [dequeueStep, Quiet]), trivial⟩
  | loadIdx k r tt => exact .stay (seen_self s h k)
  | loadVal k r tt idx =>
      by_cases hpast : idx.index > k
      · simp only [dequeueStep, hpast, if_true]
        exact ⟨.leave k (Nat.lt_of_lt_of_le hpast (Cell.index_le hl)), trivial⟩
      · have hle : idx.index ≤ k := Nat.not_lt.mp hpast
        simp only [dequeueStep, hpast, if_false]
        cases hval : (s.cell L k).val with
        | some a =>
            by_cases heq : idx.index = k
            · simp only [heq, if_true]
              exact .stay heq
            · simp only [heq, if_false]
              exact .stay (Nat.lt_of_le_of_ne hle heq)
        | none =>
            by_cases hr : r % 256 = 0
            · simp only [hr, if_true]
              exact .stay hle
            · simp only [hr, if_false]
              exact .stay (deqLoc_afterEmpty hle)
  | casTake k r tt idx a =>
      obtain rfl : idx.index = k := hl
      rcases s.cas2_cases (L := L) idx.index ⟨some a, idx⟩ ⟨none, ⟨idx.flag, idx.index + L.size⟩⟩
        with ⟨hcell, hcas⟩ | ⟨-, hcas⟩
      · simp only [dequeueStep, hcas, if_true]
        exact ⟨.take idx.index a idx.flag hcell, trivial⟩
      · simp only [dequeueStep, hcas]
        exact .stay trivial
  | nowLin a => exact .stay trivial
  | stampLin a ts => exact ⟨.counters s.base _ (by simp [dequeueStep, Quiet]), trivial⟩
  | casUnsafe k r tt idx a =>
      rcases s.cas2_cases (L := L) k ⟨some a, idx⟩ ⟨some a, ⟨true, idx.index⟩⟩
        with ⟨hcell, hcas⟩ | ⟨-, hcas⟩
      · simp only [dequeueStep, hcas, if_true]
        exact ⟨.markUnsafe k a idx hcell hl, trivial⟩
      · simp only [dequeueStep, hcas]
        exact .stay trivial
  | loadTail k r idx => exact .stay (deqLoc_afterEmpty hl)
  | casIdx k r tt idx =>
      rcases s.cas2_cases (L := L) k ⟨none, idx⟩ ⟨none, ⟨idx.flag, k + L.size⟩⟩
        with ⟨hcell, hcas⟩ | ⟨-, hcas⟩
      · simp only [dequeueStep, hcas, if_true]
        exact ⟨.skip k idx hcell hl, trivial⟩
      · simp only [dequeueStep, hcas]
        exact .stay trivial
  | loadTailIndex k =>
      simp only [dequeueStep]
      split <;> exact .stay trivial
  | fixState f =>
      refine ⟨.counters _ [] (by simp), ?_⟩
      cases hnext : (s.base.fixStep f).2 <;> simp [dequeueStep, hnext, DeqLoc]

end Steps

/-! ### Runs of a segment -/

theorem stored_new (L : Layout) (start : Nat) : stored L (new L start) = [] := by
  refine List.filterMap_eq_nil_iff.mpr fun p hp => ?_
  obtain ⟨k, rfl⟩ := exists_ticket (List.mem_range.mp hp)
  obtain ⟨i, -, -, -, hcell⟩ := cell_new L start k
  exact congrArg (fun c : Cell => c.val) hcell

theorem glob_new (L : Layout) (start : Nat) : Glob L ⟨(), new L start, []⟩ where
  cells :=
    { residue := fun k => by
        obtain ⟨i, -, -, hres, hcell⟩ := cell_new L start k
        simpa only [hcell] using hres
      item := fun {k a} hv => by
        obtain ⟨i, -, -, -, hcell⟩ := cell_new L start k
        exact absurd hv (by simp [hcell])
      left := fun hl => absurd hl left_nil }
  taken hk := absurd hk List.not_mem_nil
  kept hd := absurd hd List.not_mem_nil
  account := by simp [stored_new]

/-- **What holds of the cells of a `CRQueue`.** -/
def cellInvariant (L : Layout) : CellInvariant (ring L) (fun _ _ => True) Unit where
  glob := Glob L
  enq w _ := EnqLoc L w
  deq w _ := DeqLoc L w
  rely _ := Rely L
  init start := ⟨(), glob_new L start⟩
  enq_start _ _ := trivial
  deq_start _ _ := trivial
  rely_self _ _ := ⟨fun _ => Nat.le_refl _, fun _ _ _ _ hl => hl⟩
  enq_stable hrely hl := hrely.enqLoc hl
  deq_stable hrely _ hl := hrely.deqLoc hl
  enq_step now item hw _ hglob hl := by
    obtain ⟨hmove, hloc⟩ := enq_moves hw hl now item
    exact ⟨(), hmove.glob hglob, hloc, fun _ _ => hmove.rely⟩
  deq_step now _ _ hglob hl _ := by
    obtain ⟨hmove, hloc⟩ := deq_moves hl now
    exact ⟨(), hmove.glob hglob, hloc, fun _ _ => hmove.rely⟩

theorem Reachable.holds {start : Nat} {c : Config Segment (SegmentLocal Enq Deq) SegmentEvent}
    (h : (segmentProgram (type L) start).Reachable c) :
    Tickets c.shared.base c.history ∧ Glob L ⟨(), c.shared, c.history⟩
      ∧ ∀ t, (ring L).Thread c.history t (c.locals t) := by
  obtain ⟨_, ⟨htickets, hglob⟩, hl⟩ := ((cellInvariant L).segmentInvariant start).holds
    (h.mono fun _ _ _ _ _ _ => trivial)
  exact ⟨htickets, hglob, fun t => (hl t).1⟩

end QueueFairness.CRQueue
