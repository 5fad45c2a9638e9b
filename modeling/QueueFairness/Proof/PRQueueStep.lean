import QueueFairness.Proof.PRQueueCells

/-!
# The steps of the portable ring segment

Every step of the code is one of the moves, by what its thread has seen before; a run is strict when
no dequeue takes an item that has come into the cell since it read the cell's index.
-/

namespace QueueFairness

namespace PRQueue

open Interleaving LinkedRingQueue

variable {L : Layout}

/-! ### Stages -/

def Enq.stage : Enq → EnqStage
  | .fetchAdd _ | .casNull _ _ | .loadHead _ _ | .close _ _ => .draws
  | .loadIdx _ k | .loadVal _ k _ | .checkHead _ k _ | .casBottom _ k _ | .casIdx _ k _
  | .casItem _ k => .holds k
  | .nowLin | .stampLin _ => .deposited

def Deq.stage : Deq → DeqStage
  | .fetchAdd => .draws
  | .loadIdx k _ _ | .loadVal k _ _ _ | .storeNull k _ | .reloadIdx k _ _ _ | .casUnsafe k _ _ _
  | .loadTail k _ _ _ | .casNull k _ _ _ _ | .casIdx k _ _ _ => .holds k
  | .nowLin a | .stampLin a _ => .took a
  | .loadTailIndex k => .left k
  | .fixState l => .fixes l

section Stages

variable {k r : Nat} {tt idx : Word} {bottom : Option Tid}

theorem stage_afterEmpty : (afterEmpty k r tt idx bottom).stage = .holds k := by
  unfold afterEmpty
  repeat' split
  all_goals rfl

theorem stage_onEmpty : (onEmpty k r tt idx bottom).stage = .holds k := by
  unfold onEmpty
  split
  · rfl
  · exact stage_afterEmpty

end Stages

theorem enqueueStep_stage (t : Tid) (now item : Nat) (s : Segment) (l : Enq) :
    EnqStep t item s.base l.stage (enqueueStep L t now item s l).1.base
      ((enqueueStep L t now item s l).2.1.map Enq.stage id)
      (enqueueStep L t now item s l).2.2 := by
  cases l with
  | fetchAdd c =>
      cases hflag : s.base.tail.flag with
      | true =>
          simp only [enqueueStep, hflag, if_true]
          exact .refuse hflag
      | false =>
          simp only [enqueueStep, hflag]
          exact .draw hflag
  | loadIdx c k => exact .stay (.holds k)
  | loadVal c k idx =>
      simp only [enqueueStep]
      repeat' split
      · exact .stay (.holds k)
      · exact .stay (.holds k)
      · exact .giveUp k
  | checkHead c k idx | casBottom c k idx | casIdx c k idx =>
      simp only [enqueueStep]
      split
      · exact .stay (.holds k)
      · exact .giveUp k
  | casNull c k | loadHead c k =>
      simp only [enqueueStep]
      split <;> exact .stay .draws
  | casItem c k =>
      simp only [enqueueStep]
      split
      · exact .deposit k
      · exact .giveUp k
  | nowLin => exact .stay .deposited
  | stampLin ts => exact .stamp ts
  | close c k =>
      simp only [enqueueStep]
      split
      · exact .close k _ ‹_›
      · exact .tryClose k _

theorem dequeueStep_stage (t : Tid) (now : Nat) (s : Segment) (l : Deq) :
    DeqStep t s.base l.stage (dequeueStep L t now s l).1.base
      ((dequeueStep L t now s l).2.1.map Deq.stage id) (dequeueStep L t now s l).2.2 := by
  cases l with
  | fetchAdd => exact .draw
  | loadIdx k r tt => exact .stay (.holds k)
  | loadVal k r tt idx =>
      have hagain : ∀ bottom, DeqStep t s.base (.holds k) s.base
          (Sum.map Deq.stage id (.inl (onEmpty k r tt idx bottom) : Deq ⊕ Option Nat)) [] :=
        fun bottom => by
          rw [Sum.map_inl, stage_onEmpty]
          exact .stay (.holds k)
      simp only [dequeueStep]
      split
      · exact .leave k
      · split
        · repeat' split
          all_goals exact .stay (.holds k)
        · exact hagain _
        · exact hagain none
  | storeNull k a => exact .take k a
  | nowLin a => exact .stay (.took a)
  | stampLin a ts => exact .stamp a ts
  | reloadIdx k r tt idx | casUnsafe k r tt idx | casIdx k r tt idx =>
      simp only [dequeueStep]
      split
      · exact .leave k
      · exact .stay (.holds k)
  | loadTail k r idx bottom =>
      simp only [dequeueStep, Sum.map_inl, stage_afterEmpty]
      exact .stay (.holds k)
  | casNull k r tt idx tid =>
      simp only [dequeueStep]
      split <;> exact .stay (.holds k)
  | loadTailIndex k =>
      simp only [dequeueStep]
      split
      · exact .empty k ‹_›
      · exact .retry k
  | fixState f =>
      simp only [dequeueStep]
      cases hnext : (s.base.fixStep f).2 with
      | none => exact .fixed f
      | some f' => exact .fix f f' hnext

/-- The tickets of a `PRQueue`. -/
def ring (L : Layout) : RingType (type L) where
  enqStage := Enq.stage
  deqStage := Deq.stage
  enqueue := rfl
  dequeue := rfl
  new _ := ⟨rfl, rfl⟩
  enqueueStep := enqueueStep_stage
  dequeueStep := dequeueStep_stage

/-! ### What an operation knows -/

/-- What an enqueue knows of the cell of its ticket. -/
def EnqLoc (L : Layout) (w : W) (t : Tid) : Enq → Prop
  | .fetchAdd _ | .loadIdx _ _ | .casNull _ _ | .loadHead _ _ | .close _ _ | .nowLin
  | .stampLin _ => True
  | .loadVal _ k idx => Seen L w k idx
  | .checkHead _ k idx => Empty L w k idx ∧ idx.index ≤ k
  | .casBottom _ k idx => Empty L w k idx ∧ idx.index ≤ k ∧ Checked L w k idx
  | .casIdx _ k idx => Empty L w k idx ∧ idx.index ≤ k ∧ Checked L w k idx
      ∧ ((w.shared.cell L k).val = .bottom t → ¬ Armed L w k)
  | .casItem _ k => (w.shared.cell L k).val = .bottom t →
      Armed L w k ∧ (w.shared.cell L k).idx.index = k + L.size

/-- What a dequeue knows of the cell of its ticket. -/
def DeqLoc (L : Layout) (strict : Prop) (w : W) : Deq → Prop
  | .fetchAdd | .loadIdx _ _ _ | .nowLin _ | .stampLin _ _ | .loadTailIndex _ | .fixState _ => True
  | .loadVal k _ _ idx => Seen L w k idx ∧ idx.index % L.size = k % L.size
  | .storeNull k a => k + L.size ≤ (w.shared.cell L k).idx.index
      ∧ (strict → (w.shared.cell L k).val = .item a
        ∧ (w.shared.cell L k).idx.index = k + L.size)
  | .reloadIdx k _ _ idx => Seen L w k idx ∧ idx.flag = true ∧ idx.index ≤ k
      ∧ w.ghost.seen k = some idx
  | .casUnsafe k _ _ idx => Seen L w k idx ∧ idx.flag = false ∧ idx.index ≤ k
  | .loadTail k _ idx bottom => Seen L w k idx ∧ idx.index ≤ k + L.size
      ∧ (bottom = none → Empty L w k idx)
  | .casNull k _ _ idx _ => Seen L w k idx ∧ idx.index ≤ k + L.size
  | .casIdx k _ _ idx => Empty L w k idx ∧ idx.index ≤ k + L.size

section Stable

variable {strict : Prop} {t : Tid} {w w' : W} {k : Nat} {idx : Word}

theorem Rely.seen_le (h : Rely L strict t w w') (hs : Seen L w k idx) : Seen L w' k idx :=
  Nat.le_trans hs (h.idx k)

/-- An index that has come back was there all along. -/
theorem Rely.idx_eq (h : Rely L strict t w w') (hs : Seen L w k idx)
    (heq : (w'.shared.cell L k).idx = idx) : (w.shared.cell L k).idx = idx :=
  Word.rank_inj (Nat.le_antisymm (heq ▸ h.idx k) hs)

theorem Rely.empty (h : Rely L strict t w w') (he : Empty L w k idx) : Empty L w' k idx := by
  refine ⟨h.seen_le he.seen, fun heq harmed => ?_⟩
  have hold := h.idx_eq he.seen heq
  exact he.unarmed hold (h.armed (heq.trans hold.symm) harmed)

theorem Rely.checked (h : Rely L strict t w w') (he : Empty L w k idx) (hle : idx.index ≤ k)
    (hc : Checked L w k idx) : Checked L w' k idx := by
  intro hflag j hj hjk hl heq
  have hold := h.idx_eq he.seen heq
  have hl' := h.left hold heq hflag hjk (Nat.le_trans hle hj) (he.unarmed hold) hl
  exact hc hflag j hj hjk hl' hold

theorem Rely.enqLoc {l : Enq} (h : Rely L strict t w w') (hl : EnqLoc L w t l) :
    EnqLoc L w' t l := by
  cases l with
  | fetchAdd | loadIdx | loadHead | close | nowLin | stampLin | casNull => trivial
  | loadVal => exact h.seen_le hl
  | checkHead => exact ⟨h.empty hl.1, hl.2⟩
  | casBottom =>
      obtain ⟨hempty, hle, hchecked⟩ := hl
      exact ⟨h.empty hempty, hle, h.checked hempty hle hchecked⟩
  | casIdx =>
      obtain ⟨hempty, hle, hchecked, hbottom⟩ := hl
      refine ⟨h.empty hempty, hle, h.checked hempty hle hchecked, fun hv => ?_⟩
      obtain ⟨hold, harmed, -⟩ := h.bottom hv
      exact fun ha => hbottom hold (harmed.mp ha)
  | casItem =>
      intro hv
      obtain ⟨hold, harmed, hidx⟩ := h.bottom hv
      obtain ⟨ha, hk⟩ := hl hold
      exact ⟨harmed.mpr ha, (hidx ha).trans hk⟩

theorem Rely.deqLoc {l : Deq} (h : Rely L strict t w w') (hown : l.stage.Stands w.history t)
    (hl : DeqLoc L strict w l) : DeqLoc L strict w' l := by
  cases l with
  | fetchAdd | loadIdx | nowLin | stampLin | loadTailIndex | fixState => trivial
  | loadVal | casUnsafe | casNull => exact ⟨h.seen_le hl.1, hl.2⟩
  | storeNull k a =>
      obtain ⟨hpast, hcurrent⟩ := hl
      refine ⟨Nat.le_trans hpast (Word.index_le (h.idx k)), fun hstrict => ?_⟩
      exact h.taking hstrict hown (hcurrent hstrict).1 (hcurrent hstrict).2
  | reloadIdx =>
      obtain ⟨hs, hflag, hle, hseen⟩ := hl
      exact ⟨h.seen_le hs, hflag, hle, (h.seen hown).trans hseen⟩
  | loadTail => exact ⟨h.seen_le hl.1, hl.2.1, fun hb => h.empty (hl.2.2 hb)⟩
  | casIdx => exact ⟨h.empty hl.1, hl.2⟩

end Stable

/-! ### Steps -/

/-- A dequeue that is about to take the item it finds: the cell's index is still that of its ticket.
The code compares a word it has loaded before the item. -/
def TakesCurrent (L : Layout) (s : Segment) : Deq → Prop
  | .loadVal k _ _ idx => idx.index = k + L.size → ∀ a, (s.cell L k).val = .item a →
      (s.cell L k).idx.index = k + L.size
  | _ => True

section Steps

variable {strict : Prop} {t : Tid} {x : Ghost} {s : Segment} {h : List SegmentEvent} {k : Nat}
  {idx : Word}

@[simp]
theorem Segment.cell_setVal_self (v : Val) : (s.setVal L k v).cell L k = ⟨v, (s.cell L k).idx⟩ := by
  simp [Segment.cell_setVal]

@[simp]
theorem Segment.cell_setIdx_self : (s.setIdx L k idx).cell L k = ⟨(s.cell L k).val, idx⟩ := by
  simp [Segment.cell_setIdx]

theorem Move.stay : Move L strict t x s h x s [] := .counters s.base [] (by simp)

/-- A cell without a claim is empty under the index it has. -/
theorem Glob.empty_of_null (hw : Glob L strict ⟨x, s, h⟩) (hs : Seen L ⟨x, s, h⟩ k idx)
    (hnull : (s.cell L k).val = .null) : Empty L ⟨x, s, h⟩ k idx :=
  ⟨hs, fun _ harmed => by
    obtain ⟨_, _, _, _, hval⟩ := hw.cells.armed harmed
    exact hval hnull⟩

/-- What a step of an operation has to achieve, for what its thread knows after it. -/
def Moves (L : Layout) (strict : Prop) (t : Tid) (x : Ghost) (s : Segment)
    (h : List SegmentEvent) (s' : Segment) (es : List SegmentEvent) (loc : W → Prop) : Prop :=
  ∃ x', Move L strict t x s h x' s' es ∧ loc ⟨x', s', h ++ es⟩

theorem Moves.stay {loc : W → Prop} (hloc : loc ⟨x, s, h⟩) : Moves L strict t x s h s [] loc :=
  ⟨x, .stay, by rwa [List.append_nil]⟩

theorem enq_moves (hw : Glob L strict ⟨x, s, h⟩) (htickets : Tickets s.base h) {l : Enq}
    (hdrawn : l.stage.Stands h t) (hl : EnqLoc L ⟨x, s, h⟩ t l) (now item : Nat) :
    Moves L strict t x s h (enqueueStep L t now item s l).1 (enqueueStep L t now item s l).2.2
      fun w => (enqueueStep L t now item s l).2.1.elim (EnqLoc L w t) fun _ => True := by
  cases l with
  | fetchAdd c =>
      by_cases hflag : s.base.tail.flag = true
      · simp only [enqueueStep, hflag, if_true]
        exact ⟨x, .counters s.base.drawTail [] (by simp), trivial⟩
      · simp only [enqueueStep, hflag]
        exact ⟨x, .counters s.base.drawTail _ (by simp [Quiet]), trivial⟩
  | loadIdx c k => exact .stay (Nat.le_refl _)
  | loadVal c k idx =>
      by_cases hval : (s.cell L k).val = .null ∧ idx.index ≤ k
      · have hempty := hw.empty_of_null hl hval.1
        by_cases hflag : idx.flag = true
        · simp only [enqueueStep, hval, hflag, and_self, if_true]
          exact .stay ⟨hempty, hval.2⟩
        · simp only [enqueueStep, hval, hflag, and_self, if_true]
          exact .stay ⟨hempty, hval.2, fun hf => absurd hf hflag⟩
      · simp only [enqueueStep, if_neg hval]
        exact .stay trivial
  | checkHead c k idx =>
      obtain ⟨hempty, hle⟩ := hl
      by_cases hhead : s.base.head ≤ k
      · simp only [enqueueStep, hhead, if_true]
        -- No dequeue has drawn a ticket from this one on.
        refine .stay ⟨hempty, hle, fun _ j hj _ hleft => ?_⟩
        obtain ⟨u, hu⟩ : ∃ u, .drawHead u j ∈ h := hleft.elim htickets.owner fun hseen =>
          hw.seen j fun hnone => Option.some_ne_none _ (hseen.symm.trans hnone)
        have hlt : j < s.base.head := htickets.drawn hu
        omega
      · simp only [enqueueStep, hhead, if_false]
        exact .stay trivial
  | casBottom c k idx =>
      obtain ⟨hempty, hle, hchecked⟩ := hl
      by_cases hnull : (s.cell L k).val = .null
      · simp only [enqueueStep, hnull, if_true]
        have hunarmed : ¬ Armed L ⟨x, s, h⟩ k :=
          (hw.empty_of_null (Nat.le_refl _) hnull).unarmed rfl
        refine ⟨x, .reserve k hnull, ⟨?_, fun _ => hunarmed⟩, hle, ?_, fun _ => hunarmed⟩
        · simpa [Seen] using hempty.seen
        · simpa [Checked] using hchecked
      · simp only [enqueueStep, hnull, if_false]
        exact .stay trivial
  | casIdx c k idx =>
      obtain ⟨hempty, hle, hchecked, -⟩ := hl
      by_cases hidx : (s.cell L k).idx = idx
      · simp only [enqueueStep, hidx, if_true]
        refine ⟨_, .advance k idx hidx hle (hempty.unarmed hidx) hchecked hdrawn, fun hv => ?_⟩
        have hv : (s.cell L k).val = .bottom t := by simpa using hv
        exact ⟨by simp [Armed, setArmed, hv], by simp⟩
      · simp only [enqueueStep, hidx, if_false]
        exact .stay trivial
  | casNull c k =>
      by_cases hv : (s.cell L k).val = .bottom t
      · simp only [enqueueStep, hv, if_true]
        exact ⟨_, .release k t hv, trivial⟩
      · simp only [enqueueStep, hv, if_false]
        exact .stay trivial
  | casItem c k =>
      by_cases hv : (s.cell L k).val = .bottom t
      · simp only [enqueueStep, hv, if_true]
        exact ⟨_, .deposit k item hv (hl hv).1, trivial⟩
      · simp only [enqueueStep, hv, if_false]
        exact .stay trivial
  | nowLin => exact .stay trivial
  | stampLin ts => exact ⟨x, .counters s.base _ (by simp [enqueueStep, Quiet]), trivial⟩
  | loadHead c k =>
      simp only [enqueueStep]
      split <;> exact .stay trivial
  | close c k =>
      simp only [enqueueStep]
      split <;> exact ⟨x, .counters _ [] (by simp), trivial⟩

theorem deqLoc_afterEmpty {w : W} {r : Nat} {tt : Word} {bottom : Option Tid}
    (hs : Seen L w k idx) (hle : idx.index ≤ k + L.size)
    (hempty : bottom = none → Empty L w k idx) :
    DeqLoc L strict w (afterEmpty k r tt idx bottom) := by
  unfold afterEmpty
  split
  · cases bottom with
    | none => exact ⟨hempty rfl, hle⟩
    | some tid => exact ⟨hs, hle⟩
  · trivial

theorem deqLoc_onEmpty {w : W} {r : Nat} {tt : Word} {bottom : Option Tid}
    (hs : Seen L w k idx) (hle : idx.index ≤ k + L.size)
    (hempty : bottom = none → Empty L w k idx) : DeqLoc L strict w (onEmpty k r tt idx bottom) := by
  unfold onEmpty
  split
  · exact ⟨hs, hle, hempty⟩
  · exact deqLoc_afterEmpty hs hle hempty

theorem deq_moves (hw : Glob L strict ⟨x, s, h⟩) {l : Deq} (hown : l.stage.Stands h t)
    (hl : DeqLoc L strict ⟨x, s, h⟩ l) (hok : strict → TakesCurrent L s l) (now : Nat) :
    Moves L strict t x s h (dequeueStep L t now s l).1 (dequeueStep L t now s l).2.2 fun w =>
      (dequeueStep L t now s l).2.1.elim (DeqLoc L strict w) fun _ => True := by
  cases l with
  | fetchAdd => exact ⟨x, .counters s.base.drawHead _ (by simp [dequeueStep, Quiet]), trivial⟩
  | loadIdx k r tt => exact .stay ⟨Nat.le_refl _, hw.cells.residue k⟩
  | loadVal k r tt idx =>
      obtain ⟨hs, hres⟩ := hl
      by_cases hpast : idx.index > k + L.size
      · simp only [dequeueStep, hpast, if_true]
        have hnow : k + L.size < (s.cell L k).idx.index :=
          Nat.lt_of_lt_of_le hpast (Word.index_le hs)
        exact ⟨x, .leave k (.inl hnow), trivial⟩
      · have hle : idx.index ≤ k + L.size := Nat.not_lt.mp hpast
        simp only [dequeueStep, hpast, if_false]
        cases hv : (s.cell L k).val with
        | item a =>
            by_cases hk : idx.index = k + L.size
            · simp only [hk, if_true]
              exact .stay ⟨hk ▸ Word.index_le hs, fun hstrict => ⟨hv, hok hstrict hk a hv⟩⟩
            · have hle' : idx.index ≤ k := le_of_residue hres (by omega)
              by_cases hflag : idx.flag = true
              · simp only [hk, hflag, if_true, if_false]
                exact ⟨_, .see k idx hown (hw.cells.item hv), hs, hflag, hle', by simp⟩
              · simp only [hk, hflag, if_false]
                exact .stay ⟨hs, by simpa using hflag, hle'⟩
        | bottom tid => exact .stay (deqLoc_onEmpty hs hle (by simp))
        | null => exact .stay (deqLoc_onEmpty hs hle fun _ => hw.empty_of_null hs hv)
  | storeNull k a => exact ⟨_, .take k a hown hl.1 hl.2, trivial⟩
  | nowLin a => exact .stay trivial
  | stampLin a ts => exact ⟨x, .counters s.base _ (by simp [dequeueStep, Quiet]), trivial⟩
  | reloadIdx k r tt idx =>
      obtain ⟨hs, hflag, hle, hseen⟩ := hl
      by_cases hidx : (s.cell L k).idx = idx
      · simp only [dequeueStep, hidx, if_true]
        exact ⟨x, .leave k (.inr ⟨hidx ▸ hflag, hidx ▸ hle, hidx ▸ hseen⟩), trivial⟩
      · simp only [dequeueStep, hidx, if_false]
        exact .stay trivial
  | casUnsafe k r tt idx =>
      obtain ⟨hs, hflag, hle⟩ := hl
      by_cases hidx : (s.cell L k).idx = idx
      · simp only [dequeueStep, hidx, if_true]
        refine ⟨x, .markUnsafe k idx.index (hidx.trans ?_) hle, trivial⟩
        rw [← hflag]
      · simp only [dequeueStep, hidx, if_false]
        exact .stay trivial
  | loadTail k r idx bottom =>
      obtain ⟨hs, hle, hempty⟩ := hl
      exact .stay (deqLoc_afterEmpty hs hle hempty)
  | casNull k r tt idx tid =>
      obtain ⟨hs, hle⟩ := hl
      by_cases hv : (s.cell L k).val = .bottom tid
      · simp only [dequeueStep, hv, if_true]
        refine ⟨_, .release k tid hv, ⟨?_, fun _ => by simp [Armed, setArmed]⟩, hle⟩
        simpa [Seen] using hs
      · simp only [dequeueStep, hv, if_false]
        exact .stay trivial
  | casIdx k r tt idx =>
      obtain ⟨hempty, hle⟩ := hl
      by_cases hidx : (s.cell L k).idx = idx
      · simp only [dequeueStep, hidx, if_true]
        exact ⟨x, .skip k idx hidx hle (hempty.unarmed hidx), trivial⟩
      · simp only [dequeueStep, hidx, if_false]
        exact .stay trivial
  | loadTailIndex k =>
      simp only [dequeueStep]
      split <;> exact .stay trivial
  | fixState f =>
      refine ⟨x, .counters _ [] (by simp), ?_⟩
      cases hnext : (s.base.fixStep f).2 <;> simp [dequeueStep, hnext, DeqLoc]

end Steps

/-! ### Runs of a segment -/

/-- Every dequeue that takes an item finds the cell's index still that of its ticket. -/
def TakesCurrently (L : Layout) (c : Config Segment (SegmentLocal Enq Deq) SegmentEvent) (t : Tid) :
    Prop :=
  ∀ l, c.locals t = .dequeue l → TakesCurrent L c.shared l

theorem stored_new (L : Layout) (start : Nat) : stored L (new L start) = [] := by
  refine List.filterMap_eq_nil_iff.mpr fun p hp => ?_
  obtain ⟨k, rfl⟩ := exists_ticket (List.mem_range.mp hp)
  obtain ⟨i, -, -, -, hcell⟩ := cell_new L start k
  exact congrArg (fun c : Cell => c.val.item?) hcell

theorem glob_new (L : Layout) (strict : Prop) (start : Nat) :
    Glob L strict ⟨⟨fun _ => false, fun _ => none⟩, new L start, []⟩ where
  cells :=
    { residue := fun k => by
        obtain ⟨i, -, -, hres, hcell⟩ := cell_new L start k
        simpa only [hcell] using hres
      armed := fun harmed => absurd harmed (by simp [Armed])
      item := fun {k a} hv => by
        obtain ⟨i, -, -, -, hcell⟩ := cell_new L start k
        exact absurd hv (by simp [hcell])
      left := fun hl => absurd hl left_nil }
  seen _ hk := absurd rfl hk
  account := fun _ => by simp [stored_new]

theorem Rely.refl (strict : Prop) (t : Tid) (w : W) : Rely L strict t w w where
  seen _ := rfl
  idx _ := Nat.le_refl _
  armed _ ha := ha
  bottom hv := ⟨hv, .rfl, fun _ => rfl⟩
  left _ _ _ _ _ _ hl := hl
  taking _ _ _ _ hv hidx := ⟨hv, hidx⟩

/-- **What holds of the cells of a `PRQueue`**, and in strict runs of its items. -/
def cellInvariant (L : Layout) (strict : Prop) :
    CellInvariant (ring L) (fun s l => strict → TakesCurrent L s l) Ghost where
  glob := Glob L strict
  enq := EnqLoc L
  deq w _ := DeqLoc L strict w
  rely := Rely L strict
  init start := ⟨_, glob_new L strict start⟩
  enq_start _ _ := trivial
  deq_start _ _ := trivial
  rely_self := Rely.refl strict
  enq_stable hrely hl := hrely.enqLoc hl
  deq_stable hrely hown hl := hrely.deqLoc hown hl
  enq_step now item htickets hdrawn hglob hl := by
    obtain ⟨x', hmove, hloc⟩ := enq_moves hglob htickets hdrawn hl now item
    exact ⟨x', hmove.glob hglob, hloc, fun _ => hmove.rely htickets hglob.cells⟩
  deq_step now htickets hown hglob hl hok := by
    obtain ⟨x', hmove, hloc⟩ := deq_moves hglob hown hl hok now
    exact ⟨x', hmove.glob hglob, hloc, fun _ => hmove.rely htickets hglob.cells⟩

/-- Runs of a segment; in a strict one, dequeues take the items of their tickets only. -/
abbrev Runs (L : Layout) (strict : Prop) (start : Nat) :
    Config Segment (SegmentLocal Enq Deq) SegmentEvent → Prop :=
  (segmentProgram (type L) start).Reach fun c t _ => strict → TakesCurrently L c t

theorem Runs.holds {strict : Prop} {start : Nat}
    {c : Config Segment (SegmentLocal Enq Deq) SegmentEvent} (h : Runs L strict start c) :
    ∃ x, (Tickets c.shared.base c.history ∧ Glob L strict ⟨x, c.shared, c.history⟩)
      ∧ ∀ t, (ring L).Thread c.history t (c.locals t)
        ∧ (cellInvariant L strict).Loc ⟨x, c.shared, c.history⟩ t (c.locals t) :=
  ((cellInvariant L strict).segmentInvariant start).holds
    (h.mono fun _ _ _ hok l hl hstrict => hok hstrict l hl)

theorem Runs.of_reachable {start : Nat}
    {c : Config Segment (SegmentLocal Enq Deq) SegmentEvent}
    (h : (segmentProgram (type L) start).Reachable c) : Runs L False start c :=
  h.mono fun _ _ _ _ hfalse => hfalse.elim

/-! ### Deposits -/

theorem enq_deposit {t u : Tid} {now item a k : Nat} {s : Segment} {l : Enq}
    (hd : .deposit u a k ∈ (enqueueStep L t now item s l).2.2) :
    u = t ∧ (s.cell L k).val = .bottom t ∧ ∃ c, l = .casItem c k := by
  cases l with
  | casItem c j =>
      by_cases hv : (s.cell L j).val = .bottom t
      · simp only [enqueueStep, hv, if_true, List.mem_singleton] at hd
        cases hd
        exact ⟨rfl, hv, c, rfl⟩
      · simp [enqueueStep, hv] at hd
  | _ =>
      simp only [enqueueStep] at hd
      repeat' split at hd
      all_goals simp at hd

theorem deq_deposit {t u : Tid} {now a k : Nat} {s : Segment} {l : Deq} :
    .deposit u a k ∉ (dequeueStep L t now s l).2.2 := by
  cases l <;> simp only [dequeueStep]
  all_goals repeat' split
  all_goals simp

/-- **No item is deposited behind its dequeuer**: the enqueue that drew a ticket of the tail puts
its item in the cell only while the dequeue of that ticket, if there is one, is not done with the
cell. -/
theorem deposit_in_time {L : Layout} {start : Nat}
    {c : Config Segment (SegmentLocal Enq Deq) SegmentEvent}
    (h : (segmentProgram (type L) start).Reachable c) {before after : List SegmentEvent} {t : Tid}
    {a k : Nat} (heq : c.history = before ++ .deposit t a k :: after) :
    .drawTail t k ∈ before ∧ (∀ u, .leave u k ∉ before) ∧ ∀ u b, .take u b k ∉ before := by
  obtain ⟨d, u, i, s, l, es, fs, hreach, -, hstep, rfl⟩ := h.emitted heq
  obtain ⟨x, ⟨-, hw⟩, hl⟩ := (Runs.of_reachable hreach).holds
  obtain ⟨⟨hstands, -⟩, hloc⟩ := hl u
  rcases hlocal : d.locals u with _ | ⟨item, le⟩ | ld
  all_goals rw [hlocal] at hstep hstands hloc
  · obtain ⟨op, -, hop⟩ := Option.map_eq_some_iff.mp hstep
    cases op <;> simp at hop
  · have hes : (enqueueStep L u i.ts item d.shared le).2.2 = es ++ .deposit t a k :: fs :=
      congrArg (·.2.2) (Option.some.inj hstep)
    obtain ⟨rfl, hv, n, rfl⟩ := enq_deposit (hes ▸ List.mem_append_right _ List.mem_cons_self)
    have hdrawn : .drawTail t k ∈ d.history := hstands
    have hclaim : EnqLoc L ⟨x, d.shared, d.history⟩ t (.casItem n k) := hloc
    obtain ⟨harmed, hidx⟩ := hclaim hv
    obtain ⟨j, hj, hleft, -, -⟩ := hw.cells.armed harmed
    obtain rfl : j = k := Nat.add_right_cancel (hj.symm.trans hidx)
    obtain ⟨rfl, -⟩ : es = [] ∧ a = item ∧ fs = [] := by
      simpa [enqueueStep, hv, List.append_eq_singleton_iff] using hes.symm
    rw [List.append_nil]
    exact ⟨hdrawn, fun v hv => hleft ⟨v, .inl hv⟩, fun v b hv => hleft ⟨v, .inr ⟨b, hv⟩⟩⟩
  · have hes : (dequeueStep L u i.ts d.shared ld).2.2 = es ++ .deposit t a k :: fs :=
      congrArg (·.2.2) (Option.some.inj hstep)
    exact absurd (hes ▸ List.mem_append_right _ List.mem_cons_self) deq_deposit

/-- Thread 1 draws head ticket 0, gives it up and raises the tail to 1; thread 0 enqueues 7. -/
def leftBehindSchedule : List (Tid × SegmentInput) :=
  List.replicate 11 (1, { op := some none }) ++ List.replicate 9 (0, { op := some (some 7) })

theorem deposit_in_time_leftBehind :
    ∃ c before after, (segmentProgram (type (.identity 1 (by decide))) 0).Reachable c
      ∧ c.history = before ++ .deposit 0 7 1 :: after ∧ .leave 1 0 ∈ before
      ∧ .drawTail 0 1 ∈ before ∧ (∀ u, .leave u 1 ∉ before) ∧ ∀ u b, .take u b 1 ∉ before := by
  have hrun : ((segmentProgram (type (.identity 1 (by decide))) 0).exec
      (segmentProgram (type (.identity 1 (by decide))) 0).init leftBehindSchedule).map
      Config.history = some ([.drawHead 1 0, .leave 1 0, .drawTail 0 1]
        ++ .deposit 0 7 1 :: [.stampEnq 0 7 0]) := by
    decide +kernel
  obtain ⟨c, hexec, heq⟩ := Option.map_eq_some_iff.mp hrun
  have hreach : (segmentProgram (type (.identity 1 (by decide))) 0).Reachable c :=
    .exec (fun _ _ _ => trivial) .init hexec
  exact ⟨c, _, _, hreach, heq, by decide, deposit_in_time hreach heq⟩

end PRQueue

end QueueFairness
