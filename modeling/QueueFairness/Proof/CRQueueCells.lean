import QueueFairness.CRQueue
import QueueFairness.Proof.PRQueueCells

/-!
# The cells of the ring segment with double-word cells

What a step can do to a segment, and what every such move preserves: no state of a cell ever comes
back, an item in a cell waits for the dequeue of its own ticket, and a dequeue that gives its ticket
up leaves the cell where the enqueue of that ticket finds no way in.
-/

namespace QueueFairness.CRQueue

open Interleaving LinkedRingQueue
open PRQueue (place place_lt place_eq_iff foldl_place filterMap_update)

variable {L : Layout}

/-- What a cell goes through: the item comes in under an index, then the cell may become unsafe. -/
def Cell.rank (c : Cell) : Nat := 4 * c.idx.index + 2 * c.val.isSome.toNat + c.idx.flag.toNat

theorem Cell.rank_empty_inj {c : Cell} {idx : Word} (h : c.rank = (⟨none, idx⟩ : Cell).rank) :
    c = ⟨none, idx⟩ := by
  obtain ⟨v, f, i⟩ := c
  obtain ⟨f', j⟩ := idx
  unfold rank at h
  cases v <;> cases f <;> cases f' <;> simp at h ⊢ <;> omega

theorem Cell.index_le {c c' : Cell} (h : c.rank ≤ c'.rank) : c.idx.index ≤ c'.idx.index := by
  have hv := Bool.toNat_le c.val.isSome
  have hf := Bool.toNat_le c.idx.flag
  have hv' := Bool.toNat_le c'.val.isSome
  have hf' := Bool.toNat_le c'.idx.flag
  unfold rank at h
  omega

theorem Cell.rank_le_of_index_lt {c c' : Cell} (h : c.idx.index < c'.idx.index) :
    c.rank ≤ c'.rank := by
  have hv := Bool.toNat_le c.val.isSome
  have hf := Bool.toNat_le c.idx.flag
  unfold rank
  omega

namespace Segment

variable (s : Segment) (k : Nat)

@[simp] theorem setCell_base (c : Cell) : (s.setCell L k c).base = s.base := rfl

theorem cell_congr {j k : Nat} (h : j % L.size = k % L.size) : s.cell L j = s.cell L k := by
  rw [cell, cell, place_eq_iff.mpr h]

theorem cell_setCell (c : Cell) (j : Nat) :
    (s.setCell L k c).cell L j = if j % L.size = k % L.size then c else s.cell L j := by
  by_cases h : j % L.size = k % L.size
  · simp [cell, setCell, place_eq_iff.mpr h, h]
  · have hne : place L j ≠ place L k := fun heq => h (place_eq_iff.mp heq)
    rw [if_neg h]
    exact Function.update_of_ne hne ..

/-- `CAS2` replaces the cell, or finds another in its place. -/
theorem cas2_cases (old new : Cell) :
    s.cell L k = old ∧ s.cas2 L k old new = (s.setCell L k new, true)
      ∨ s.cell L k ≠ old ∧ s.cas2 L k old new = (s, false) := by
  unfold cas2
  split
  · exact .inl ⟨‹_›, rfl⟩
  · exact .inr ⟨‹_›, rfl⟩

end Segment

/-- Every cell of a new segment is empty and waits for the first ticket that names it. -/
theorem cell_new (L : Layout) (start k : Nat) : ∃ i, start ≤ i ∧ i < start + L.size
    ∧ i % L.size = k % L.size ∧ (new L start).cell L k = ⟨none, ⟨false, i⟩⟩ :=
  foldl_place L start k (fun i => (⟨none, ⟨false, i⟩⟩ : Cell)) _

/-- The items in the cells. -/
def stored (L : Layout) (s : Segment) : List Nat :=
  (List.range L.size).filterMap fun p => (s.array p).val

theorem stored_setCell (s : Segment) (k : Nat) (c : Cell) :
    (stored L (s.setCell L k c) ++ (s.cell L k).val.toList).Perm (stored L s ++ c.val.toList) :=
  filterMap_update (fun c : Cell => c.val) s.array (place_lt k) _

/-! ### What is known of a segment -/

abbrev W := World Unit Segment SegmentEvent

structure Cells (L : Layout) (w : W) : Prop where
  residue : ∀ k, (w.shared.cell L k).idx.index % L.size = k % L.size
  item : ∀ {k a}, (w.shared.cell L k).val = some a →
    (∃ t, .deposit t a (w.shared.cell L k).idx.index ∈ w.history)
      ∧ ¬ Left w.history (w.shared.cell L k).idx.index
  left : ∀ {k}, Left w.history k →
    k < (w.shared.cell L k).idx.index ∨ (w.shared.cell L k).idx.flag = true

/-- What was put in a cell is still there, or was taken. -/
def Kept (L : Layout) (w : W) : Prop :=
  ∀ {t a k}, .deposit t a k ∈ w.history → (∃ u, .take u a k ∈ w.history)
    ∨ (w.shared.cell L k).val = some a ∧ (w.shared.cell L k).idx.index = k

structure Glob (L : Layout) (w : W) : Prop where
  cells : Cells L w
  taken : ∀ {t a k}, .take t a k ∈ w.history → ∃ u, .deposit u a k ∈ w.history
  kept : Kept L w
  account : ((w.history.filterMap depositOf).map Prod.snd).Perm
    ((w.history.filterMap takeOf).map Prod.snd ++ stored L w.shared)

/-- The cell has come to this index, empty at first. -/
def Seen (L : Layout) (w : W) (k : Nat) (idx : Word) : Prop :=
  (⟨none, idx⟩ : Cell).rank ≤ (w.shared.cell L k).rank

/-- As long as the cell is empty and unsafe under the index that was seen, no dequeue of this or a
later round is done with it. -/
def Checked (L : Layout) (w : W) (k : Nat) (idx : Word) : Prop :=
  idx.flag = true → w.shared.cell L k = ⟨none, idx⟩ →
    ∀ j, k ≤ j → j % L.size = k % L.size → ¬ Left w.history j

/-- What every thread relies on. -/
structure Rely (L : Layout) (w w' : W) : Prop where
  rank : ∀ k, (w.shared.cell L k).rank ≤ (w'.shared.cell L k).rank
  left : ∀ {j k idx}, w.shared.cell L k = ⟨none, idx⟩ → w'.shared.cell L k = ⟨none, idx⟩ →
    j % L.size = k % L.size → idx.index ≤ j → Left w'.history j → Left w.history j

/-! ### The moves -/

/-- What a step of thread `t` can do to the cells, and under which conditions it does. -/
inductive Move (L : Layout) (t : Tid) (s : Segment) (h : List SegmentEvent) :
    Segment → List SegmentEvent → Prop
  | counters (b : SegmentBase) (es : List SegmentEvent) (hes : ∀ e ∈ es, Quiet e) :
      Move L t s h { s with base := b } es
  | leave (k : Nat) (hpast : k < (s.cell L k).idx.index) : Move L t s h s [.leave t k]
  | deposit (k a : Nat) (idx : Word) (hcell : s.cell L k = ⟨none, idx⟩) (hle : idx.index ≤ k)
      (hchecked : Checked L ⟨(), s, h⟩ k idx) :
      Move L t s h (s.setCell L k ⟨some a, ⟨false, k⟩⟩) [.deposit t a k]
  | take (k a : Nat) (f : Bool) (hcell : s.cell L k = ⟨some a, ⟨f, k⟩⟩) :
      Move L t s h (s.setCell L k ⟨none, ⟨f, k + L.size⟩⟩) [.take t a k]
  | markUnsafe (k a : Nat) (idx : Word) (hcell : s.cell L k = ⟨some a, idx⟩)
      (hlt : idx.index < k) :
      Move L t s h (s.setCell L k ⟨some a, ⟨true, idx.index⟩⟩) [.leave t k]
  | skip (k : Nat) (idx : Word) (hcell : s.cell L k = ⟨none, idx⟩) (hle : idx.index ≤ k) :
      Move L t s h (s.setCell L k ⟨none, ⟨idx.flag, k + L.size⟩⟩) [.leave t k]

section Moves

variable {t u : Tid} {s s' : Segment} {h es : List SegmentEvent} {k : Nat}

/-- A move that leaves the cells alone. -/
theorem Cells.keep (hw : Cells L ⟨(), s, h⟩) (hcell : ∀ j, s'.cell L j = s.cell L j)
    (hleft : ∀ k, Left es k → k < (s.cell L k).idx.index) : Cells L ⟨(), s', h ++ es⟩ := by
  refine ⟨fun j => ?_, fun {j a} hj => ?_, fun {j} hj => ?_⟩
  · simpa only [hcell] using hw.residue j
  · simp only [hcell] at hj ⊢
    obtain ⟨⟨t, ht⟩, hnot⟩ := hw.item hj
    refine ⟨⟨t, List.mem_append_left _ ht⟩, fun hl => ?_⟩
    rcases left_append.mp hl with hl | hl
    · exact hnot hl
    · have hlt := hleft _ hl
      rw [s.cell_congr (hw.residue j)] at hlt
      exact Nat.lt_irrefl _ hlt
  · simp only [hcell]
    rcases left_append.mp hj with hl | hl
    · exact hw.left hl
    · exact .inl (hleft j hl)

/-- A move that writes one cell. -/
theorem Cells.write (hw : Cells L ⟨(), s, h⟩) {c : Cell} (hes : ∀ j, Left es j → j = k)
    (hres : c.idx.index % L.size = k % L.size)
    (hitem : ∀ a, c.val = some a →
      (∃ t, .deposit t a c.idx.index ∈ h ++ es) ∧ ¬ Left (h ++ es) c.idx.index)
    (hleft : ∀ j, j % L.size = k % L.size → Left (h ++ es) j →
      j < c.idx.index ∨ c.idx.flag = true) :
    Cells L ⟨(), s.setCell L k c, h ++ es⟩ := by
  refine ⟨fun j => ?_, fun {j a} hj => ?_, fun {j} hj => ?_⟩
  · simp only [Segment.cell_setCell]
    split <;> rename_i hjk
    · rw [hres, hjk]
    · exact hw.residue j
  · simp only [Segment.cell_setCell] at hj ⊢
    split at hj <;> rename_i hjk
    · rw [if_pos hjk]
      exact hitem a hj
    · rw [if_neg hjk]
      obtain ⟨⟨t, ht⟩, hnot⟩ := hw.item hj
      refine ⟨⟨t, List.mem_append_left _ ht⟩, fun hl => ?_⟩
      rcases left_append.mp hl with hl | hl
      · exact hnot hl
      · have hk := hes _ hl
        exact hjk (by rw [← hw.residue j, ← hk])
  · simp only [Segment.cell_setCell]
    split <;> rename_i hjk
    · exact hleft j hjk hj
    · rcases left_append.mp hj with hl | hl
      · exact hw.left hl
      · exact absurd (hes j hl ▸ rfl) hjk

/-- Where a deposit is made, the dequeues that are done had earlier tickets. -/
theorem Cells.left_lt (hw : Cells L ⟨(), s, h⟩) {idx : Word} (hcell : s.cell L k = ⟨none, idx⟩)
    (hle : idx.index ≤ k) (hchecked : Checked L ⟨(), s, h⟩ k idx) {j : Nat}
    (hjk : j % L.size = k % L.size) (hl : Left h j) : j < k := by
  have hj := hw.left hl
  simp only [s.cell_congr hjk, hcell] at hj
  rcases hj with hlt | hflag
  · omega
  · by_contra hge
    exact hchecked hflag hcell j (Nat.not_lt.mp hge) hjk hl

theorem Move.cells (hw : Cells L ⟨(), s, h⟩) (hmove : Move L t s h s' es) :
    Cells L ⟨(), s', h ++ es⟩ := by
  have hsize := L.size_pos
  cases hmove with
  | counters b es hes => exact hw.keep (fun _ => rfl) fun k hk => absurd hk (left_quiet hes)
  | leave k hpast =>
      refine hw.keep (fun _ => rfl) fun j hj => ?_
      obtain rfl := left_leave.mp hj
      exact hpast
  | deposit k a idx hcell hle hchecked =>
      have hpast : ∀ j, j % L.size = k % L.size → Left (h ++ [.deposit t a k]) j → j < k :=
        fun j hjk hl => hw.left_lt hcell hle hchecked hjk (by simpa [left_append] using hl)
      refine hw.write (by simp) rfl (fun b hb => ?_) fun j hjk hl => .inl (hpast j hjk hl)
      obtain rfl : a = b := Option.some.inj hb
      exact ⟨⟨t, by simp⟩, fun hl => Nat.lt_irrefl _ (hpast k rfl hl)⟩
  | take k a f hcell =>
      refine hw.write (fun j hj => left_take.mp hj) (by simp) (fun b hb => by cases hb)
        fun j hjk hl => ?_
      rcases left_append.mp hl with hl | hl
      · have hj := hw.left hl
        simp only [s.cell_congr hjk, hcell] at hj
        exact hj.imp_left fun hlt => Nat.lt_of_lt_of_le hlt (Nat.le_add_right ..)
      · obtain rfl := left_take.mp hl
        exact .inl (by simp only; omega)
  | markUnsafe k a idx hcell hlt =>
      have hres := hw.residue k
      simp only [hcell] at hres
      refine hw.write (fun j hj => left_leave.mp hj) hres (fun b hb => ?_) fun _ _ _ => .inr rfl
      obtain rfl : a = b := Option.some.inj hb
      have hitem := hw.item (k := k) (a := a) (by simp only [hcell])
      simp only [hcell] at hitem
      obtain ⟨⟨u, hu⟩, hnot⟩ := hitem
      refine ⟨⟨u, List.mem_append_left _ hu⟩, fun hl => ?_⟩
      rcases left_append.mp hl with hl | hl
      · exact hnot hl
      · exact absurd (left_leave.mp hl) (Nat.ne_of_lt hlt)
  | skip k idx hcell hle =>
      refine hw.write (fun j hj => left_leave.mp hj) (by simp) (fun b hb => by cases hb)
        fun j hjk hl => ?_
      rcases left_append.mp hl with hl | hl
      · have hj := hw.left hl
        simp only [s.cell_congr hjk, hcell] at hj
        exact hj.imp_left fun hlt => Nat.lt_of_lt_of_le hlt (Nat.le_add_right_of_le hle)
      · obtain rfl := left_leave.mp hl
        exact .inl (by simp only; omega)

theorem Move.taken (hcells : Cells L ⟨(), s, h⟩)
    (hw : ∀ {t a k}, .take t a k ∈ h → ∃ u, .deposit u a k ∈ h) (hmove : Move L t s h s' es)
    {a : Nat} (ht : .take u a k ∈ h ++ es) : ∃ v, .deposit v a k ∈ h ++ es := by
  rcases List.mem_append.mp ht with hold | hnew
  · obtain ⟨v, hv⟩ := hw hold
    exact ⟨v, List.mem_append_left _ hv⟩
  cases hmove with
  | counters b es hes => exact absurd (hes _ hnew) id
  | take j b f hcell =>
      obtain ⟨-, rfl, rfl⟩ : u = t ∧ a = b ∧ k = j := by simpa using hnew
      have hitem := hcells.item (k := k) (a := a) (by simp only [hcell])
      simp only [hcell] at hitem
      obtain ⟨v, hv⟩ := hitem.1
      exact ⟨v, List.mem_append_left _ hv⟩
  | _ => simp at hnew

/-- A move that puts no item in a cell. -/
theorem Kept.keep (hw : Kept L ⟨(), s, h⟩) (hes : ∀ t a k, .deposit t a k ∉ es)
    (hcell : ∀ a j, (s.cell L j).val = some a → (s.cell L j).idx.index = j →
      (∃ u, .take u a j ∈ es) ∨ (s'.cell L j).val = some a ∧ (s'.cell L j).idx.index = j) :
    Kept L ⟨(), s', h ++ es⟩ := by
  intro t a k hd
  rcases hw ((List.mem_append.mp hd).resolve_right (hes t a k)) with ⟨u, hu⟩ | ⟨hval, hidx⟩
  · exact .inl ⟨u, List.mem_append_left _ hu⟩
  · exact (hcell a k hval hidx).imp_left fun ⟨u, hu⟩ => ⟨u, List.mem_append_right _ hu⟩

theorem Move.kept (hw : Kept L ⟨(), s, h⟩) (hmove : Move L t s h s' es) :
    Kept L ⟨(), s', h ++ es⟩ := by
  cases hmove with
  | counters b es hes =>
      exact hw.keep (fun _ _ _ hd => hes _ hd) fun _ _ hval hidx => .inr ⟨hval, hidx⟩
  | leave =>
      exact hw.keep (by simp) fun _ _ hval hidx => .inr ⟨hval, hidx⟩
  | deposit k a idx hcell hle hchecked =>
      intro u b j hd
      rcases List.mem_append.mp hd with hd | hd
      · rcases hw hd with ⟨v, hv⟩ | ⟨hval, hidx⟩
        · exact .inl ⟨v, List.mem_append_left _ hv⟩
        · refine .inr ?_
          have hne : ¬ j % L.size = k % L.size := fun hjk => by
            simp [s.cell_congr hjk, hcell] at hval
          simpa only [Segment.cell_setCell, if_neg hne] using ⟨hval, hidx⟩
      · obtain ⟨-, rfl, rfl⟩ : u = t ∧ b = a ∧ j = k := by simpa using hd
        exact .inr (by simp [Segment.cell_setCell])
  | take k a f hcell =>
      refine hw.keep (by simp) fun b j hval hidx => ?_
      by_cases hjk : j % L.size = k % L.size
      · simp only [s.cell_congr hjk, hcell] at hval hidx
        obtain rfl := Option.some.inj hval
        exact .inl ⟨t, by simp [hidx]⟩
      · exact .inr (by simpa only [Segment.cell_setCell, if_neg hjk] using ⟨hval, hidx⟩)
  | markUnsafe k a idx hcell hlt =>
      refine hw.keep (by simp) fun b j hval hidx => .inr ?_
      by_cases hjk : j % L.size = k % L.size
      · simp only [s.cell_congr hjk, hcell] at hval hidx
        simpa only [Segment.cell_setCell, if_pos hjk] using ⟨hval, hidx⟩
      · simpa only [Segment.cell_setCell, if_neg hjk] using ⟨hval, hidx⟩
  | skip k idx hcell hle =>
      refine hw.keep (by simp) fun b j hval hidx => .inr ?_
      have hne : ¬ j % L.size = k % L.size := fun hjk => by
        simp [s.cell_congr hjk, hcell] at hval
      simpa only [Segment.cell_setCell, if_neg hne] using ⟨hval, hidx⟩

/-- **Items are where they were put until they are taken.** -/
theorem Move.account (hw : ((h.filterMap depositOf).map Prod.snd).Perm
      ((h.filterMap takeOf).map Prod.snd ++ stored L s)) (hmove : Move L t s h s' es) :
    (((h ++ es).filterMap depositOf).map Prod.snd).Perm
      (((h ++ es).filterMap takeOf).map Prod.snd ++ stored L s') := by
  have hsame : es.filterMap depositOf = [] → es.filterMap takeOf = [] →
      (stored L s').Perm (stored L s) →
      (((h ++ es).filterMap depositOf).map Prod.snd).Perm
        (((h ++ es).filterMap takeOf).map Prod.snd ++ stored L s') := by
    intro hdeposit htake hstored
    rw [List.filterMap_append, List.filterMap_append, hdeposit, htake, List.append_nil,
      List.append_nil]
    exact hw.trans (hstored.symm.append_left _)
  cases hmove with
  | counters b es hes =>
      refine hsame (List.filterMap_eq_nil_iff.mpr fun e he => ?_)
        (List.filterMap_eq_nil_iff.mpr fun e he => ?_) (.refl _) <;>
      · have := hes e he
        cases e <;> first | rfl | exact absurd this id
  | leave => exact hsame rfl rfl (.refl _)
  | markUnsafe k a idx hcell hlt =>
      have hstored := stored_setCell (L := L) s k ⟨some a, ⟨true, idx.index⟩⟩
      rw [hcell] at hstored
      exact hsame rfl rfl ((List.perm_append_right_iff _).mp hstored)
  | skip k idx hcell hle =>
      have hstored := stored_setCell (L := L) s k ⟨none, ⟨idx.flag, k + L.size⟩⟩
      rw [hcell] at hstored
      exact hsame rfl rfl ((List.perm_append_right_iff _).mp hstored)
  | deposit k a idx hcell hle hchecked =>
      have hstored : (stored L (s.setCell L k ⟨some a, ⟨false, k⟩⟩)).Perm (stored L s ++ [a]) := by
        simpa [hcell] using stored_setCell (L := L) s k ⟨some a, ⟨false, k⟩⟩
      have htake : [SegmentEvent.deposit t a k].filterMap takeOf = [] := rfl
      have hperm := (hw.append_right [a]).trans (.of_eq (List.append_assoc ..))
      simpa [depositOf, htake] using hperm.trans (hstored.symm.append_left _)
  | take k a f hcell =>
      have hstored :
          (stored L (s.setCell L k ⟨none, ⟨f, k + L.size⟩⟩) ++ [a]).Perm (stored L s) := by
        simpa [hcell] using stored_setCell (L := L) s k ⟨none, ⟨f, k + L.size⟩⟩
      have hdeposit : [SegmentEvent.take t a k].filterMap depositOf = [] := rfl
      have hperm := hw.trans ((List.perm_append_comm.trans hstored).symm.append_left _)
      simpa [takeOf, hdeposit] using hperm

theorem Move.glob (hw : Glob L ⟨(), s, h⟩) (hmove : Move L t s h s' es) :
    Glob L ⟨(), s', h ++ es⟩ :=
  ⟨hmove.cells hw.cells, fun ht => hmove.taken hw.cells hw.taken ht, hmove.kept hw.kept,
    hmove.account hw.account⟩

/-- No state of a cell comes back. -/
theorem Move.rank (hmove : Move L t s h s' es) (j : Nat) :
    (s.cell L j).rank ≤ (s'.cell L j).rank := by
  have hsize := L.size_pos
  have hset : ∀ {k : Nat} {c : Cell}, (s.cell L k).rank ≤ c.rank →
      (s.cell L j).rank ≤ ((s.setCell L k c).cell L j).rank := fun {k c} hle => by
    rw [Segment.cell_setCell]
    split <;> rename_i hjk
    · rwa [s.cell_congr hjk]
    · exact Nat.le_refl _
  cases hmove with
  | counters | leave => exact Nat.le_refl _
  | deposit k a idx hcell hle =>
      refine hset ?_
      have hflag := Bool.toNat_le idx.flag
      simp only [hcell, Cell.rank, Option.isSome_none, Option.isSome_some, Bool.toNat_true,
        Bool.toNat_false]
      omega
  | take k a f hcell => exact hset (Cell.rank_le_of_index_lt (by simp only [hcell]; omega))
  | markUnsafe k a idx hcell =>
      refine hset ?_
      have hflag := Bool.toNat_le idx.flag
      simp only [hcell, Cell.rank, Option.isSome_some, Bool.toNat_true]
      omega
  | skip k idx hcell hle =>
      exact hset (Cell.rank_le_of_index_lt (by simp only [hcell]; omega))

/-- A dequeue that leaves an empty cell as it is was late. -/
theorem Move.left {j k : Nat} {idx : Word} (hmove : Move L t s h s' es)
    (hcell : s.cell L k = ⟨none, idx⟩) (hcell' : s'.cell L k = ⟨none, idx⟩)
    (hjk : j % L.size = k % L.size) (hle : idx.index ≤ j) (hl : Left (h ++ es) j) : Left h j := by
  refine (left_append.mp hl).resolve_right fun hl => ?_
  rw [← s.cell_congr hjk] at hcell
  rw [← s'.cell_congr hjk] at hcell'
  cases hmove with
  | counters b es hes => exact left_quiet hes hl
  | deposit => simp at hl
  | leave k hpast =>
      obtain rfl := left_leave.mp hl
      rw [hcell] at hpast
      exact Nat.lt_irrefl _ (Nat.lt_of_le_of_lt hle hpast)
  | take k a f hold =>
      obtain rfl := left_take.mp hl
      exact absurd (hold.symm.trans hcell) (by simp)
  | markUnsafe k a v hold =>
      obtain rfl := left_leave.mp hl
      exact absurd (hold.symm.trans hcell) (by simp)
  | skip k v hold hv =>
      obtain rfl := left_leave.mp hl
      have hsize := L.size_pos
      obtain rfl : v = idx := by simpa using hold.symm.trans hcell
      have hindex : j + L.size = v.index := by
        simpa [Segment.cell_setCell] using congrArg (·.idx.index) hcell'
      omega

theorem Move.rely (hmove : Move L t s h s' es) : Rely L ⟨(), s, h⟩ ⟨(), s', h ++ es⟩ :=
  ⟨hmove.rank, fun hcell hcell' => hmove.left hcell hcell'⟩

end Moves

end QueueFairness.CRQueue
