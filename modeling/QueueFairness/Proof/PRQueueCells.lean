import Mathlib.Data.List.Perm.Basic
import Mathlib.Data.List.Range
import QueueFairness.PRQueue
import QueueFairness.Proof.CacheRemap
import QueueFairness.Proof.RingSegment

/-!
# The cells of the portable ring segment

What a step can do to a segment, and what every such move preserves: the index of a cell only grows,
an enqueue that has moved it on has a claim to the cell until its item is out or its marker gone,
and a dequeue that gives its ticket up leaves the cell where the enqueue of that ticket finds no way
 in.
-/

namespace QueueFairness

/-- The index of a cell grows, and the flag is only ever set under one index. -/
def Word.rank (w : Word) : Nat := 2 * w.index + w.flag.toNat

theorem Word.rank_inj {v w : Word} (h : v.rank = w.rank) : v = w := by
  obtain ⟨f, i⟩ := v
  obtain ⟨f', j⟩ := w
  unfold Word.rank at h
  cases f <;> cases f' <;> simp at h ⊢ <;> omega

theorem Word.index_le {v w : Word} (h : v.rank ≤ w.rank) : v.index ≤ w.index := by
  have hv := Bool.toNat_le v.flag
  have hw := Bool.toNat_le w.flag
  unfold Word.rank at h
  omega

theorem Word.rank_le_of_index_lt {v w : Word} (h : v.index < w.index) : v.rank ≤ w.rank := by
  have hv := Bool.toNat_le v.flag
  unfold Word.rank
  omega

namespace PRQueue

open Interleaving LinkedRingQueue

variable {L : Layout}

theorem place_lt (k : Nat) : place L k < L.size :=
  Layout.position_lt (Nat.mod_lt _ L.size_pos)

theorem exists_ticket {p : Nat} (hp : p < L.size) : ∃ k, place L k = p := by
  obtain ⟨i, hi, rfl⟩ := Layout.exists_position hp
  exact ⟨i, by rw [place, Nat.mod_eq_of_lt hi]⟩

/-- Two tickets name one cell. -/
theorem place_eq_iff {j k : Nat} : place L j = place L k ↔ j % L.size = k % L.size :=
  ⟨Layout.position_inj (Nat.mod_lt _ L.size_pos) (Nat.mod_lt _ L.size_pos), fun h => by
    rw [place, h, place]⟩

namespace Segment

variable (s : Segment) (k : Nat)

@[simp] theorem setVal_base (v : Val) : (s.setVal L k v).base = s.base := rfl
@[simp] theorem setIdx_base (idx : Word) : (s.setIdx L k idx).base = s.base := rfl

theorem cell_congr {j k : Nat} (h : j % L.size = k % L.size) : s.cell L j = s.cell L k := by
  rw [cell, cell, place_eq_iff.mpr h]

theorem cell_setVal (v : Val) (j : Nat) : (s.setVal L k v).cell L j
    = if j % L.size = k % L.size then ⟨v, (s.cell L k).idx⟩ else s.cell L j := by
  by_cases h : j % L.size = k % L.size
  · simp [cell, setVal, place_eq_iff.mpr h, h]
  · have hne : place L j ≠ place L k := fun heq => h (place_eq_iff.mp heq)
    rw [if_neg h]
    exact Function.update_of_ne hne ..

theorem cell_setIdx (idx : Word) (j : Nat) : (s.setIdx L k idx).cell L j
    = if j % L.size = k % L.size then ⟨(s.cell L k).val, idx⟩ else s.cell L j := by
  by_cases h : j % L.size = k % L.size
  · simp [cell, setIdx, place_eq_iff.mpr h, h]
  · have hne : place L j ≠ place L k := fun heq => h (place_eq_iff.mp heq)
    rw [if_neg h]
    exact Function.update_of_ne hne ..

end Segment

/-! ### A new segment -/

/-- A smaller number of the same residue is smaller by a round at least. -/
theorem le_of_residue {R i k : Nat} (h : i % R = k % R) (hlt : i < k + R) : i ≤ k := by
  by_contra hgt
  have hzero := Nat.sub_mod_eq_zero_of_mod_eq h
  rw [Nat.mod_eq_of_lt (by omega)] at hzero
  omega

theorem exists_residue (R start k : Nat) (hR : 0 < R) :
    ∃ i, start ≤ i ∧ i < start + R ∧ i % R = k % R := by
  have hr : start % R < R := Nat.mod_lt _ hR
  have hoff : (k + (R - start % R)) % R < R := Nat.mod_lt _ hR
  refine ⟨start + (k + (R - start % R)) % R, by omega, by omega, ?_⟩
  have hdiv := Nat.div_add_mod start R
  rw [Nat.add_mod_mod]
  calc (start + (k + (R - start % R))) % R = (k + R * (start / R + 1)) % R := by
        congr 1
        rw [Nat.mul_add, Nat.mul_one]
        omega
    _ = k % R := Nat.add_mul_mod_self_left ..

theorem foldl_update {γ : Type} (position : Nat → Nat) {cell : Nat → γ} {is : List Nat} {i : Nat}
    (hi : i ∈ is) (hinj : ∀ j ∈ is, position j = position i → j = i) (array : Nat → γ) :
    is.foldl (fun array j => Function.update array (position j) (cell j)) array (position i)
      = cell i := by
  induction is using List.reverseRecOn with
  | nil => cases hi
  | append_singleton is j ih =>
      rw [List.foldl_append]
      by_cases hj : position j = position i
      · obtain rfl := hinj j (by simp) hj
        simp
      · have hmem : i ∈ is := by
          rcases List.mem_append.mp hi with h | h
          · exact h
          · exact absurd (by rw [List.mem_singleton.mp h]) hj
        simpa [Ne.symm hj] using ih hmem fun m hm => hinj m (List.mem_append_left _ hm)

/-- The loop of the constructor gives each cell the first ticket that names it. -/
theorem foldl_place {γ : Type} (L : Layout) (start k : Nat) (cell : Nat → γ) (array : Nat → γ) :
    ∃ i, start ≤ i ∧ i < start + L.size ∧ i % L.size = k % L.size
      ∧ (List.range' start L.size).foldl
        (fun array j => Function.update array (place L j) (cell j)) array (place L k) = cell i := by
  obtain ⟨i, hle, hlt, hres⟩ := exists_residue L.size start k L.size_pos
  refine ⟨i, hle, hlt, hres, ?_⟩
  rw [← place_eq_iff.mpr hres]
  refine foldl_update (place L) (List.mem_range'_1.mpr ⟨hle, hlt⟩) (fun j hj heq => ?_) _
  have hj := List.mem_range'_1.mp hj
  have hmod := place_eq_iff.mp heq
  have hle' := le_of_residue hmod (by omega)
  have hge' := le_of_residue hmod.symm (by omega)
  omega

/-- Every cell of a new segment is empty and waits for the first ticket that names it. -/
theorem cell_new (L : Layout) (start k : Nat) : ∃ i, start ≤ i ∧ i < start + L.size
    ∧ i % L.size = k % L.size ∧ (new L start).cell L k = ⟨.null, ⟨false, i⟩⟩ :=
  foldl_place L start k (fun i => (⟨.null, ⟨false, i⟩⟩ : Cell)) _

/-! ### Items -/

def Val.item? : Val → Option Nat
  | .item a => some a
  | _ => none

/-- The items in the cells. -/
def stored (L : Layout) (s : Segment) : List Nat :=
  (List.range L.size).filterMap fun p => (s.array p).val.item?

theorem filterMap_perm_erase {f : Nat → Option Nat} {l : List Nat} {p : Nat} (hp : p ∈ l) :
    (l.filterMap f).Perm ((f p).toList ++ (l.erase p).filterMap f) := by
  refine ((List.perm_cons_erase hp).filterMap f).trans (.of_eq ?_)
  cases hf : f p <;> simp [hf]

/-- A store to one place of an array replaces one item by another. -/
theorem filterMap_update {γ : Type} (f : γ → Option Nat) (array : Nat → γ) {n p : Nat} (hp : p < n)
    (c : γ) :
    ((List.range n).filterMap (fun q => f (Function.update array p c q))
      ++ (f (array p)).toList).Perm
        ((List.range n).filterMap (fun q => f (array q)) ++ (f c).toList) := by
  have hmem : p ∈ List.range n := List.mem_range.mpr hp
  have hothers : ((List.range n).erase p).filterMap (fun q => f (Function.update array p c q))
      = ((List.range n).erase p).filterMap fun q => f (array q) := by
    refine List.filterMap_congr fun q hq => ?_
    have hne : q ≠ p := fun heq => List.nodup_range.not_mem_erase (heq ▸ hq)
    rw [Function.update_of_ne hne]
  have hnew := filterMap_perm_erase (f := fun q => f (Function.update array p c q)) hmem
  have hold := filterMap_perm_erase (f := fun q => f (array q)) hmem
  rw [Function.update_self, hothers] at hnew
  have hswap := @List.perm_append_comm _ (f c).toList
    (((List.range n).erase p).filterMap (fun q => f (array q)) ++ (f (array p)).toList)
  refine (hnew.append_right _).trans ?_
  rw [List.append_assoc]
  exact hswap.trans ((List.perm_append_comm.trans hold.symm).append_right _)

/-- A store to a cell replaces one item by another. -/
theorem stored_setVal (s : Segment) (k : Nat) (v : Val) :
    (stored L (s.setVal L k v) ++ (s.cell L k).val.item?.toList).Perm
      (stored L s ++ v.item?.toList) :=
  filterMap_update (fun c : Cell => c.val.item?) s.array (place_lt k) _

theorem stored_setIdx (s : Segment) (k : Nat) (idx : Word) :
    stored L (s.setIdx L k idx) = stored L s := by
  refine List.filterMap_congr fun p _ => ?_
  by_cases hp : p = place L k
  · subst hp
    simp [Segment.setIdx, Segment.cell]
  · simp [Segment.setIdx, hp]

/-! ### What is known of a segment -/

/-- The ghost state: the cells an enqueue has a claim to, by the residue of their tickets, and the
word under which the dequeue of a ticket saw an item that is not for it. -/
structure Ghost where
  armed : Nat → Bool
  seen : Nat → Option Word

abbrev W := World Ghost Segment SegmentEvent

def Armed (L : Layout) (w : W) (k : Nat) : Prop := w.ghost.armed (k % L.size) = true

structure Cells (L : Layout) (w : W) : Prop where
  residue : ∀ k, (w.shared.cell L k).idx.index % L.size = k % L.size
  armed : ∀ {k}, Armed L w k → ∃ j, (w.shared.cell L k).idx.index = j + L.size
    ∧ ¬ Left w.history j ∧ (∃ t, .drawTail t j ∈ w.history) ∧ (w.shared.cell L k).val ≠ .null
  item : ∀ {k a}, (w.shared.cell L k).val = .item a → Armed L w k
  left : ∀ {k}, Left w.history k →
    k < (w.shared.cell L k).idx.index ∨ (w.shared.cell L k).idx.flag = true

/-- What holds of a segment; `strict` says that no dequeue takes another's item. -/
structure Glob (L : Layout) (strict : Prop) (w : W) : Prop where
  cells : Cells L w
  seen : ∀ k, w.ghost.seen k ≠ none → ∃ t, .drawHead t k ∈ w.history
  account : strict → ((w.history.filterMap depositOf).map Prod.snd).Perm
    ((w.history.filterMap takeOf).map Prod.snd ++ stored L w.shared)

/-- The word was the cell's index once. -/
def Seen (L : Layout) (w : W) (k : Nat) (idx : Word) : Prop :=
  idx.rank ≤ (w.shared.cell L k).idx.rank

/-- As long as the cell's index is the one that was seen, no enqueue has a claim to the cell. -/
structure Empty (L : Layout) (w : W) (k : Nat) (idx : Word) : Prop where
  seen : Seen L w k idx
  unarmed : (w.shared.cell L k).idx = idx → ¬ Armed L w k

/-- As long as the cell is unsafe under the index that was seen, no dequeue of this or a later
round has met it so. -/
def Checked (L : Layout) (w : W) (k : Nat) (idx : Word) : Prop :=
  idx.flag = true → ∀ j, k ≤ j → j % L.size = k % L.size →
    Left w.history j ∨ w.ghost.seen j = some idx → (w.shared.cell L k).idx ≠ idx

/-- What thread `t` relies on. -/
structure Rely (L : Layout) (strict : Prop) (t : Tid) (w w' : W) : Prop where
  seen : ∀ {k}, Owns w.history t k → w'.ghost.seen k = w.ghost.seen k
  idx : ∀ k, (w.shared.cell L k).idx.rank ≤ (w'.shared.cell L k).idx.rank
  armed : ∀ {k}, (w'.shared.cell L k).idx = (w.shared.cell L k).idx → Armed L w' k →
    Armed L w k
  bottom : ∀ {k}, (w'.shared.cell L k).val = .bottom t → (w.shared.cell L k).val = .bottom t
    ∧ (Armed L w' k ↔ Armed L w k)
    ∧ (Armed L w k →
      (w'.shared.cell L k).idx.index = (w.shared.cell L k).idx.index)
  left : ∀ {j k v}, (w.shared.cell L k).idx = v → (w'.shared.cell L k).idx = v → v.flag = true →
    j % L.size = k % L.size → v.index ≤ j → ¬ Armed L w k →
    Left w'.history j ∨ w'.ghost.seen j = some v → Left w.history j ∨ w.ghost.seen j = some v
  taking : strict → ∀ {k a}, Owns w.history t k → (w.shared.cell L k).val = .item a →
    (w.shared.cell L k).idx.index = k + L.size →
    (w'.shared.cell L k).val = .item a ∧ (w'.shared.cell L k).idx.index = k + L.size

/-! ### The moves -/

def setArmed (L : Layout) (x : Ghost) (k : Nat) (b : Bool) : Ghost :=
  { x with armed := Function.update x.armed (k % L.size) b }

/-- What a step of thread `t` can do to the cells, and under which conditions it does. -/
inductive Move (L : Layout) (strict : Prop) (t : Tid) (x : Ghost) (s : Segment)
    (h : List SegmentEvent) : Ghost → Segment → List SegmentEvent → Prop
  | counters (b : SegmentBase) (es : List SegmentEvent) (hes : ∀ e ∈ es, Quiet e) :
      Move L strict t x s h x { s with base := b } es
  | see (k : Nat) (idx : Word) (hown : Owns h t k) (harmed : Armed L ⟨x, s, h⟩ k) :
      Move L strict t x s h { x with seen := Function.update x.seen k (some idx) } s []
  | leave (k : Nat) (hpast : k + L.size < (s.cell L k).idx.index
        ∨ (s.cell L k).idx.flag = true ∧ (s.cell L k).idx.index ≤ k
          ∧ x.seen k = some (s.cell L k).idx) :
      Move L strict t x s h x s [.leave t k]
  | reserve (k : Nat) (hnull : (s.cell L k).val = .null) :
      Move L strict t x s h x (s.setVal L k (.bottom t)) []
  | release (k : Nat) (u : Tid) (hbottom : (s.cell L k).val = .bottom u) :
      Move L strict t x s h (setArmed L x k false) (s.setVal L k .null) []
  | advance (k : Nat) (idx : Word) (hidx : (s.cell L k).idx = idx) (hle : idx.index ≤ k)
      (hempty : ¬ Armed L ⟨x, s, h⟩ k) (hchecked : Checked L ⟨x, s, h⟩ k idx)
      (hdrawn : .drawTail t k ∈ h) :
      Move L strict t x s h (setArmed L x k (decide ((s.cell L k).val = .bottom t)))
        (s.setIdx L k ⟨false, k + L.size⟩) []
  | deposit (k a : Nat) (hbottom : (s.cell L k).val = .bottom t)
      (harmed : Armed L ⟨x, s, h⟩ k) :
      Move L strict t x s h x (s.setVal L k (.item a)) [.deposit t a k]
  | take (k a : Nat) (hown : Owns h t k) (hpast : k + L.size ≤ (s.cell L k).idx.index)
      (hcurrent : strict → (s.cell L k).val = .item a
        ∧ (s.cell L k).idx.index = k + L.size) :
      Move L strict t x s h (setArmed L x k false) (s.setVal L k .null) [.take t a k]
  | markUnsafe (k i : Nat) (hidx : (s.cell L k).idx = ⟨false, i⟩) (hle : i ≤ k) :
      Move L strict t x s h x (s.setIdx L k ⟨true, i⟩) [.leave t k]
  | skip (k : Nat) (idx : Word) (hidx : (s.cell L k).idx = idx)
      (hle : idx.index ≤ k + L.size) (hempty : ¬ Armed L ⟨x, s, h⟩ k) :
      Move L strict t x s h x (s.setIdx L k ⟨idx.flag, k + L.size⟩) [.leave t k]

/-! ### What the moves preserve -/

section Moves

variable {strict : Prop} {t u : Tid} {x x' : Ghost} {s s' : Segment} {h es : List SegmentEvent}
  {k : Nat}

theorem armed_setArmed {b : Bool} {j : Nat} (h' : List SegmentEvent) :
    Armed L ⟨setArmed L x k b, s', h'⟩ j
      ↔ if j % L.size = k % L.size then b = true else Armed L ⟨x, s, h⟩ j := by
  by_cases hj : j % L.size = k % L.size
  · simp [Armed, setArmed, hj]
  · simp [Armed, setArmed, hj]

/-- A move that leaves the cells alone: who leaves, does it by the rules. -/
theorem Cells.keep (hw : Cells L ⟨x, s, h⟩) (hcell : ∀ j, s'.cell L j = s.cell L j)
    (harmed : x'.armed = x.armed)
    (hleft : ∀ k, Left es k → (s.cell L k).idx.index ≠ k + L.size
      ∧ (k < (s.cell L k).idx.index ∨ (s.cell L k).idx.flag = true)) :
    Cells L ⟨x', s', h ++ es⟩ := by
  have harm : ∀ j, Armed L ⟨x', s', h ++ es⟩ j ↔ Armed L ⟨x, s, h⟩ j := fun j => by
    simp [Armed, harmed]
  refine ⟨fun j => ?_, fun {j} hj => ?_, fun {j a} hj => ?_, fun {j} hj => ?_⟩
  · simpa only [hcell] using hw.residue j
  · obtain ⟨i, hidx, hnot, ⟨t, hdrawn⟩, hval⟩ := hw.armed ((harm j).mp hj)
    refine ⟨i, by simpa only [hcell] using hidx, fun hl => ?_,
      ⟨t, List.mem_append_left _ hdrawn⟩, by simpa only [hcell] using hval⟩
    rcases left_append.mp hl with hl | hl
    · exact hnot hl
    · have hres := hw.residue j
      simp only at hres hidx
      rw [hidx, Nat.add_mod_right] at hres
      have := (hleft i hl).1
      rw [Segment.cell_congr s hres] at this
      exact this hidx
  · exact (harm j).mpr (hw.item (by simpa only [hcell] using hj))
  · simp only [hcell]
    rcases left_append.mp hj with hl | hl
    · exact hw.left hl
    · exact (hleft j hl).2

theorem Cells.residue_of_armed (hw : Cells L ⟨x, s, h⟩) {i j : Nat}
    (hidx : (s.cell L j).idx.index = i + L.size) : i % L.size = j % L.size := by
  have hres := hw.residue j
  simp only at hres
  rwa [hidx, Nat.add_mod_right] at hres

/-- A move that writes one cell. -/
theorem Cells.write (hw : Cells L ⟨x, s, h⟩) {c : Cell} {b : Bool}
    (hcell : ∀ j, s'.cell L j = if j % L.size = k % L.size then c else s.cell L j)
    (harmed : ∀ j, Armed L ⟨x', s', h ++ es⟩ j
      ↔ if j % L.size = k % L.size then b = true else Armed L ⟨x, s, h⟩ j)
    (hes : ∀ j, Left es j → j = k) (hres : c.idx.index % L.size = k % L.size)
    (hb : b = true → ∃ j, c.idx.index = j + L.size ∧ ¬ Left (h ++ es) j
      ∧ (∃ t, .drawTail t j ∈ h) ∧ c.val ≠ .null)
    (hitem : ∀ a, c.val = .item a → b = true)
    (hleft : ∀ j, j % L.size = k % L.size → Left (h ++ es) j →
      j < c.idx.index ∨ c.idx.flag = true) :
    Cells L ⟨x', s', h ++ es⟩ := by
  refine ⟨fun j => ?_, fun {j} hj => ?_, fun {j a} hj => ?_, fun {j} hj => ?_⟩
  · show (s'.cell L j).idx.index % L.size = _
    rw [hcell]
    split
    · rename_i hjk
      rw [hres, hjk]
    · exact hw.residue j
  · have hj := (harmed j).mp hj
    show ∃ i, (s'.cell L j).idx.index = i + L.size ∧ _ ∧ _ ∧ (s'.cell L j).val ≠ .null
    rw [hcell]
    split <;> rename_i hjk
    · rw [if_pos hjk] at hj
      obtain ⟨i, hidx, hnot, ⟨t, hdrawn⟩, hval⟩ := hb hj
      exact ⟨i, hidx, hnot, ⟨t, List.mem_append_left _ hdrawn⟩, hval⟩
    · rw [if_neg hjk] at hj
      obtain ⟨i, hidx, hnot, ⟨t, hdrawn⟩, hval⟩ := hw.armed hj
      refine ⟨i, hidx, fun hl => ?_, ⟨t, List.mem_append_left _ hdrawn⟩, hval⟩
      rcases left_append.mp hl with hl | hl
      · exact hnot hl
      · exact hjk (hw.residue_of_armed hidx ▸ hes i hl ▸ rfl)
  · rw [harmed]
    change (s'.cell L j).val = _ at hj
    rw [hcell] at hj
    split at hj <;> rename_i hjk
    · rw [if_pos hjk]
      exact hitem a hj
    · rw [if_neg hjk]
      exact hw.item hj
  · show j < (s'.cell L j).idx.index ∨ (s'.cell L j).idx.flag = true
    rw [hcell]
    split <;> rename_i hjk
    · exact hleft j hjk hj
    · rcases left_append.mp hj with hl | hl
      · exact hw.left hl
      · exact absurd (hes j hl ▸ rfl) hjk

theorem armed_congr {j : Nat} (h' : List SegmentEvent) : Armed L ⟨x, s', h'⟩ j
    ↔ if j % L.size = k % L.size then x.armed (k % L.size) = true else Armed L ⟨x, s, h⟩ j := by
  by_cases hj : j % L.size = k % L.size
  · simp [Armed, hj]
  · simp [Armed, hj]

theorem Move.cells (hw : Cells L ⟨x, s, h⟩) (hmove : Move L strict t x s h x' s' es) :
    Cells L ⟨x', s', h ++ es⟩ := by
  cases hmove with
  | counters b es hes =>
      exact hw.keep (fun _ => rfl) rfl fun k hk => absurd hk (left_quiet hes)
  | see k idx hown harmed => exact hw.keep (fun _ => rfl) rfl (by simp)
  | leave k hpast =>
      refine hw.keep (fun _ => rfl) rfl fun j hj => ?_
      obtain rfl := left_leave.mp hj
      rcases hpast with hpast | ⟨hflag, hle, -⟩
      · exact ⟨by omega, .inl (by omega)⟩
      · have := L.size_pos
        exact ⟨by omega, .inr hflag⟩
  | reserve k hnull =>
      have hunarmed : ¬ Armed L ⟨x, s, h⟩ k := fun harmed => by
        obtain ⟨_, _, _, _, hval⟩ := hw.armed harmed
        exact hval hnull
      refine hw.write (s.cell_setVal k _) (fun _ => armed_congr _) (by simp) (hw.residue k)
        (fun hb => absurd hb hunarmed) (by simp) fun j hjk hl => ?_
      rw [List.append_nil] at hl
      exact s.cell_congr hjk ▸ hw.left hl
  | release k u hbottom =>
      refine hw.write (s.cell_setVal k _) (fun _ => armed_setArmed _) (by simp) (hw.residue k)
        (by simp) (by simp) fun j hjk hl => ?_
      rw [List.append_nil] at hl
      exact s.cell_congr hjk ▸ hw.left hl
  | advance k idx hidx hle hempty hchecked hdrawn =>
      -- A dequeue that is done with the cell leaves no way in for its own ticket or an earlier one.
      have hpast : ∀ j, j % L.size = k % L.size → Left h j → j < k := fun j hjk hl => by
        have hcell := hw.left hl
        simp only [s.cell_congr hjk, hidx] at hcell
        rcases hcell with hlt | hflag
        · omega
        · by_contra hge
          exact hchecked hflag j (Nat.not_lt.mp hge) hjk (.inl hl) hidx
      refine hw.write (s.cell_setIdx k _) (fun _ => armed_setArmed _) (by simp) (by simp)
        (fun hb => ⟨k, rfl, fun hl => ?_, ⟨t, hdrawn⟩, ?_⟩) (fun a ha => ?_) fun j hjk hl => ?_
      · rw [List.append_nil] at hl
        exact absurd (hpast k rfl hl) (Nat.lt_irrefl k)
      · simp [of_decide_eq_true hb]
      · exact absurd (hw.item ha) hempty
      · rw [List.append_nil] at hl
        have := hpast j hjk hl
        exact .inl (by simp only; omega)
  | deposit k a hbottom harmed =>
      refine hw.write (s.cell_setVal k _) (fun _ => armed_congr _) (by simp) (hw.residue k)
        (fun hb => ?_) (fun _ _ => harmed) fun j hjk hl => ?_
      · obtain ⟨j, hidx, hnot, hdrawn, -⟩ := hw.armed harmed
        exact ⟨j, hidx, by simpa [left_append] using hnot, hdrawn, by simp⟩
      · have hl : Left h j := by simpa [left_append] using hl
        exact s.cell_congr hjk ▸ hw.left hl
  | take k a hown hpast hcurrent =>
      refine hw.write (s.cell_setVal k _) (fun _ => armed_setArmed _) (by simp) (hw.residue k)
        (by simp) (by simp) fun j hjk hl => ?_
      rcases left_append.mp hl with hl | hl
      · exact s.cell_congr hjk ▸ hw.left hl
      · obtain rfl := left_take.mp hl
        have := L.size_pos
        exact .inl (by simp only; omega)
  | markUnsafe k i hidx hle =>
      have hsize := L.size_pos
      have hres := hw.residue k
      simp only [hidx] at hres
      refine hw.write (s.cell_setIdx k _) (fun _ => armed_congr _) (by simp) hres (fun hb => ?_)
        (fun a ha => hw.item ha) fun _ _ _ => .inr rfl
      obtain ⟨j, hj, hnot, hdrawn, hval⟩ := hw.armed (k := k) hb
      simp only [hidx] at hj
      refine ⟨j, hj, fun hl => ?_, hdrawn, hval⟩
      rcases left_append.mp hl with hl | hl
      · exact hnot hl
      · obtain rfl := left_leave.mp hl
        omega
  | skip k idx hidx hle hempty =>
      have hsize := L.size_pos
      refine hw.write (s.cell_setIdx k _) (fun _ => armed_congr _) (by simp) (by simp)
        (fun hb => absurd hb hempty) (fun a ha => absurd (hw.item ha) hempty) fun j hjk hl => ?_
      rcases left_append.mp hl with hl | hl
      · have hcell := hw.left hl
        simp only [s.cell_congr hjk, hidx] at hcell
        exact hcell.imp_left fun hlt => Nat.lt_of_lt_of_le hlt hle
      · obtain rfl := left_leave.mp hl
        exact .inl (by simp only; omega)

theorem Move.seen (hw : ∀ k, x.seen k ≠ none → ∃ t, .drawHead t k ∈ h)
    (hmove : Move L strict t x s h x' s' es) (hk : x'.seen k ≠ none) :
    ∃ t, .drawHead t k ∈ h ++ es := by
  have hold : x.seen k ≠ none → ∃ t, .drawHead t k ∈ h ++ es := fun hk => by
    obtain ⟨u, hu⟩ := hw k hk
    exact ⟨u, List.mem_append_left _ hu⟩
  cases hmove with
  | see j idx hown harmed =>
      by_cases hkj : k = j
      · exact ⟨t, List.mem_append_left _ (hkj ▸ hown.1)⟩
      · exact hold (by simpa [hkj] using hk)
  | _ => exact hold hk

/-- **Items are where they were put until they are taken.** -/
theorem Move.account (hstrict : strict)
    (hw : ((h.filterMap depositOf).map Prod.snd).Perm
      ((h.filterMap takeOf).map Prod.snd ++ stored L s)) (hmove : Move L strict t x s h x' s' es) :
    (((h ++ es).filterMap depositOf).map Prod.snd).Perm
      (((h ++ es).filterMap takeOf).map Prod.snd ++ stored L s') := by
  have hsame : es.filterMap depositOf = [] → es.filterMap takeOf = [] →
      (stored L s').Perm (stored L s) →
      (((h ++ es).filterMap depositOf).map Prod.snd).Perm
        (((h ++ es).filterMap takeOf).map Prod.snd ++ stored L s') := by
    intro hdeposit htake hstored
    rw [List.filterMap_append, List.filterMap_append, hdeposit, htake, List.append_nil,
      List.append_nil]
    exact hw.trans (hstored.symm.append_left _)
  cases hmove with
  | counters b es hes =>
      refine hsame (List.filterMap_eq_nil_iff.mpr fun e he => ?_)
        (List.filterMap_eq_nil_iff.mpr fun e he => ?_) (.refl _) <;>
      · have := hes e he
        cases e <;> first | rfl | exact absurd this id
  | see | leave => exact hsame rfl rfl (.refl _)
  | reserve k hnull =>
      exact hsame rfl rfl (by simpa [hnull, Val.item?] using stored_setVal (L := L) s k (.bottom t))
  | release k u hbottom =>
      exact hsame rfl rfl (by simpa [hbottom, Val.item?] using stored_setVal (L := L) s k .null)
  | advance | markUnsafe | skip => exact hsame rfl rfl (.of_eq (stored_setIdx ..))
  | deposit k a hbottom harmed =>
      have hstored : (stored L (s.setVal L k (.item a))).Perm (stored L s ++ [a]) := by
        simpa [hbottom, Val.item?] using stored_setVal (L := L) s k (.item a)
      have htake : [SegmentEvent.deposit t a k].filterMap takeOf = [] := rfl
      have hperm := (hw.append_right [a]).trans (.of_eq (List.append_assoc ..))
      simpa [depositOf, htake] using hperm.trans (hstored.symm.append_left _)
  | take k a hown hpast hcurrent =>
      have hstored : (stored L (s.setVal L k .null) ++ [a]).Perm (stored L s) := by
        simpa [(hcurrent hstrict).1, Val.item?] using stored_setVal (L := L) s k .null
      have hdeposit : [SegmentEvent.take t a k].filterMap depositOf = [] := rfl
      have hperm := hw.trans ((List.perm_append_comm.trans hstored).symm.append_left _)
      simpa [takeOf, hdeposit] using hperm

theorem Move.glob (hw : Glob L strict ⟨x, s, h⟩) (hmove : Move L strict t x s h x' s' es) :
    Glob L strict ⟨x', s', h ++ es⟩ :=
  ⟨hmove.cells hw.cells, fun _ hk => hmove.seen hw.seen hk,
    fun hstrict => hmove.account hstrict (hw.account hstrict)⟩

/-- A move that leaves the cells alone. -/
theorem Rely.keep (hcell : ∀ j, s'.cell L j = s.cell L j) (harmed : x'.armed = x.armed)
    (hseen : ∀ {k}, Owns h u k → x'.seen k = x.seen k)
    (hleft : ∀ {j v}, (s.cell L j).idx = v → v.index ≤ j → ¬ Armed L ⟨x, s, h⟩ j →
      Left es j ∨ x'.seen j = some v → Left h j ∨ x.seen j = some v) :
    Rely L strict u ⟨x, s, h⟩ ⟨x', s', h ++ es⟩ := by
  have harm : ∀ j, Armed L ⟨x', s', h ++ es⟩ j ↔ Armed L ⟨x, s, h⟩ j := fun j => by
    simp [Armed, harmed]
  refine ⟨hseen, fun j => ?_, fun _ ha => (harm _).mp ha, fun {k} hk => ?_,
    fun {j k v} hv _ _ hjk hle hun hl => ?_, fun _ {k a} _ hv hidx => ?_⟩
  · simp only [hcell]
    exact Nat.le_refl _
  · simp only [hcell] at hk ⊢
    exact ⟨hk, harm k, fun _ => trivial⟩
  · have hun' : ¬ Armed L ⟨x, s, h⟩ j := by simpa [Armed, hjk] using hun
    have hv' : (s.cell L j).idx = v := s.cell_congr hjk ▸ hv
    rcases hl with hl | hl
    · rcases left_append.mp hl with hl | hl
      · exact .inl hl
      · exact hleft hv' hle hun' (.inl hl)
    · exact hleft hv' hle hun' (.inr hl)
  · simp only [hcell]
    exact ⟨hv, hidx⟩

/-- A move that writes one cell. -/
theorem Rely.write {c : Cell} {b : Bool}
    (hcell : ∀ j, s'.cell L j = if j % L.size = k % L.size then c else s.cell L j)
    (harmed : ∀ j, Armed L ⟨x', s', h ++ es⟩ j
      ↔ if j % L.size = k % L.size then b = true else Armed L ⟨x, s, h⟩ j)
    (hseen : x'.seen = x.seen) (hdone : ∀ j, Left es j → j = k)
    (hidx : (s.cell L k).idx.rank ≤ c.idx.rank)
    (hb : c.idx = (s.cell L k).idx → b = true → Armed L ⟨x, s, h⟩ k)
    (hbottom : c.val = .bottom u → (s.cell L k).val = .bottom u
      ∧ (b = true ↔ Armed L ⟨x, s, h⟩ k)
      ∧ (Armed L ⟨x, s, h⟩ k → c.idx.index = (s.cell L k).idx.index))
    (hleft : Left es k → (s.cell L k).idx = c.idx → k < c.idx.index)
    (htaking : strict → ∀ {j a}, j % L.size = k % L.size → Owns h u j → (s.cell L k).val = .item a →
      (s.cell L k).idx.index = j + L.size → c.val = .item a ∧ c.idx.index = j + L.size) :
    Rely L strict u ⟨x, s, h⟩ ⟨x', s', h ++ es⟩ := by
  have harm : ∀ {j}, j % L.size = k % L.size →
      (Armed L ⟨x, s, h⟩ j ↔ Armed L ⟨x, s, h⟩ k) := fun hjk => by simp [Armed, hjk]
  refine ⟨fun _ => congrFun hseen _, fun j => ?_, fun {j} hj ha => ?_, fun {j} hj => ?_,
    fun {i j v} hv hv' _ hij hle hun hl => ?_, fun hstrict {j a} hown hv hj => ?_⟩
  · simp only [hcell]
    split <;> rename_i hjk
    · rwa [s.cell_congr hjk]
    · exact Nat.le_refl _
  · have ha := (harmed j).mp ha
    simp only [hcell] at hj
    split at ha <;> rename_i hjk
    · rw [if_pos hjk, s.cell_congr hjk] at hj
      exact (harm hjk).mpr (hb hj ha)
    · exact ha
  · simp only [hcell] at hj ⊢
    split at hj <;> rename_i hjk
    · simp only [hjk, if_true, harmed, s.cell_congr hjk, harm hjk]
      exact hbottom hj
    · simpa [hjk, harmed] using hj
  · rw [hseen] at hl
    refine hl.imp_left fun hl => ?_
    rcases left_append.mp hl with hl | hl
    · exact hl
    · obtain rfl := hdone i hl
      simp only [hcell, hij.symm, if_true] at hv'
      simp only [s.cell_congr hij.symm] at hv
      have := hleft hl (hv.trans hv'.symm)
      rw [hv'] at this
      omega
  · simp only [hcell]
    split <;> rename_i hjk
    · exact htaking hstrict hjk hown (s.cell_congr hjk ▸ hv) (s.cell_congr hjk ▸ hj)
    · exact ⟨hv, hj⟩

theorem Move.rely (htickets : Tickets s.base h) (hcells : Cells L ⟨x, s, h⟩)
    (hmove : Move L strict t x s h x' s' es) (hne : u ≠ t) :
    Rely L strict u ⟨x, s, h⟩ ⟨x', s', h ++ es⟩ := by
  have hsize := L.size_pos
  cases hmove with
  | counters b es hes =>
      exact .keep (fun _ => rfl) rfl (fun _ => rfl) fun _ _ _ hl =>
        .inr (hl.resolve_left (left_quiet hes))
  | see k idx hown harmed =>
      refine .keep (fun _ => rfl) rfl (fun {j} hj => ?_) fun {j v} hv hle hun hl => ?_
      · have hjk : j ≠ k := fun hjk => hne (htickets.drawer hj.1 (hjk ▸ hown.1))
        simp [hjk]
      · by_cases hjk : j = k
        · exact absurd (hjk ▸ harmed) hun
        · exact .inr (by simpa [hjk] using hl)
  | leave k hpast =>
      refine .keep (fun _ => rfl) rfl (fun _ => rfl) fun {j v} hv hle hun hl => ?_
      rcases hl with hl | hl
      · obtain rfl := left_leave.mp hl
        rcases hpast with hpast | ⟨-, -, hseen⟩
        · rw [hv] at hpast
          omega
        · exact .inr (hv ▸ hseen)
      · exact .inr hl
  | reserve k hnull =>
      refine .write (s.cell_setVal k _) (fun _ => armed_congr _) rfl (by simp)
        (Nat.le_refl _) (fun _ => id) (fun hu => ?_) (by simp) fun _ _ _ _ _ hv _ => ?_
      · exact absurd (Val.bottom.inj hu).symm hne
      · exact absurd (hnull.symm.trans hv) (by simp)
  | release k v hbottom =>
      refine .write (s.cell_setVal k _) (fun _ => armed_setArmed _) rfl (by simp)
        (Nat.le_refl _) (by simp) (by simp) (by simp) fun _ _ _ _ _ hv _ => ?_
      exact absurd (hbottom.symm.trans hv) (by simp)
  | advance k idx hidx hle hempty hchecked hdrawn =>
      refine .write (s.cell_setIdx k _) (fun _ => armed_setArmed _) rfl (by simp)
        (Word.rank_le_of_index_lt (by simp only [hidx]; omega)) (fun heq => ?_)
        (fun hu => ⟨hu, ?_, fun ha => absurd ha hempty⟩) (by simp)
        fun _ _ _ _ _ hv _ => absurd (hcells.item hv) hempty
      · have := congrArg Word.index heq
        simp only [hidx] at this
        omega
      · simp only at hu
        simp [hu, hne, hempty]
  | deposit k a hbottom harmed =>
      refine .write (s.cell_setVal k _) (fun _ => armed_congr _) rfl (by simp)
        (Nat.le_refl _) (fun _ => id) (by simp) (by simp) fun _ _ _ _ _ hv _ => ?_
      exact absurd (hbottom.symm.trans hv) (by simp)
  | take k a hown hpast hcurrent =>
      refine .write (s.cell_setVal k _) (fun _ => armed_setArmed _) rfl
        (fun _ => left_take.mp) (Nat.le_refl _) (by simp) (by simp)
        (fun _ _ => by simp only; omega) fun hstrict {j b} _ hown' _ hj => ?_
      -- The cell has one ticket, and the ticket one owner.
      have hidx := (hcurrent hstrict).2
      obtain rfl : j = k := by omega
      exact absurd (htickets.drawer hown'.1 hown.1) hne
  | markUnsafe k i hidx hle =>
      refine .write (s.cell_setIdx k _) (fun _ => armed_congr _) rfl
        (fun _ => left_leave.mp) ?_ (fun _ => id) (fun hu => ⟨hu, .rfl, fun _ => by rw [hidx]⟩)
        (fun _ heq => by simp [hidx] at heq)
        fun _ _ _ _ _ hv hj => ⟨hv, by rw [hidx] at hj; exact hj⟩
      simp [hidx, Word.rank]
  | skip k idx hidx hle hempty =>
      refine .write (s.cell_setIdx k _) (fun _ => armed_congr _) rfl
        (fun _ => left_leave.mp) ?_ (fun _ => id)
        (fun hu => ⟨hu, .rfl, fun ha => absurd ha hempty⟩) (fun _ _ => by simp only; omega)
        fun _ _ _ _ _ hv _ => absurd (hcells.item hv) hempty
      simp only [hidx, Word.rank]
      omega

end Moves

end PRQueue

end QueueFairness
