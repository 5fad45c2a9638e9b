import Mathlib.Data.Fintype.EquivFin
import Mathlib.Data.Nat.ModEq
import Mathlib.Data.Set.Function
import QueueFairness.CacheRemap

/-!
# Every cell is some ticket's

A remap goes through all cells of the array, each once a round, and tickets that follow one another
closely are on different cache lines.
-/

namespace QueueFairness

namespace Layout

variable {L : Layout}

theorem position_lt {i : Nat} (hi : i < L.size) : L.position i < L.size := by
  unfold position
  split
  · rename_i h
    have hplace := div_lt_cellsPerCacheLine h hi
    have hlines : 0 < L.numCacheLines := by
      refine Nat.pos_of_ne_zero fun h0 => ?_
      have hsize := size_eq h
      rw [h0, Nat.zero_mul] at hsize
      exact absurd L.size_pos (by omega)
    have hline : i % L.numCacheLines < L.numCacheLines := Nat.mod_lt _ hlines
    calc i % L.numCacheLines * L.cellsPerCacheLine + i / L.numCacheLines
        < i % L.numCacheLines * L.cellsPerCacheLine + L.cellsPerCacheLine := by omega
      _ = (i % L.numCacheLines + 1) * L.cellsPerCacheLine := (Nat.succ_mul ..).symm
      _ ≤ L.numCacheLines * L.cellsPerCacheLine := Nat.mul_le_mul_right _ hline
      _ = L.size := (size_eq h).symm
  · exact hi

theorem exists_position {p : Nat} (hp : p < L.size) : ∃ i < L.size, L.position i = p := by
  let f : Fin L.size → Fin L.size := fun i => ⟨L.position i, position_lt i.isLt⟩
  have hinj : Function.Injective f := fun i j heq =>
    Fin.ext (position_inj i.isLt j.isLt (congrArg Fin.val heq))
  obtain ⟨i, hi⟩ := Finite.surjective_of_injective hinj ⟨p, hp⟩
  exact ⟨i, i.isLt, congrArg Fin.val hi⟩

/-- Tickets that follow one another closely are on different cache lines. -/
theorem position_div_ne (h : L.remap ∧ L.cacheLineSize ≤ L.size * L.cellSize) {t u : Nat}
    (hne : t ≠ u) (htu : t < u + L.numCacheLines) (hut : u < t + L.numCacheLines) :
    L.position (t % L.size) / L.cellsPerCacheLine
      ≠ L.position (u % L.size) / L.cellsPerCacheLine := by
  have hdvd : L.numCacheLines ∣ L.size := ⟨_, size_eq h⟩
  rw [position_div h (Nat.mod_lt _ L.size_pos), position_div h (Nat.mod_lt _ L.size_pos),
    Nat.mod_mod_of_dvd t hdvd, Nat.mod_mod_of_dvd u hdvd]
  intro heq
  rcases Nat.lt_or_gt_of_ne hne with hlt | hlt
  · have hle := Nat.le_of_dvd (by omega) ((Nat.modEq_iff_dvd' (by omega)).mp heq)
    omega
  · have hle := Nat.le_of_dvd (by omega) ((Nat.modEq_iff_dvd' (by omega)).mp heq.symm)
    omega

end Layout

namespace CacheRemap

variable (R : CacheRemap)

theorem sizeT_eq {x : Nat} (hx : x < 2 ^ 64) : sizeT x = x := Nat.mod_eq_of_lt hx

/-- The remap, in unbounded numbers. -/
def layout : Layout where
  remap := true
  size := R.size
  cellSize := R.cellSize
  cacheLineSize := R.cacheLineSize
  size_pos := R.size_pos
  cellSize_pos := R.cellSize_pos
  cacheLineSize_pos := R.cacheLineSize_pos
  line_dvd _ := R.line_dvd
  size_dvd _ := by
    have := R.size_dvd
    rwa [sizeT_eq R.fits] at this

theorem layout_remaps :
    R.layout.remap ∧ R.layout.cacheLineSize ≤ R.layout.size * R.layout.cellSize :=
  ⟨rfl, R.line_le⟩

theorem numCacheLines_eq : R.numCacheLines = R.layout.numCacheLines := by
  rw [numCacheLines, sizeT_eq R.fits]
  rfl

/-- Nothing overflows. -/
theorem get_eq {i : Nat} (hi : i < R.size) : R.get i = R.layout.position i := by
  have hlt := Layout.position_lt (L := R.layout) hi
  have hsize : R.size ≤ R.size * R.cellSize := Nat.le_mul_of_pos_right _ R.cellSize_pos
  rw [Layout.position, if_pos R.layout_remaps] at hlt ⊢
  have hsum := Nat.lt_of_lt_of_le hlt (Nat.le_trans hsize (Nat.le_of_lt R.fits))
  have hproduct := Nat.lt_of_le_of_lt (Nat.le_add_right ..) hsum
  rw [get, numCacheLines_eq]
  change sizeT (sizeT (i % R.layout.numCacheLines * R.layout.cellsPerCacheLine) + _) = _
  rw [sizeT_eq hproduct, sizeT_eq hsum]

/-- **A remap permutes the cells, and keeps neighbouring tickets on different cache lines.** -/
theorem spreads :
    Set.BijOn R.get (Set.Iio R.size) (Set.Iio R.size)
      ∧ (∀ t u, R.get (t % R.size) = R.get (u % R.size) ↔ t ≡ u [MOD R.size])
      ∧ ∀ t u, t ≠ u → t < u + R.size * R.cellSize / R.cacheLineSize →
        u < t + R.size * R.cellSize / R.cacheLineSize →
        R.get (t % R.size) / (R.cacheLineSize / R.cellSize)
          ≠ R.get (u % R.size) / (R.cacheLineSize / R.cellSize) := by
  have hget : ∀ t, R.get (t % R.size) = R.layout.position (t % R.size) := fun t =>
    R.get_eq (Nat.mod_lt t R.size_pos)
  refine ⟨⟨fun i hi => ?_, fun i hi j hj heq => ?_, fun p hp => ?_⟩, fun t u => ?_,
    fun t u hne htu hut => ?_⟩
  · have hlt := Layout.position_lt (L := R.layout) hi
    rwa [← R.get_eq hi] at hlt
  · rw [R.get_eq hi, R.get_eq hj] at heq
    exact Layout.position_inj (L := R.layout) hi hj heq
  · obtain ⟨i, hi, heq⟩ := Layout.exists_position (L := R.layout) hp
    exact ⟨i, hi, (R.get_eq hi).trans heq⟩
  · rw [hget, hget]
    refine ⟨fun heq => ?_, fun heq => congrArg _ heq⟩
    exact Layout.position_inj (L := R.layout) (Nat.mod_lt t R.size_pos)
      (Nat.mod_lt u R.size_pos) heq
  · rw [hget, hget]
    exact Layout.position_div_ne R.layout_remaps hne htu hut

example : (List.range 4).map ring.get = [0, 8, 16, 24] := by decide

end CacheRemap

end QueueFairness
