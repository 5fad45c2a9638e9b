import Mathlib.Algebra.Order.Group.Nat
import Mathlib.Data.Nat.Basic

/-!
# Where a ticket's cell lies

`CacheRemap.hpp`: the cells of an array are visited in an order that puts neighbouring tickets on
different cache lines. The template parameters and the static assertions that admit them are one
structure.
-/

namespace QueueFairness

/-- `ConditionalCacheRemap<remap, size, cell_size, cache_line_size>`. -/
structure Layout where
  remap : Bool
  size : Nat
  cellSize : Nat
  cacheLineSize : Nat
  size_pos : 0 < size
  cellSize_pos : 0 < cellSize
  cacheLineSize_pos : 0 < cacheLineSize
  line_dvd : remap ∧ cacheLineSize ≤ size * cellSize → cacheLineSize % cellSize = 0
  size_dvd : remap ∧ cacheLineSize ≤ size * cellSize → size * cellSize % cacheLineSize = 0

namespace Layout

variable (L : Layout)

def cellsPerCacheLine : Nat := L.cacheLineSize / L.cellSize

def numCacheLines : Nat := L.size * L.cellSize / L.cacheLineSize

/-- `remap[i]`, of `CacheRemap` or of `IdentityRemap`. -/
def position (i : Nat) : Nat :=
  if L.remap ∧ L.cacheLineSize ≤ L.size * L.cellSize then
    i % L.numCacheLines * L.cellsPerCacheLine + i / L.numCacheLines
  else
    i

/-- `IdentityRemap` for `size` cells of one byte. -/
def identity (size : Nat) (hsize : 0 < size) : Layout where
  remap := false
  size := size
  cellSize := 1
  cacheLineSize := 128
  size_pos := hsize
  cellSize_pos := Nat.one_pos
  cacheLineSize_pos := by decide
  line_dvd h := by simp at h
  size_dvd h := by simp at h

variable {L}

/-- The array is its cache lines. -/
theorem size_eq (h : L.remap ∧ L.cacheLineSize ≤ L.size * L.cellSize) :
    L.size = L.numCacheLines * L.cellsPerCacheLine := by
  have hline : L.cacheLineSize = L.cellsPerCacheLine * L.cellSize :=
    (Nat.div_mul_cancel (Nat.dvd_of_mod_eq_zero (L.line_dvd h))).symm
  have hsize : L.size * L.cellSize = L.numCacheLines * L.cacheLineSize :=
    (Nat.div_mul_cancel (Nat.dvd_of_mod_eq_zero (L.size_dvd h))).symm
  refine Nat.eq_of_mul_eq_mul_right L.cellSize_pos ?_
  calc L.size * L.cellSize = L.numCacheLines * L.cacheLineSize := hsize
    _ = L.numCacheLines * (L.cellsPerCacheLine * L.cellSize) := by rw [← hline]
    _ = L.numCacheLines * L.cellsPerCacheLine * L.cellSize := (Nat.mul_assoc ..).symm

theorem div_lt_cellsPerCacheLine (h : L.remap ∧ L.cacheLineSize ≤ L.size * L.cellSize) {i : Nat}
    (hi : i < L.size) : i / L.numCacheLines < L.cellsPerCacheLine := by
  rw [size_eq h] at hi
  exact Nat.div_lt_of_lt_mul hi

/-- The cache line a cell lies on. -/
theorem position_div (h : L.remap ∧ L.cacheLineSize ≤ L.size * L.cellSize) {i : Nat}
    (hi : i < L.size) : L.position i / L.cellsPerCacheLine = i % L.numCacheLines := by
  have hplace := div_lt_cellsPerCacheLine h hi
  rw [position, if_pos h, Nat.mul_comm, Nat.mul_add_div (Nat.zero_lt_of_lt hplace),
    Nat.div_eq_of_lt hplace, Nat.add_zero]

/-- Different tickets of one round have different cells. -/
theorem position_inj {i j : Nat} (hi : i < L.size) (hj : j < L.size)
    (heq : L.position i = L.position j) : i = j := by
  by_cases h : L.remap ∧ L.cacheLineSize ≤ L.size * L.cellSize
  · -- The line and the place in the line are the two digits of a cell's position.
    have hline : i % L.numCacheLines = j % L.numCacheLines := by
      rw [← position_div h hi, ← position_div h hj, heq]
    have hplace : i / L.numCacheLines = j / L.numCacheLines := by
      rw [position, position, if_pos h, if_pos h, hline] at heq
      exact Nat.add_left_cancel heq
    rw [← Nat.div_add_mod i L.numCacheLines, ← Nat.div_add_mod j L.numCacheLines, hline, hplace]
  · rw [position, position, if_neg h, if_neg h] at heq
    exact heq

end Layout

/-- The value of a `size_t` expression. -/
def sizeT (x : Nat) : Nat := x % 2 ^ 64

/-- `CacheRemap<size, cell_size, cache_line_size>` as `ConditionalCacheRemap` picks it: its static
assertions hold, and the array is at least one cache line. -/
structure CacheRemap where
  size : Nat
  cellSize : Nat
  cacheLineSize : Nat
  size_pos : 0 < size
  cellSize_pos : 0 < cellSize
  cacheLineSize_pos : 0 < cacheLineSize
  fits : size * cellSize < 2 ^ 64
  line_le : cacheLineSize ≤ size * cellSize
  line_dvd : cacheLineSize % cellSize = 0
  size_dvd : sizeT (size * cellSize) % cacheLineSize = 0

namespace CacheRemap

variable (R : CacheRemap)

def cellsPerCacheLine : Nat := R.cacheLineSize / R.cellSize

def numCacheLines : Nat := sizeT (R.size * R.cellSize) / R.cacheLineSize

/-- `operator []`, in `size_t`. -/
def get (i : Nat) : Nat :=
  sizeT (sizeT (i % R.numCacheLines * R.cellsPerCacheLine) + i / R.numCacheLines)

/-- The remap of the rings of the benchmark: `PRQueueAdapter<int, false, 1024, true>`. -/
def ring : CacheRemap where
  size := 1024
  cellSize := 16
  cacheLineSize := 128
  size_pos := by decide
  cellSize_pos := by decide
  cacheLineSize_pos := by decide
  fits := by decide
  line_le := by decide
  line_dvd := by decide
  size_dvd := by decide

end CacheRemap

end QueueFairness
