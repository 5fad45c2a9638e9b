import Mathlib.Data.List.Basic
import Mathlib.Order.Lattice

/-!
# Overtaking

Pairs of a place in one order and a place in another: a pair overtakes those that come earlier than
it in the first order and later in the second. How deep every pair is overtaken does not depend on
the order in which the pairs are listed.
-/

namespace Overtaking

variable {α β : Type} [LinearOrder α] [LinearOrder β]

/-- How many of the pairs overtake `i`. -/
def depth (pairs : List (α × β)) (i : α × β) : Nat :=
  pairs.countP fun j => i.1 < j.1 ∧ j.2 < i.2

/-- How deep every pair is overtaken. -/
def depths (pairs : List (α × β)) : List Nat := pairs.map (depth pairs)

variable {pairs pairs' front back : List (α × β)} {i : α × β}

theorem depth_le : depth pairs i ≤ pairs.length := List.countP_le_length

theorem depth_perm (h : pairs.Perm pairs') : depth pairs = depth pairs' :=
  funext fun _ => h.countP_eq _

theorem depths_perm (h : pairs.Perm pairs') : (depths pairs).Perm (depths pairs') := by
  rw [depths, depths, depth_perm h]
  exact h.map _

/-- When the pairs are listed in the first order, those that come later in it decide. -/
theorem depth_append (hfront : ∀ j ∈ front, j.1 ≤ i.1) (hback : ∀ j ∈ back, i.1 < j.1) :
    depth (front ++ back) i = back.countP fun j => j.2 < i.2 := by
  rw [depth, List.countP_append, List.countP_eq_zero.mpr fun j hj => ?_, Nat.zero_add]
  · refine List.countP_congr fun j hj => ?_
    simp [hback j hj]
  · simp [not_lt.mpr (hfront j hj)]

end Overtaking
