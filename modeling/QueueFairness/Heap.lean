import Mathlib.Logic.Function.Basic
import Mathlib.Tactic.Common

/-!
# Heap objects

An allocator that never hands out an address twice: an object is what its address says, and it is
there from its allocation to its deletion.
-/

namespace QueueFairness

inductive Status where
  | unallocated
  | allocated
  | deleted
  deriving DecidableEq

/-- `delete` of one object after another; `none` when one of them is not there. -/
def deleteAll : (Nat → Status) → List Nat → Option (Nat → Status)
  | status, [] => some status
  | status, n :: ns =>
      if status n = .allocated then deleteAll (Function.update status n .deleted) ns else none

theorem deleteAll_eq_some {status : Nat → Status} {ns : List Nat} (hnodup : ns.Nodup)
    (hall : ∀ n ∈ ns, status n = .allocated) :
    deleteAll status ns = some fun n => if n ∈ ns then .deleted else status n := by
  induction ns generalizing status with
  | nil => simp [deleteAll]
  | cons m ns ih =>
      obtain ⟨hm, hnodup⟩ := List.nodup_cons.mp hnodup
      have hrest : ∀ n ∈ ns, Function.update status m .deleted n = .allocated := by
        intro n hn
        have hnm : n ≠ m := fun heq => hm (heq ▸ hn)
        rw [Function.update_of_ne hnm]
        exact hall n (List.mem_cons_of_mem m hn)
      rw [deleteAll, if_pos (hall m List.mem_cons_self), ih hnodup hrest]
      congr 1
      funext n
      by_cases hnm : n = m
      · simp [hnm]
      · simp [hnm]

end QueueFairness
