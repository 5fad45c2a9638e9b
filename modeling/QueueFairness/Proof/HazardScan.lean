import QueueFairness.HazardPointers

/-!
# The length of a scan

`retire` compares each object on the thread's list with two slots of every thread, and deletes it or
goes on to the next. Whatever the others write to the table meanwhile, the steps it has left become
fewer with each step it takes.
-/

namespace QueueFairness.HazardPointers

open Interleaving (Tid)

/-- The steps that one object may cost. -/
def perObject (maxThreads : Nat) : Nat := 2 * maxThreads + 1

/-- The steps left, on a list of `length` objects. -/
def Scan.left (maxThreads length : Nat) : Scan → Nat
  | .load iret _ row slot =>
      (length - (iret + 1)) * perObject maxThreads + (2 * (maxThreads - (row + 1)) + slot + 2)
  | .erase iret _ => (length - (iret + 1)) * perObject maxThreads + 1

/-- The steps left of a scan that may be over. -/
def scanLeft (maxThreads length : Nat) (scan : Option Scan) : Nat :=
  scan.elim 0 (Scan.left maxThreads length)

variable {maxThreads iret : Nat} {ptrs : List Nat} {t : Tid} {H : HazardPointers} {scan : Scan}

/-- What the objects from one on may cost. -/
theorem scanLeft_scanFrom : scanLeft maxThreads ptrs.length (scanFrom maxThreads ptrs iret)
    ≤ (ptrs.length - iret) * perObject maxThreads := by
  unfold scanFrom
  cases hobj : ptrs[iret]? with
  | none => exact Nat.zero_le _
  | some obj =>
      obtain ⟨hlt, -⟩ := List.getElem?_eq_some_iff.mp hobj
      have hone : (ptrs.length - iret) * perObject maxThreads
          = (ptrs.length - (iret + 1)) * perObject maxThreads + perObject maxThreads := by
        rw [← Nat.succ_mul]
        congr 1
        omega
      rw [hone]
      simp only [Option.map_some, scanLeft, Option.elim_some]
      split
      · simp only [Scan.left, perObject, maxHPs]
        omega
      · simp only [Scan.left, perObject]
        omega

/-- **Every step of `retire` leaves fewer of them**, whatever is in the table. -/
theorem scanLeft_scanStep :
    scanLeft maxThreads ((scanStep maxThreads t H scan).1.retiredList t).length
      (scanStep maxThreads t H scan).2.1
    < scan.left maxThreads (H.retiredList t).length := by
  cases scan with
  | load iret obj row slot =>
      simp only [scanStep, afterLoad, Scan.left]
      split
      · have hfrom : scanLeft maxThreads (H.retiredList t).length
              (scanFrom maxThreads (H.retiredList t) (iret + 1))
            ≤ ((H.retiredList t).length - (iret + 1)) * perObject maxThreads := scanLeft_scanFrom
        omega
      · split
        · simp only [scanLeft, Option.elim_some, Scan.left]
          omega
        · split
          · simp only [scanLeft, Option.elim_some, Scan.left, maxHPs]
            omega
          · simp only [scanLeft, Option.elim_some, Scan.left]
            omega
  | erase iret obj =>
      have hlist : ((H.setRetired t ((H.retiredList t).eraseIdx iret)).retiredList t)
          = (H.retiredList t).eraseIdx iret := by
        simp [setRetired]
      simp only [scanStep, hlist, Scan.left]
      refine Nat.lt_succ_of_le (Nat.le_trans scanLeft_scanFrom (Nat.mul_le_mul_right _ ?_))
      rw [List.length_eraseIdx]
      split <;> omega

/-- A step of `retire` leaves the lists of the others alone. -/
theorem scanStep_retiredList_of_ne {u : Tid} (hu : u ≠ t) :
    (scanStep maxThreads t H scan).1.retiredList u = H.retiredList u := by
  cases scan with
  | load => rfl
  | erase iret obj => simp [scanStep, setRetired, hu]

/-- A step of `retire` adds nothing to the list of its thread. -/
theorem length_scanStep_le :
    ((scanStep maxThreads t H scan).1.retiredList t).length ≤ (H.retiredList t).length := by
  cases scan with
  | load => exact Nat.le_refl _
  | erase iret obj =>
      simp only [scanStep, setRetired, Function.update_self]
      exact List.length_eraseIdx_le ..

end QueueFairness.HazardPointers
