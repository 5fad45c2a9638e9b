import QueueFairness.FAAArrayQueue
import QueueFairness.LinkedRingQueue

/-!
# The arrays of the hazard-pointer tables

A table has rows for 128 threads. A thread stays in its own row and, when it scans, in the rows of
the threads the queue was made for.
-/

namespace QueueFairness

open Interleaving HazardPointers

namespace HazardPointers

variable {maxThreads iret obj row slot : Nat} {ptrs : List Nat} {found : Bool} {t : Tid}
  {H : HazardPointers} {scan scan' : Scan}

/-- A scan compares slots of the threads it knows of. -/
def Scan.Within (maxThreads : Nat) : Scan → Prop
  | .load _ _ row slot => row < maxThreads ∧ slot < maxHPs
  | .erase _ _ => True

theorem within_scanFrom (h : scanFrom maxThreads ptrs iret = some scan) :
    scan.Within maxThreads := by
  obtain ⟨obj, -, rfl⟩ := Option.map_eq_some_iff.mp h
  split
  · rename_i hpos
    exact ⟨hpos, by decide⟩
  · trivial

theorem within_afterLoad (hrow : row < maxThreads) (hslot : slot < maxHPs)
    (h : afterLoad maxThreads ptrs iret obj row slot found = some scan) :
    scan.Within maxThreads := by
  unfold afterLoad at h
  split at h
  · exact within_scanFrom h
  split at h
  · obtain rfl := Option.some.inj h
    exact ⟨hrow, Nat.lt_of_le_of_lt (Nat.sub_le ..) hslot⟩
  split at h
  · rename_i hnext
    obtain rfl := Option.some.inj h
    exact ⟨hnext, by decide⟩
  · obtain rfl := Option.some.inj h
    trivial

theorem within_scanStep (hw : scan.Within maxThreads)
    (h : (scanStep maxThreads t H scan).2.1 = some scan') : scan'.Within maxThreads := by
  cases scan with
  | load iret obj row slot => exact within_afterLoad hw.1 hw.2 h
  | erase iret obj => exact within_scanFrom h

theorem inBounds_slotOf {index : Nat} :
    (slotOf t index).InBounds ↔ t < hpMaxThreads ∧ index < hpMaxHPs := by
  refine and_congr_left fun _ => ?_
  exact Nat.mul_lt_mul_right (by decide)

theorem inBounds_listOf : (listOf t).InBounds ↔ t < hpMaxThreads :=
  Nat.mul_lt_mul_right (by decide)

/-- What a thread gets at on its own account. -/
theorem inBounds_own (ht : t < hpMaxThreads) {index : Nat} (hindex : index < maxHPs) :
    (slotOf t index).InBounds :=
  inBounds_slotOf.mpr ⟨ht, Nat.lt_trans hindex (by decide)⟩

theorem inBounds_scan (ht : t < hpMaxThreads) (hmax : maxThreads ≤ hpMaxThreads)
    (hw : scan.Within maxThreads) : ∀ a ∈ scan.tableAccesses t, a.InBounds := by
  cases scan with
  | load iret obj row slot =>
      refine List.forall_mem_cons.mpr ⟨inBounds_listOf.mpr ht, List.forall_mem_singleton.mpr ?_⟩
      exact inBounds_own (Nat.lt_of_lt_of_le hw.1 hmax) hw.2
  | erase iret obj => exact List.forall_mem_singleton.mpr (inBounds_listOf.mpr ht)

end HazardPointers

namespace LinkedRingQueue

variable {σ κe κd : Type} {S : SegmentType σ κe κd} {maxThreads : Nat} {t : Tid} {i : Input}
  {g g' : Shared σ} {l l' : Local κe κd} {es : List Event}
  {c : Config (Shared σ) (Local κe κd) Event}

/-- The slots that are read or cleared in a loop are there. -/
def Local.Within (maxThreads : Nat) : Local κe κd → Prop
  | .sizeClear ihp _ => ihp < maxHPs
  | .deqScan _ scan => scan.Within maxThreads
  | _ => True

theorem within_afterScan {lnext : Nat} {scan : Option Scan}
    (h : ∀ scan', scan = some scan' → scan'.Within maxThreads) :
    (afterScan lnext scan : Local κe κd).Within maxThreads := by
  cases scan with
  | none => trivial
  | some scan => exact h scan rfl

theorem step_within (h : step S maxThreads t i g l = some (g', l', es)) (hw : l.Within maxThreads) :
    l'.Within maxThreads := by
  cases l with
  | idle =>
      obtain ⟨op, -, h⟩ := Option.map_eq_some_iff.mp h
      cases op <;> cases h <;> trivial
  | enqSegment item ltail l =>
      obtain rfl : _ = l' := congrArg (·.2.1) (Option.some.inj h)
      simp only [enqueueStep]
      split <;> trivial
  | enqNewSegment item ltail newTail l =>
      obtain rfl : _ = l' := congrArg (·.2.1) (Option.some.inj h)
      simp only [enqueueStep]
      split <;> trivial
  | deqSegment lhead l =>
      obtain rfl : _ = l' := congrArg (·.2.1) (Option.some.inj h)
      simp only [dequeueStep]
      split <;> trivial
  | deqSegmentAgain lhead lnext l =>
      obtain rfl : _ = l' := congrArg (·.2.1) (Option.some.inj h)
      simp only [dequeueStep]
      split <;> trivial
  | deqRetire lhead lnext =>
      obtain rfl : _ = l' := congrArg (·.2.1) (Option.some.inj h)
      exact within_afterScan fun _ hscan => within_scanFrom hscan
  | deqScan lnext scan =>
      obtain rfl : _ = l' := congrArg (·.2.1) (Option.some.inj h)
      exact within_afterScan fun _ hscan => within_scanStep hw hscan
  | sizeLoadHead lhead t' =>
      cases h
      exact Nat.zero_lt_of_lt (by decide : 1 < maxHPs)
  | sizeClear ihp size =>
      simp only [step] at h
      split at h
      · rename_i hlt
        cases h
        exact hlt
      · cases h
        trivial
  | enqReload | enqLoadNext | enqHelpTail | enqNew | enqCasNext | deqReload | deqLoadNext
  | deqCasHead | sizeProtectHead | sizeProtectTail =>
      simp only [step] at h
      split at h <;> cases h <;> trivial
  | _ =>
      cases h
      trivial

theorem tableAccesses_inBounds (ht : t < hpMaxThreads) (hmax : maxThreads ≤ hpMaxThreads)
    (hw : l.Within maxThreads) : ∀ a ∈ l.tableAccesses t, a.InBounds := by
  have hslots : (slotOf t kHpTail).InBounds ∧ (slotOf t kHpHead).InBounds :=
    ⟨inBounds_own ht (by decide), inBounds_own ht (by decide)⟩
  cases l with
  | deqScan lnext scan => exact inBounds_scan ht hmax hw
  | sizeClear ihp size => exact List.forall_mem_singleton.mpr (inBounds_own ht hw)
  | deqRetire => exact List.forall_mem_singleton.mpr (inBounds_listOf.mpr ht)
  | _ => simp [Local.tableAccesses, hslots]

/-- **No thread of the queue leaves the arrays.** -/
theorem Reach.tableAccesses_inBounds
    {ok : Config (Shared σ) (Local κe κd) Event → Tid → Input → Prop}
    (h : (program S maxThreads).Reach ok c) (hmax : maxThreads ≤ hpMaxThreads)
    (ht : t < hpMaxThreads) : ∀ a ∈ (c.locals t).tableAccesses t, a.InBounds :=
  LinkedRingQueue.tableAccesses_inBounds ht hmax
    (h.locals (K := Local.Within maxThreads) (by trivial) step_within t)

end LinkedRingQueue

namespace FAAArrayQueue

variable {L : Layout} {maxThreads : Nat} {t : Tid} {i : Input} {g g' : Shared} {l l' : Local}
  {es : List Event} {c : Config Shared Local Event}

/-- The slots that are read in a loop are there. -/
def Local.Within (maxThreads : Nat) : Local → Prop
  | .deqScan scan => scan.Within maxThreads
  | _ => True

theorem within_afterScan {scan : Option Scan}
    (h : ∀ scan', scan = some scan' → scan'.Within maxThreads) :
    (afterScan scan).Within maxThreads := by
  cases scan with
  | none => trivial
  | some scan => exact h scan rfl

theorem step_within (h : step L maxThreads t i g l = some (g', l', es)) (hw : l.Within maxThreads) :
    l'.Within maxThreads := by
  cases l with
  | idle =>
      obtain ⟨op, -, h⟩ := Option.map_eq_some_iff.mp h
      cases op <;> cases h <;> trivial
  | deqRetire lhead =>
      obtain rfl : _ = l' := congrArg (·.2.1) (Option.some.inj h)
      exact within_afterScan fun _ hscan => within_scanFrom hscan
  | deqScan scan =>
      obtain rfl : _ = l' := congrArg (·.2.1) (Option.some.inj h)
      exact within_afterScan fun _ hscan => within_scanStep hw hscan
  | enqProtect | enqFetchAdd | enqCheckTail | enqLoadNext | enqNewNode | enqCasNext | deqProtect
  | deqFetchAdd | deqLoadNext | deqCasHead | deqLoadEnqidx | deqSpin | deqExchange
  | deqReloadEnqidx | deqCheckNext =>
      simp only [step] at h
      split at h <;> cases h <;> trivial
  | enqCasCell | deqLoadCell =>
      simp only [step] at h
      split at h
      · cases h
      split at h <;> cases h <;> trivial
  | _ =>
      cases h
      trivial

theorem tableAccesses_inBounds (ht : t < hpMaxThreads) (hmax : maxThreads ≤ hpMaxThreads)
    (hw : l.Within maxThreads) : ∀ a ∈ l.tableAccesses t, a.InBounds := by
  have hslots : (slotOf t kHpTail).InBounds ∧ (slotOf t kHpHead).InBounds :=
    ⟨inBounds_own ht (by decide), inBounds_own ht (by decide)⟩
  cases l with
  | deqScan scan => exact inBounds_scan ht hmax hw
  | deqRetire => exact List.forall_mem_singleton.mpr (inBounds_listOf.mpr ht)
  | _ => simp [Local.tableAccesses, hslots]

/-- **No thread of the queue leaves the arrays.** -/
theorem Reach.tableAccesses_inBounds {ok : Config Shared Local Event → Tid → Input → Prop}
    (h : (program L maxThreads).Reach ok c) (hmax : maxThreads ≤ hpMaxThreads)
    (ht : t < hpMaxThreads) : ∀ a ∈ (c.locals t).tableAccesses t, a.InBounds :=
  FAAArrayQueue.tableAccesses_inBounds ht hmax (h.locals (K := Local.Within maxThreads) (by trivial)
    step_within t)

end FAAArrayQueue

end QueueFairness
