import QueueFairness.HazardPointers
import QueueFairness.Heap
import QueueFairness.Lib.ProtectedList

/-!
# Retiring through the hazard-pointer table

`retire` as moves on a list whose nodes are freed: how far a scan has come through the table says in
which slots the object at hand was not found.
-/

namespace QueueFairness.HazardPointers

open Interleaving (Tid)
open ProtectedList

/-- A queue's list of nodes with its table. -/
def asList (next : Nat → Option Nat) (status : Nat → Status) (head tail : Nat)
    (H : HazardPointers) : State Nat where
  next := next
  allocated n := status n = .allocated
  head := head
  tail := tail
  slot := H.hp
  retired := H.retiredList

/-- The slots that `retire` compares with an object. -/
def Scanned (maxThreads : Nat) (u : Tid) (j : Nat) : Prop := u < maxThreads ∧ j < maxHPs

/-- The slots that were compared with the object at hand. -/
def Scan.Passed : Scan → Tid → Nat → Prop
  | .load _ _ row slot, u, j => u < row ∨ u = row ∧ slot < j
  | .erase _ _, _, _ => True

def Scan.index : Scan → Nat
  | .load iret _ _ _ | .erase iret _ => iret

def Scan.obj : Scan → Nat
  | .load _ obj _ _ | .erase _ obj => obj

/-- What a thread knows during `retire`. -/
def ScanLoc (x : Ghost Nat) (t : Tid) (scan : Scan) : Prop :=
  ∃ q, (x.dropped t)[scan.index]? = some q ∧ x.node q = scan.obj ∧ Scanning x t scan.Passed q

variable {maxThreads : Nat} {t : Tid} {x x' : Ghost Nat} {s s' : State Nat}
  {next : Nat → Option Nat} {status : Nat → Status} {head tail : Nat} {H : HazardPointers}

theorem ScanLoc.stable {scan : Scan} (hl : ScanLoc x t scan) (hw : Inv (Scanned maxThreads) x s)
    (h : Rely t x s x' s') : ScanLoc x' t scan := by
  obtain ⟨q, hq, hobj, hs⟩ := hl
  have hlt := Nat.lt_trans hs.lt_first hw.first_lt
  exact ⟨q, h.dropped ▸ hq, (h.node hlt).trans hobj, h.scanning hs⟩

theorem scanLoc_scanFrom (hw : Inv (Scanned maxThreads) x s) (hs : Settled x t) (iret : Nat)
    {scan : Scan} (h : scanFrom maxThreads (s.retired t) iret = some scan) : ScanLoc x t scan := by
  obtain ⟨obj, hobj, rfl⟩ := Option.map_eq_some_iff.mp h
  rw [hw.retired, List.getElem?_map] at hobj
  obtain ⟨q, hq, rfl⟩ := Option.map_eq_some_iff.mp hobj
  have hmem := List.mem_of_getElem? hq
  split
  · refine ⟨q, hq, rfl, hs.scanning hw hmem fun u j hp hsc => ?_⟩
    rcases hp with hp | ⟨-, hp⟩
    · exact Nat.not_lt_zero u hp
    · exact absurd hsc.2 (Nat.not_lt.mpr hp)
  · rename_i hzero
    exact ⟨q, hq, rfl, hs.scanning hw hmem fun u j _ hsc =>
      hzero (Nat.lt_of_le_of_lt u.zero_le hsc.1)⟩

theorem scanLoc_afterLoad (hw : Inv (Scanned maxThreads) x s) (hs : Settled x t)
    {iret obj row slot : Nat} (hl : ScanLoc x t (.load iret obj row slot)) {scan : Scan}
    (h : afterLoad maxThreads (s.retired t) iret obj row slot (s.slot row slot == some obj)
      = some scan) : ScanLoc x t scan := by
  obtain ⟨q, hq, hobj, hscanning⟩ := hl
  unfold afterLoad at h
  split at h
  · exact scanLoc_scanFrom hw hs _ h
  rename_i hfound
  have hslot : s.slot row slot ≠ some (x.node q) := by simpa [hobj, Scan.obj] using hfound
  split at h
  · obtain rfl := Option.some.inj h
    refine ⟨q, hq, hobj, hscanning.pass hw hslot fun v k hp => ?_⟩
    rcases hp with hp | ⟨rfl, hp⟩
    · exact .inl (.inl hp)
    · by_cases hk : k = slot
      · exact .inr (.inl ⟨rfl, hk⟩)
      · exact .inl (.inr ⟨rfl, by omega⟩)
  rename_i hzero
  -- The row is over.
  have hrow : ∀ v k, v < row + 1 → v < row ∨ v = row ∧ slot < k ∨ v = row ∧ k = slot := by
    intro v k hv
    have hv : v < row ∨ v = row := Nat.lt_succ_iff_lt_or_eq.mp hv
    exact hv.imp_right fun hv => by
      by_cases hk : k = slot
      · exact .inr ⟨hv, hk⟩
      · exact .inl ⟨hv, by omega⟩
  split at h
  · obtain rfl := Option.some.inj h
    refine ⟨q, hq, hobj, hscanning.pass hw hslot fun v k hp => ?_⟩
    rcases hp with hp | ⟨rfl, hp⟩
    · rcases hrow v k hp with hp | hp | hp
      · exact .inl (.inl hp)
      · exact .inl (.inr hp)
      · exact .inr (.inl hp)
    · exact .inr (.inr fun hsc => absurd hsc.2 (Nat.not_lt.mpr hp))
  · rename_i hlast
    obtain rfl := Option.some.inj h
    refine ⟨q, hq, hobj, hscanning.pass hw hslot fun v k _ => ?_⟩
    by_cases hv : v < row + 1
    · rcases hrow v k hv with hp | hp | hp
      · exact .inl (.inl hp)
      · exact .inl (.inr hp)
      · exact .inr (.inl hp)
    · exact .inr (.inr fun hsc => hv (Nat.lt_of_lt_of_le hsc.1 (Nat.not_lt.mp hlast)))

/-- **A step of `retire` frees only what nobody protects.** -/
theorem scanStep_moves {scan : Scan}
    (hw : Inv (Scanned maxThreads) x (asList next status head tail H)) (hs : Settled x t)
    (hl : ScanLoc x t scan) :
    ∃ x', Move (Scanned maxThreads) t x (asList next status head tail H) x'
        (asList next ((scanStep maxThreads t H scan).2.2.elim status
            fun obj => Function.update status obj .deleted)
          head tail (scanStep maxThreads t H scan).1)
      ∧ Settled x' t
      ∧ (∀ scan', (scanStep maxThreads t H scan).2.1 = some scan' → ScanLoc x' t scan')
      ∧ ∀ {strict unlinked}, Books strict x t none unlinked → Books strict x' t none unlinked := by
  cases scan with
  | load iret obj row slot =>
      exact ⟨x, .stay, hs, fun scan' h => scanLoc_afterLoad hw hs hl h, id⟩
  | erase iret obj =>
      obtain ⟨q, hq, hobj, hscanning⟩ := hl
      obtain ⟨hlast, hclear⟩ := hscanning.clear_all hw fun _ _ _ => trivial
      have hmove : Move (Scanned maxThreads) t x (asList next status head tail H) _ _ :=
        .free iret q hq hlast hclear
      have hview : asList next (Function.update status obj .deleted) head tail
          (H.setRetired t ((H.retiredList t).eraseIdx iret))
          = { asList next status head tail H with
              allocated :=
                Function.update (asList next status head tail H).allocated (x.node q) False
              retired := Function.update (asList next status head tail H).retired t
                (((asList next status head tail H).retired t).eraseIdx iret) } := by
        have hobj : x.node q = obj := hobj
        simp only [asList, setRetired, State.mk.injEq, true_and, and_true]
        funext n
        by_cases hn : n = obj
        · simp [hn, hobj]
        · simp [hn, hobj]
      have hs' : Settled { x with
          gone := Function.update x.gone q True
          dropped := Function.update x.dropped t ((x.dropped t).eraseIdx iret) } t := fun r hr =>
        hs r (List.mem_of_mem_eraseIdx (by simpa using hr))
      refine ⟨_, by simpa only [scanStep, Option.elim_some, hview] using hmove, hs',
        fun scan' h => scanLoc_scanFrom (hmove.inv hw) hs' iret ?_, fun hb => hb.free hq⟩
      simpa [scanStep, asList] using h

end QueueFairness.HazardPointers
