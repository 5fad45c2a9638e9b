import Mathlib.Data.List.Basic

/-!
# Occurrences

What happens at some place of a list, looked at together with all that comes before it.
-/

namespace Occurrence

variable {β : Type} {P : List β → β → Prop}

/-- `P` holds of an element and what comes before it. -/
def Occurs (P : List β → β → Prop) (l : List β) : Prop :=
  ∃ before x rest, l = before ++ x :: rest ∧ P before x

@[simp]
theorem occurs_nil : ¬ Occurs P [] := by
  rintro ⟨before, x, rest, hl, -⟩
  simp at hl

@[simp]
theorem occurs_cons {x : β} {l : List β} :
    Occurs P (x :: l) ↔ P [] x ∨ Occurs (fun before => P (x :: before)) l := by
  constructor
  · rintro ⟨before, y, rest, hl, hP⟩
    cases before with
    | nil =>
        obtain ⟨rfl, rfl⟩ := List.cons.inj hl
        exact .inl hP
    | cons z before =>
        obtain ⟨rfl, rfl⟩ := List.cons.inj hl
        exact .inr ⟨before, y, rest, rfl, hP⟩
  · rintro (hP | ⟨before, y, rest, rfl, hP⟩)
    · exact ⟨[], x, l, rfl, hP⟩
    · exact ⟨x :: before, y, rest, rfl, hP⟩

/-- A list looked at from where `pre` has come before. -/
theorem occurs_append_cons {pre l : List β} {x : β} :
    Occurs (fun before => P (pre ++ before)) (x :: l)
      ↔ P pre x ∨ Occurs (fun before => P (pre ++ [x] ++ before)) l := by
  rw [occurs_cons, List.append_nil]
  simp only [List.append_assoc, List.singleton_append]

theorem occurs_snoc {l : List β} {x : β} : Occurs P (l ++ [x]) ↔ Occurs P l ∨ P l x := by
  induction l generalizing P with
  | nil => simp
  | cons y l ih => simp only [List.cons_append, occurs_cons, ih, or_assoc]

instance decidableOccurs : ∀ (P : List β → β → Prop) [∀ before x, Decidable (P before x)]
    (l : List β), Decidable (Occurs P l)
  | _, _, [] => .isFalse occurs_nil
  | P, _, x :: l =>
      have := decidableOccurs (fun before => P (x :: before)) l
      decidable_of_iff (P [] x ∨ Occurs (fun before => P (x :: before)) l) occurs_cons.symm

end Occurrence
