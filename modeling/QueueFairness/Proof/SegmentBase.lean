import QueueFairness.LinkedRingQueue

/-!
# The counters of a ring segment

Whatever closes a segment or repairs its state, its tail does not go back and does not open again.
-/

namespace QueueFairness.SegmentBase

/-- A compare-and-swap of `fixState` raises the tail. -/
def Fix.Raises : Fix → Prop
  | .cas t h => t.flag = false ∧ t.index < h
  | _ => True

theorem closeSegment_tail (b : SegmentBase) (k : Nat) (force : Bool) :
    (b.closeSegment k force).1.head = b.head
      ∧ (b.closeSegment k force).1.tail.index = b.tail.index := by
  unfold closeSegment
  split
  · exact ⟨rfl, rfl⟩
  · split
    · rename_i htail
      exact ⟨rfl, by rw [htail]⟩
    · exact ⟨rfl, rfl⟩

theorem fixStep_spec (b : SegmentBase) {l : Fix} (hl : l.Raises) :
    (b.fixStep l).1.head = b.head ∧ b.tail.index ≤ (b.fixStep l).1.tail.index
      ∧ ∀ l', (b.fixStep l).2 = some l' → l'.Raises := by
  cases l with
  | loadTail => exact ⟨rfl, Nat.le_refl _, fun l' hl' => Option.some.inj hl' ▸ trivial⟩
  | loadHead t => exact ⟨rfl, Nat.le_refl _, fun l' hl' => Option.some.inj hl' ▸ trivial⟩
  | reload t h =>
      simp only [fixStep]
      split
      · exact ⟨rfl, Nat.le_refl _, fun l' hl' => Option.some.inj hl' ▸ trivial⟩
      · split
        · rename_i hraise
          exact ⟨rfl, Nat.le_refl _, fun l' hl' => Option.some.inj hl' ▸ hraise⟩
        · exact ⟨rfl, Nat.le_refl _, fun l' hl' => by cases hl'⟩
  | cas t h =>
      simp only [fixStep]
      split
      · rename_i htail
        exact ⟨rfl, htail ▸ Nat.le_of_lt hl.2, fun l' hl' => by cases hl'⟩
      · exact ⟨rfl, Nat.le_refl _, fun l' hl' => Option.some.inj hl' ▸ trivial⟩

theorem closeSegment_closed {b : SegmentBase} {k : Nat} {force : Bool}
    (h : (b.closeSegment k force).2 = true) : (b.closeSegment k force).1.tail.flag = true := by
  unfold closeSegment at h ⊢
  split
  · rfl
  · split
    · rfl
    · simp_all

theorem closeSegment_keeps (b : SegmentBase) (k : Nat) (force : Bool) (h : b.tail.flag = true) :
    (b.closeSegment k force).1.tail.flag = true := by
  unfold closeSegment
  split
  · rfl
  · split
    · rfl
    · exact h

theorem fixStep_keeps {b : SegmentBase} {l : Fix} (hl : l.Raises) (h : b.tail.flag = true) :
    (b.fixStep l).1.tail.flag = true := by
  cases l with
  | loadTail | loadHead => exact h
  | reload t hd =>
      simp only [fixStep]
      repeat' split
      all_goals exact h
  | cas t hd =>
      simp only [fixStep]
      split
      · rename_i htail
        rw [htail, hl.1] at h
        cases h
      · exact h

end QueueFairness.SegmentBase
