import Mathlib.Data.Nat.Bitwise

/-!
# Binary indexing

The intervals of a binary indexed tree: the node at `i` covers the indices from which the lowest set
bit of `i` takes it down. Going up from an index by its lowest set bit meets the nodes that cover
the index, and going down from an index meets nodes whose intervals lie side by side.
-/

namespace BinaryIndexed

/-- The lowest set bit. -/
def lowBit (n : Nat) : Nat :=
  if n = 0 then 0 else if n % 2 = 1 then 1 else 2 * lowBit (n / 2)

/-- The node at `i` covers index `k`. -/
def Covers (i k : Nat) : Prop := i - lowBit i < k ∧ k ≤ i

instance (i k : Nat) : Decidable (Covers i k) := inferInstanceAs (Decidable (_ ∧ _))

@[simp]
theorem lowBit_two_mul (n : Nat) : lowBit (2 * n) = 2 * lowBit n := by
  by_cases hn : n = 0
  · subst hn
    simp [lowBit]
  · rw [lowBit, if_neg (by omega), if_neg (by omega), Nat.mul_div_cancel_left n Nat.two_pos]

@[simp]
theorem lowBit_two_mul_add_one (n : Nat) : lowBit (2 * n + 1) = 1 := by
  rw [lowBit, if_neg (by omega), if_pos (by omega)]

theorem even_or_odd (n : Nat) : (∃ m, n = 2 * m) ∨ ∃ m, n = 2 * m + 1 := by
  rcases Nat.mod_two_eq_zero_or_one n with h | h
  · exact .inl ⟨n / 2, by omega⟩
  · exact .inr ⟨n / 2, by omega⟩

theorem lowBit_le (n : Nat) : lowBit n ≤ n := by
  induction n using Nat.strongRecOn with
  | ind n ih =>
      rcases even_or_odd n with ⟨m, rfl⟩ | ⟨m, rfl⟩
      · rcases Nat.eq_zero_or_pos m with rfl | hm
        · simp [lowBit]
        · have := ih m (by omega)
          rw [lowBit_two_mul]
          omega
      · rw [lowBit_two_mul_add_one]
        omega

theorem lowBit_pos {n : Nat} (hn : 0 < n) : 0 < lowBit n := by
  induction n using Nat.strongRecOn with
  | ind n ih =>
      rcases even_or_odd n with ⟨m, rfl⟩ | ⟨m, rfl⟩
      · have := ih m (by omega) (by omega)
        rw [lowBit_two_mul]
        omega
      · rw [lowBit_two_mul_add_one]
        omega

/-- Going up does not leave the powers of two behind. -/
theorem add_lowBit_le {w n : Nat} (hn : n < 2 ^ w) : n + lowBit n ≤ 2 ^ w := by
  induction w generalizing n with
  | zero =>
      obtain rfl : n = 0 := by omega
      simp [lowBit]
  | succ w ih =>
      rw [Nat.pow_succ'] at hn ⊢
      rcases even_or_odd n with ⟨m, rfl⟩ | ⟨m, rfl⟩
      · have := ih (n := m) (by omega)
        rw [lowBit_two_mul]
        omega
      · rw [lowBit_two_mul_add_one]
        omega

theorem covers_self {i : Nat} (hi : 0 < i) : Covers i i := by
  have := lowBit_pos hi
  exact ⟨by omega, Nat.le_refl i⟩

/-- An odd node covers only its own index. -/
theorem covers_odd {i k : Nat} : Covers (2 * i + 1) k ↔ k = 2 * i + 1 := by
  unfold Covers
  rw [lowBit_two_mul_add_one]
  omega

theorem covers_even {i k : Nat} : Covers (2 * i) (2 * k) ↔ Covers i k := by
  unfold Covers
  rw [lowBit_two_mul]
  omega

/-- An even node covers an odd index with the even one that follows. -/
theorem covers_even_odd {i k : Nat} : Covers (2 * i) (2 * k + 1) ↔ Covers i (k + 1) := by
  unfold Covers
  rw [lowBit_two_mul]
  omega

/-- **The other nodes that cover an index cover the next one on the way up.** -/
theorem covers_next {i k : Nat} (hk : 0 < k) (hne : i ≠ k) :
    Covers i k ↔ Covers i (k + lowBit k) := by
  induction i using Nat.strongRecOn generalizing k with
  | ind i ih =>
      rcases even_or_odd i with ⟨i, rfl⟩ | ⟨i, rfl⟩
      · rcases even_or_odd k with ⟨k, rfl⟩ | ⟨k, rfl⟩
        · rw [lowBit_two_mul, ← Nat.mul_add, covers_even, covers_even]
          rcases Nat.eq_zero_or_pos i with rfl | hi
          · simp [Covers]
            have := lowBit_pos (n := k) (by omega)
            omega
          · exact ih i (by omega) (by omega) (by omega)
        · rw [lowBit_two_mul_add_one, covers_even_odd, show 2 * k + 1 + 1 = 2 * (k + 1) by omega,
            covers_even]
      · rcases even_or_odd k with ⟨k, rfl⟩ | ⟨k, rfl⟩
        · rw [lowBit_two_mul, covers_odd, covers_odd]
          omega
        · rw [lowBit_two_mul_add_one, covers_odd, covers_odd]
          omega

/-- The nodes on the way up lie above the index. -/
theorem not_covers_next {k : Nat} (hk : 0 < k) : ¬ Covers k (k + lowBit k) := fun h => by
  have := lowBit_pos hk
  exact absurd h.2 (by omega)

theorem land_complement {w n : Nat} (hn : n < 2 ^ w) : n &&& (2 ^ w - (n + 1)) = 0 := by
  refine Nat.eq_of_testBit_eq fun i => ?_
  rw [Nat.testBit_and, Nat.testBit_two_pow_sub_succ hn, Nat.zero_testBit]
  cases n.testBit i <;> simp

/-- **The lowest set bit is what a number has in common with its two's complement.** -/
theorem land_neg {w n : Nat} (hpos : 0 < n) (hn : n < 2 ^ w) : n &&& (2 ^ w - n) = lowBit n := by
  induction w generalizing n with
  | zero => omega
  | succ w ih =>
      rw [Nat.pow_succ'] at hn ⊢
      rcases even_or_odd n with ⟨m, rfl⟩ | ⟨m, rfl⟩
      · rw [← Nat.mul_sub, lowBit_two_mul, ← ih (by omega) (by omega)]
        exact Nat.land_bit false m false (2 ^ w - m)
      · have hodd : 2 * 2 ^ w - (2 * m + 1) = 2 * (2 ^ w - (m + 1)) + 1 := by omega
        rw [hodd, lowBit_two_mul_add_one]
        refine (Nat.land_bit true m true (2 ^ w - (m + 1))).trans ?_
        rw [land_complement (by omega)]
        rfl

end BinaryIndexed
