import Mathlib.Data.Nat.ModEq

/-!
# A window on a ring of cells

Tickets count up without end, and `size` cells take them in turns: a ticket names the cell of its
remainder. At any time the `size` tickets from some `h` on name all the cells, each once. The window
holds a list when the first of these cells hold its items, in order, and the others are empty.
-/

namespace TicketWindow

variable {α β : Type}

/-- The cells hold `xs` from ticket `h` on. `full k a` is the cell of ticket `k` with `a` in it, and
`empty k` the cell that waits for it. -/
structure Window (size : Nat) (full : Nat → α → β) (empty : Nat → β) (cell : Nat → β) (h : Nat)
    (xs : List α) : Prop where
  length : xs.length ≤ size
  full : ∀ i (hi : i < xs.length), cell (h + i) = full (h + i) xs[i]
  empty : ∀ k, h + xs.length ≤ k → k < h + size → cell k = empty k

/-- The cell that ticket `k` names is `c` now. -/
def Sets (size : Nat) (cell cell' : Nat → β) (k : Nat) (c : β) : Prop :=
  ∀ j, cell' j = if j % size = k % size then c else cell j

variable {size h k : Nat} {full : Nat → α → β} {empty : Nat → β} {cell cell' : Nat → β} {a x : α}
  {c : β} {xs : List α}

/-- Within a window, different tickets name different cells. -/
theorem mod_ne {i j : Nat} (hi : h ≤ i) (hi' : i < h + size) (hj : h ≤ j) (hj' : j < h + size)
    (hne : i ≠ j) : i % size ≠ j % size := by
  intro hmod
  have hle : i ≤ j := Nat.ModEq.le_of_lt_add hmod (by omega)
  have hge : j ≤ i := Nat.ModEq.le_of_lt_add hmod.symm (by omega)
  exact hne (Nat.le_antisymm hle hge)

theorem Sets.self (hset : Sets size cell cell' k c) : cell' k = c := by
  rw [hset, if_pos rfl]

theorem Sets.other (hset : Sets size cell cell' k c) {j : Nat} (hj : h ≤ j) (hj' : j < h + size)
    (hk : h ≤ k) (hk' : k < h + size) (hne : j ≠ k) : cell' j = cell j := by
  rw [hset, if_neg (mod_ne hj hj' hk hk' hne)]

namespace Window

theorem head (hw : Window size full empty cell h (x :: xs)) : cell h = full h x :=
  hw.full 0 (Nat.zero_lt_succ _)

theorem next (hw : Window size full empty cell h xs) (hroom : xs.length < size) :
    cell (h + xs.length) = empty (h + xs.length) :=
  hw.empty _ (Nat.le_refl _) (Nat.add_lt_add_left hroom h)

/-- The next ticket takes an item in. -/
theorem push (hw : Window size full empty cell h xs) (hroom : xs.length < size)
    (hset : Sets size cell cell' (h + xs.length) (full (h + xs.length) a)) :
    Window size full empty cell' h (xs ++ [a]) := by
  have hlength : (xs ++ [a]).length = xs.length + 1 := List.length_append
  refine ⟨hlength ▸ hroom, ?_, ?_⟩
  · intro i hi
    rcases Nat.lt_succ_iff_lt_or_eq.mp (hlength ▸ hi) with hlt | rfl
    · rw [hset.other (Nat.le_add_right ..) (by omega) (Nat.le_add_right ..) (by omega) (by omega),
        List.getElem_append_left hlt]
      exact hw.full i hlt
    · rw [hset.self, List.getElem_concat_length rfl]
  · intro k hk hk'
    rw [hset.other (h := h) (by omega) hk' (Nat.le_add_right ..) (by omega) (by omega)]
    exact hw.empty k (by omega) hk'

/-- The first cell is left to the ticket of the next round. -/
theorem advance (hw : Window size full empty cell h xs)
    (hset : Sets size cell cell' h (empty (h + size))) :
    Window size full empty cell' (h + 1) xs.tail := by
  have hlength := hw.length
  have hother : ∀ k, h < k → k < h + size → cell' k = cell k := by
    intro k hk hk'
    exact hset.other (Nat.le_of_lt hk) hk' (Nat.le_refl h) (by omega) (Nat.ne_of_gt hk)
  refine ⟨by rw [List.length_tail]; omega, ?_, ?_⟩
  · intro i hi
    have hi' : i + 1 < xs.length := by
      rw [List.length_tail] at hi
      omega
    rw [Nat.add_assoc, Nat.add_comm 1 i, hother _ (by omega) (by omega), List.getElem_tail]
    exact hw.full (i + 1) hi'
  · intro k hk hk'
    rw [List.length_tail] at hk
    by_cases hlast : k = h + size
    · rw [hlast, hset, if_pos (Nat.add_mod_right h size)]
    · rw [hother k (by omega) (by omega)]
      exact hw.empty k (by omega) (by omega)

end Window

end TicketWindow
