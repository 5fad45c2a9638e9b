import Mathlib.Data.List.Nodup

/-!
# Append-only linked lists

The nodes of a linked list that only grows at its end, listed from the first on, whether or not
something still points to them. What a reader holds of such a list stays true: a node keeps its
place, and once it has a successor it keeps that.
-/

namespace LinkedList

variable {ν : Type}

/-- `nodes` are what following `next` from the first of them passes through, up to the last. -/
structure Linked (next : ν → Option ν) (nodes : List ν) : Prop where
  nodup : nodes.Nodup
  next_eq : ∀ {i : Nat} {n : ν}, nodes[i]? = some n → next n = nodes[i + 1]?

/-- Following `next` from a pointer passes through exactly these nodes. -/
inductive Path (next : ν → Option ν) : Option ν → List ν → Prop
  | nil : Path next none []
  | cons {n : ν} {nodes : List ν} (h : Path next (next n) nodes) : Path next (some n) (n :: nodes)

theorem Path.unique {next : ν → Option ν} {p : Option ν} {nodes nodes' : List ν}
    (h : Path next p nodes) (h' : Path next p nodes') : nodes = nodes' := by
  induction h generalizing nodes' with
  | nil =>
      cases h'
      rfl
  | cons _ ih =>
      cases h' with
      | cons h' => rw [ih h']

namespace Linked

variable {next next' : ν → Option ν} {nodes : List ν} {i j : Nat} {m n : ν}

theorem singleton (hnext : next n = none) : Linked next [n] where
  nodup := List.nodup_singleton n
  next_eq {i m} hm := by
    cases i with
    | zero =>
        obtain rfl : n = m := by simpa using hm
        simpa using hnext
    | succ i => simp at hm

theorem index_unique (h : Linked next nodes) (hi : nodes[i]? = some n) (hj : nodes[j]? = some n) :
    i = j :=
  (List.getElem?_inj (List.getElem?_eq_some_iff.mp hi).1 h.nodup).mp (hi.trans hj.symm)

/-- A node without a successor is the last. -/
theorem length_of_next_none (h : Linked next nodes) (hi : nodes[i]? = some n)
    (hnone : next n = none) : nodes.length = i + 1 := by
  have hlt : i < nodes.length := (List.getElem?_eq_some_iff.mp hi).1
  have hge : nodes.length ≤ i + 1 := by
    rw [h.next_eq hi] at hnone
    exact List.getElem?_eq_none_iff.mp hnone
  omega

/-- Only the successors of listed nodes matter. -/
theorem congr (h : Linked next nodes) (heq : ∀ n ∈ nodes, next' n = next n) :
    Linked next' nodes where
  nodup := h.nodup
  next_eq hi := (heq _ (List.mem_of_getElem? hi)).trans (h.next_eq hi)

/-- Hanging a new node behind the last one. -/
theorem snoc (h : Linked next nodes) (hi : nodes[i]? = some n) (hlast : next n = none)
    (hnew : m ∉ nodes) (hn : next' n = some m) (hm : next' m = none)
    (heq : ∀ k ∈ nodes, k ≠ n → next' k = next k) : Linked next' (nodes ++ [m]) where
  nodup := List.nodup_append.mpr
    ⟨h.nodup, List.nodup_singleton m, fun a ha b hb => by
      obtain rfl : b = m := by simpa using hb
      exact fun hab => hnew (hab ▸ ha)⟩
  next_eq {j k} hj := by
    have hlen : nodes.length = i + 1 := h.length_of_next_none hi hlast
    rcases Nat.lt_trichotomy j nodes.length with hlt | rfl | hgt
    · rw [List.getElem?_append_left hlt] at hj
      by_cases hkn : k = n
      · subst hkn
        obtain rfl : j = i := h.index_unique hj hi
        simp [hn, hlen]
      · have hne : j ≠ i := fun hji => hkn (by simpa [hji, hi] using hj.symm)
        rw [heq k (List.mem_of_getElem? hj) hkn, h.next_eq hj,
          List.getElem?_append_left (by omega)]
    · obtain rfl : m = k := by simpa using hj
      simpa using hm
    · rw [List.getElem?_eq_none (by simp; omega)] at hj
      cases hj

/-- From any node on, following `next` passes through the rest of the list. -/
theorem path (h : Linked next nodes) (i : Nat) : Path next nodes[i]? (nodes.drop i) := by
  by_cases hlt : i < nodes.length
  · rw [List.getElem?_eq_getElem hlt, List.drop_eq_getElem_cons hlt]
    refine .cons ?_
    rw [h.next_eq (List.getElem?_eq_getElem hlt)]
    exact h.path (i + 1)
  · rw [List.getElem?_eq_none (by omega), List.drop_eq_nil_of_le (by omega)]
    exact .nil
  termination_by nodes.length - i

end Linked

/-- A node keeps its place when the list grows. -/
theorem getElem?_append_of_some {nodes : List ν} {i : Nat} {n : ν} (hi : nodes[i]? = some n)
    (more : List ν) : (nodes ++ more)[i]? = some n := by
  rw [List.getElem?_append_left (List.getElem?_eq_some_iff.mp hi).1, hi]

end LinkedList
