import Mathlib.Data.List.Basic
import Mathlib.Data.List.Nodup
import Mathlib.Logic.Function.Basic
import QueueFairness.Lib.Interleaving
import QueueFairness.Lib.LinkedList

/-!
# A list whose nodes are freed

A linked list with a pointer to its first node and one to its last or the one before that. A thread
publishes a pointer before it follows it, and the thread that has removed the first node frees it
when it has found it in nobody's slots, which it goes through one by one. An address may be used
again after that.

The second pointer may lag behind the first, so a node may still be found through it, and protected
anew, after it has been removed. What keeps such a node is the slot of the thread that removed it,
which holds it until that thread removes another: by then the second pointer has moved on.

Nodes are known by their positions in the order they were linked in, which are never used again.
-/

namespace ProtectedList

open Interleaving (Tid)

variable {ν : Type}

structure State (ν : Type) where
  next : ν → Option ν
  allocated : ν → Prop
  head : ν
  tail : ν
  slot : Tid → Nat → Option ν
  retired : Tid → List ν

/-- What a proof knows besides: the node at each position, the positions of head and tail, which
positions have been freed, which position a slot protects, who has a node not yet linked, and who
has removed a position. -/
structure Ghost (ν : Type) where
  node : Nat → ν
  length : Nat
  first : Nat
  last : Nat
  gone : Nat → Prop
  guard : Tid → Nat → Option Nat
  owner : ν → Option Tid
  remover : Nat → Option Tid
  dropped : Tid → List Nat

/-- The invariant; `scanned` are the slots that a thread goes through before it frees a node. -/
structure Inv (scanned : Tid → Nat → Prop) (x : Ghost ν) (s : State ν) : Prop where
  first_lt : x.first < x.length
  last_lt : x.last < x.length
  length_le : x.length ≤ x.last + 2
  head : s.head = x.node x.first
  tail : s.tail = x.node x.last
  gone : ∀ {p}, x.gone p → p < x.first ∧ p < x.last
  alive : ∀ {p}, p < x.length → ¬ x.gone p → s.allocated (x.node p) ∧ x.owner (x.node p) = none
  inj : ∀ {p q}, p < x.length → q < x.length → ¬ x.gone p → ¬ x.gone q → x.node p = x.node q →
    p = q
  next : ∀ {p}, p + 1 < x.length → ¬ x.gone p → s.next (x.node p) = some (x.node (p + 1))
  next_last : ∀ {p}, p + 1 = x.length → s.next (x.node p) = none
  guard : ∀ {t j p}, x.guard t j = some p →
    s.slot t j = some (x.node p) ∧ p < x.length ∧ ¬ x.gone p ∧ scanned t j
  owner : ∀ {n t}, x.owner n = some t → s.allocated n ∧ s.next n = none
  retired : ∀ t, s.retired t = (x.dropped t).map x.node
  dropped_nodup : ∀ t, (x.dropped t).Nodup
  dropped : ∀ {t p}, p ∈ x.dropped t → x.remover p = some t ∧ p < x.first ∧ ¬ x.gone p
  removed : ∀ {p}, p < x.first → ∃ t, x.remover p = some t
  accounted : ∀ {n}, s.allocated n →
    (∃ p, p < x.length ∧ ¬ x.gone p ∧ x.node p = n) ∨ ∃ t, x.owner n = some t

/-- Slot `j` of thread `t` protects node `n`. -/
def Holds (x : Ghost ν) (t : Tid) (j : Nat) (n : ν) : Prop :=
  ∃ p, x.guard t j = some p ∧ x.node p = n

/-- Slot `j` of thread `t` protects node `n`, to which `tail` has led. -/
def HoldsTail (x : Ghost ν) (t : Tid) (j : Nat) (n : ν) : Prop :=
  ∃ p, x.guard t j = some p ∧ x.node p = n ∧ p ≤ x.last

/-- Slot `j` of thread `t` protects node `n`, which `m` follows. -/
def HoldsNext (x : Ghost ν) (t : Tid) (j : Nat) (n m : ν) : Prop :=
  ∃ p, x.guard t j = some p ∧ x.node p = n ∧ p + 1 < x.length ∧ x.node (p + 1) = m

/-- Thread `t` has removed the node at `p` and has not put it on its list yet. -/
structure Removed (x : Ghost ν) (t : Tid) (p : Nat) : Prop where
  remover : x.remover p = some t
  lt_first : p < x.first
  alive : ¬ x.gone p
  not_dropped : p ∉ x.dropped t

/-- What the thread has on its list, nobody finds any more, or it protects it itself. -/
def Settled (x : Ghost ν) (t : Tid) : Prop :=
  ∀ q ∈ x.dropped t, q < x.last ∨ ∃ j, x.guard t j = some q

/-- Thread `t` has gone through the slots in `passed` and found the node at `q` in none of them. -/
structure Scanning (x : Ghost ν) (t : Tid) (passed : Tid → Nat → Prop) (q : Nat) : Prop where
  lt_first : q < x.first
  clear : q < x.last ∧ (∀ u j, passed u j → x.guard u j ≠ some q)
    ∨ ∃ j, x.guard t j = some q ∧ ¬ passed t j

/-- What thread `t` relies on. -/
structure Rely (t : Tid) (x : Ghost ν) (s : State ν) (x' : Ghost ν) (s' : State ν) : Prop where
  guard : x'.guard t = x.guard t
  slot : s'.slot t = s.slot t
  dropped : x'.dropped t = x.dropped t
  node : ∀ {p}, p < x.length → x'.node p = x.node p
  length : x.length ≤ x'.length
  first : x.first ≤ x'.first
  last : x.last ≤ x'.last
  owner : ∀ {n}, x.owner n = some t → x'.owner n = some t
  owned : ∀ {n}, x'.owner n = some t → x.owner n = some t
  remover : ∀ {p}, p < x.first → x.remover p = some t → x'.remover p = some t
  removed : ∀ {p}, p < x'.first → x'.remover p = some t → p < x.first ∧ x.remover p = some t
  alive : ∀ {p}, x.remover p = some t → p < x.first → (x'.gone p ↔ x.gone p)
  guarded : ∀ {u j q}, x'.guard u j = some q → x.guard u j = some q ∨ x.first ≤ q ∨ x.last ≤ q

section Rely

variable {t : Tid} {x x' : Ghost ν} {s s' : State ν} {p q : Nat}

theorem Rely.refl (t : Tid) (x : Ghost ν) (s : State ν) : Rely t x s x s where
  guard := rfl
  slot := rfl
  dropped := rfl
  node _ := rfl
  length := Nat.le_refl _
  first := Nat.le_refl _
  last := Nat.le_refl _
  owner := id
  owned := id
  remover _ := id
  removed hp hr := ⟨hp, hr⟩
  alive _ _ := .rfl
  guarded := .inl

theorem Rely.holds {scanned : Tid → Nat → Prop} {j : Nat} {n : ν} (h : Rely t x s x' s')
    (hw : Inv scanned x s) (hh : Holds x t j n) : Holds x' t j n := by
  obtain ⟨p, hp, hn⟩ := hh
  exact ⟨p, h.guard ▸ hp, (h.node (hw.guard hp).2.1).trans hn⟩

theorem Rely.holdsTail {scanned : Tid → Nat → Prop} {j : Nat} {n : ν} (h : Rely t x s x' s')
    (hw : Inv scanned x s) (hh : HoldsTail x t j n) : HoldsTail x' t j n := by
  obtain ⟨p, hp, hn, hlast⟩ := hh
  exact ⟨p, h.guard ▸ hp, (h.node (hw.guard hp).2.1).trans hn, Nat.le_trans hlast h.last⟩

theorem Rely.holdsNext {j : Nat} {n m : ν} (h : Rely t x s x' s') (hh : HoldsNext x t j n m) :
    HoldsNext x' t j n m := by
  obtain ⟨p, hp, hn, hlt, hm⟩ := hh
  exact
    ⟨p, h.guard ▸ hp, (h.node (Nat.lt_of_succ_lt hlt)).trans hn, Nat.lt_of_lt_of_le hlt h.length,
    (h.node hlt).trans hm⟩

theorem Rely.settled (h : Rely t x s x' s') (hs : Settled x t) : Settled x' t := by
  intro q hq
  rw [h.dropped] at hq
  rw [h.guard]
  exact (hs q hq).imp_left fun hlt => Nat.lt_of_lt_of_le hlt h.last

theorem Rely.removed_iff (h : Rely t x s x' s') : Removed x t p → Removed x' t p := fun hr =>
  ⟨h.remover hr.lt_first hr.remover, Nat.lt_of_lt_of_le hr.lt_first h.first,
    fun hg => hr.alive ((h.alive hr.remover hr.lt_first).mp hg), h.dropped ▸ hr.not_dropped⟩

theorem Rely.scanning {passed : Tid → Nat → Prop} (h : Rely t x s x' s')
    (hs : Scanning x t passed q) : Scanning x' t passed q := by
  refine ⟨Nat.lt_of_lt_of_le hs.lt_first h.first, ?_⟩
  rcases hs.clear with ⟨hlast, hclear⟩ | hown
  · refine .inl ⟨Nat.lt_of_lt_of_le hlast h.last, fun u j hpassed hu => ?_⟩
    rcases h.guarded hu with hold | hnew | hnew
    · exact hclear u j hpassed hold
    · exact absurd hs.lt_first (Nat.not_lt.mpr hnew)
    · exact absurd hlast (Nat.not_lt.mpr hnew)
  · exact .inr (h.guard ▸ hown)

end Rely

section Holds

variable {scanned : Tid → Nat → Prop} {t : Tid} {x : Ghost ν} {s : State ν} {j : Nat} {n m : ν}

theorem HoldsTail.holds (h : HoldsTail x t j n) : Holds x t j n := by
  obtain ⟨p, hp, hn, -⟩ := h
  exact ⟨p, hp, hn⟩

theorem HoldsNext.holds (h : HoldsNext x t j n m) : Holds x t j n := by
  obtain ⟨p, hp, hn, -⟩ := h
  exact ⟨p, hp, hn⟩

/-- **What a thread protects, nobody has freed.** -/
theorem Holds.allocated (h : Holds x t j n) (hw : Inv scanned x s) : s.allocated n := by
  obtain ⟨p, hp, rfl⟩ := h
  obtain ⟨-, hlt, halive, -⟩ := hw.guard hp
  exact (hw.alive hlt halive).1

end Holds

/-! ### The moves -/

def Ghost.setGuard (x : Ghost ν) (t : Tid) (j : Nat) (p : Option Nat) : Ghost ν :=
  { x with guard := Function.update x.guard t (Function.update (x.guard t) j p) }

variable [DecidableEq ν]

/-- What a step of thread `t` can do to the list, and under which conditions it does. -/
inductive Move (scanned : Tid → Nat → Prop) (t : Tid) (x : Ghost ν) (s : State ν) :
    Ghost ν → State ν → Prop
  | stay : Move scanned t x s x s
  | publish (j : Nat) (n : Option ν) : Move scanned t x s (x.setGuard t j none)
      { s with slot := Function.update s.slot t (Function.update (s.slot t) j n) }
  | guardHead (j : Nat) (hslot : s.slot t j = some s.head) (hscanned : scanned t j) :
      Move scanned t x s (x.setGuard t j (some x.first)) s
  | guardTail (j : Nat) (hslot : s.slot t j = some s.tail) (hscanned : scanned t j) :
      Move scanned t x s (x.setGuard t j (some x.last)) s
  | allocate (n : ν) (hfree : ¬ s.allocated n) :
      Move scanned t x s { x with owner := Function.update x.owner n (some t) }
        { s with
          allocated := Function.update s.allocated n True
          next := Function.update s.next n none }
  | discard (n : ν) (howner : x.owner n = some t) :
      Move scanned t x s { x with owner := Function.update x.owner n none }
        { s with allocated := Function.update s.allocated n False }
  | link (j p : Nat) (n : ν) (hguard : x.guard t j = some p) (hlast : p ≤ x.last)
      (hnext : s.next (x.node p) = none) (howner : x.owner n = some t) :
      Move scanned t x s
        { x with
          node := Function.update x.node x.length n
          length := x.length + 1
          owner := Function.update x.owner n none }
        { s with next := Function.update s.next (x.node p) (some n) }
  | swingTail (j p : Nat) (hguard : x.guard t j = some p) (htail : s.tail = x.node p)
      (hfollows : p + 1 < x.length) :
      Move scanned t x s { x with last := p + 1 } { s with tail := x.node (p + 1) }
  | swingHead (j p : Nat) (hguard : x.guard t j = some p) (hhead : s.head = x.node p)
      (hfollows : p + 1 < x.length) :
      Move scanned t x s
        { x with first := p + 1, remover := Function.update x.remover p (some t) }
        { s with head := x.node (p + 1) }
  | retire (p : Nat) (hremoved : Removed x t p) :
      Move scanned t x s { x with dropped := Function.update x.dropped t (x.dropped t ++ [p]) }
        { s with retired := Function.update s.retired t (s.retired t ++ [x.node p]) }
  | free (i q : Nat) (hq : (x.dropped t)[i]? = some q) (hlast : q < x.last)
      (hclear : ∀ u j, x.guard u j ≠ some q) :
      Move scanned t x s
        { x with
          gone := Function.update x.gone q True
          dropped := Function.update x.dropped t ((x.dropped t).eraseIdx i) }
        { s with
          allocated := Function.update s.allocated (x.node q) False
          retired := Function.update s.retired t ((s.retired t).eraseIdx i) }

/-! ### What the moves preserve -/

section Moves

variable {scanned : Tid → Nat → Prop} {t u : Tid} {x x' : Ghost ν} {s s' : State ν} {j p q : Nat}

omit [DecidableEq ν] in
theorem Ghost.setGuard_guard (x : Ghost ν) (t u : Tid) (j k : Nat) (p : Option Nat) :
    (x.setGuard t j p).guard u k = if u = t ∧ k = j then p else x.guard u k := by
  by_cases hu : u = t
  · subst hu
    by_cases hk : k = j
    · subst hk
      simp [setGuard]
    · simp [setGuard, hk]
  · simp [setGuard, hu]

omit [DecidableEq ν] in
theorem Holds.setGuard {n : ν} {k : Nat} (h : Holds x t j n) (hne : k ≠ j) (p : Option Nat) :
    Holds (x.setGuard t k p) t j n := by
  obtain ⟨q, hq, hn⟩ := h
  refine ⟨q, ?_, hn⟩
  rw [Ghost.setGuard_guard, if_neg fun heq => hne heq.2.symm, hq]

omit [DecidableEq ν] in
theorem Inv.holds_first (h : Inv scanned x s) :
    Holds (x.setGuard t j (some x.first)) t j s.head :=
  ⟨x.first, by rw [Ghost.setGuard_guard, if_pos ⟨rfl, rfl⟩], h.head.symm⟩

omit [DecidableEq ν] in
theorem Inv.holdsTail_last (h : Inv scanned x s) :
    HoldsTail (x.setGuard t j (some x.last)) t j s.tail :=
  ⟨x.last, by rw [Ghost.setGuard_guard, if_pos ⟨rfl, rfl⟩], h.tail.symm, Nat.le_refl _⟩

omit [DecidableEq ν] in
theorem Inv.first_alive (h : Inv scanned x s) : ¬ x.gone x.first := fun hg =>
  Nat.lt_irrefl _ (h.gone hg).1

omit [DecidableEq ν] in
theorem Inv.last_alive (h : Inv scanned x s) : ¬ x.gone x.last := fun hg =>
  Nat.lt_irrefl _ (h.gone hg).2

omit [DecidableEq ν] in
/-- The node before one that can be removed is not the last any more. -/
theorem Inv.lt_last (h : Inv scanned x s) (hlt : q < x.first) (hfollows : x.first + 1 < x.length) :
    q < x.last := by
  have := h.length_le
  omega

omit [DecidableEq ν] in
theorem Inv.eq_first (h : Inv scanned x s) (hguard : x.guard t j = some p)
    (hhead : s.head = x.node p) : p = x.first :=
  have hp := (h.guard hguard).2
  h.inj hp.1 h.first_lt hp.2.1 h.first_alive (hhead.symm.trans h.head)

omit [DecidableEq ν] in
theorem Inv.eq_last (h : Inv scanned x s) (hguard : x.guard t j = some p)
    (htail : s.tail = x.node p) : p = x.last :=
  have hp := (h.guard hguard).2
  h.inj hp.1 h.last_lt hp.2.1 h.last_alive (htail.symm.trans h.tail)

omit [DecidableEq ν] in
/-- What a thread protects and finds without a successor is the end of the list. -/
theorem Inv.eq_end (h : Inv scanned x s) (hguard : x.guard t j = some p)
    (hnext : s.next (x.node p) = none) : p + 1 = x.length := by
  obtain ⟨-, hlt, halive, -⟩ := h.guard hguard
  by_contra hne
  have hfollows := h.next (p := p) (by omega) halive
  rw [hnext] at hfollows
  cases hfollows

omit [DecidableEq ν] in
theorem Inv.follows (h : Inv scanned x s) (hguard : x.guard t j = some p) {n : ν}
    (hnext : s.next (x.node p) = some n) : p + 1 < x.length ∧ x.node (p + 1) = n := by
  obtain ⟨-, hlt, halive, -⟩ := h.guard hguard
  by_cases hend : p + 1 = x.length
  · rw [h.next_last hend] at hnext
    cases hnext
  · have hfollows : p + 1 < x.length := by omega
    exact ⟨hfollows, Option.some.inj ((h.next hfollows halive).symm.trans hnext)⟩

omit [DecidableEq ν] in
theorem Holds.next {n m : ν} (hh : Holds x t j n) (h : Inv scanned x s)
    (hnext : s.next n = some m) : HoldsNext x t j n m := by
  obtain ⟨p, hp, rfl⟩ := hh
  obtain ⟨hlt, hm⟩ := h.follows hp hnext
  exact ⟨p, hp, rfl, hlt, hm⟩

omit [DecidableEq ν] in
theorem Inv.setGuard (h : Inv scanned x s) {slot : Tid → Nat → Option ν} (n : Option Nat)
    (hguard : ∀ {u k p}, (if u = t ∧ k = j then n else x.guard u k) = some p →
      slot u k = some (x.node p) ∧ p < x.length ∧ ¬ x.gone p ∧ scanned u k) :
    Inv scanned (x.setGuard t j n) { s with slot := slot } where
  first_lt := h.first_lt
  last_lt := h.last_lt
  length_le := h.length_le
  head := h.head
  tail := h.tail
  gone := h.gone
  alive := h.alive
  inj := h.inj
  next := h.next
  next_last := h.next_last
  guard hu := by
    rw [Ghost.setGuard_guard] at hu
    exact hguard hu
  owner := h.owner
  retired := h.retired
  dropped_nodup := h.dropped_nodup
  dropped := h.dropped
  removed := h.removed
  accounted := h.accounted

theorem Inv.link {n : ν} (h : Inv scanned x s) (hguard : x.guard t j = some p)
    (hlast : p ≤ x.last) (hnext : s.next (x.node p) = none) (howner : x.owner n = some t) :
    Inv scanned
      { x with
        node := Function.update x.node x.length n
        length := x.length + 1
        owner := Function.update x.owner n none }
      { s with next := Function.update s.next (x.node p) (some n) } := by
  have hend := h.eq_end hguard hnext
  obtain ⟨-, hlt, hpalive, -⟩ := h.guard hguard
  have hnode : ∀ {q}, q < x.length → Function.update x.node x.length n q = x.node q := fun hq =>
    Function.update_of_ne (Nat.ne_of_lt hq) ..
  have hother : ∀ {q}, q < x.length → ¬ x.gone q → x.node q ≠ n := fun hq halive heq => by
    have hnone := (h.alive hq halive).2
    rw [heq, howner] at hnone
    cases hnone
  have hnew : ∀ {q}, q < x.length + 1 → q < x.length ∨ q = x.length := fun hq =>
    Nat.lt_succ_iff_lt_or_eq.mp hq
  refine
    { first_lt := Nat.lt_succ_of_lt h.first_lt
      last_lt := Nat.lt_succ_of_lt h.last_lt
      length_le := by simp only; omega
      head := h.head.trans (hnode h.first_lt).symm
      tail := h.tail.trans (hnode h.last_lt).symm
      gone := h.gone
      alive := fun {q} hq halive => ?_
      inj := fun {q r} hq hr hqalive hralive heq => ?_
      next := fun {q} hq halive => ?_
      next_last := fun {q} hq => ?_
      guard := fun {u k q} hu => ?_
      owner := fun {m u} hm => ?_
      retired := fun u => ?_
      dropped_nodup := h.dropped_nodup
      dropped := h.dropped
      removed := h.removed
      accounted := fun {m} hm => ?_ }
  · rcases hnew hq with hq | rfl
    · simpa [hnode hq, hother hq halive] using h.alive hq halive
    · simpa using (h.owner howner).1
  · rcases hnew hq with hq | rfl <;> rcases hnew hr with hr | rfl
    · exact h.inj hq hr hqalive hralive (by simpa only [hnode hq, hnode hr] using heq)
    · exact absurd (by simpa [hnode hq] using heq) (hother hq hqalive)
    · exact absurd (by simpa [hnode hr] using heq.symm) (hother hr hralive)
    · rfl
  · have hq : q + 1 < x.length + 1 := hq
    by_cases hqp : q = p
    · subst hqp
      simp [hend, hnode hlt]
    · have hq' : q + 1 < x.length := by omega
      have hne : x.node q ≠ x.node p := fun heq =>
        hqp (h.inj (Nat.lt_of_succ_lt hq') hlt halive hpalive heq)
      simpa [hnode hq', hnode (Nat.lt_of_succ_lt hq'), hne] using h.next hq' halive
  · obtain rfl : q = x.length := Nat.succ.inj hq
    have hne : n ≠ x.node p := fun heq => hother hlt hpalive heq.symm
    simpa [hne] using (h.owner howner).2
  · obtain ⟨hslot, hq, hrest⟩ := h.guard hu
    exact ⟨hslot.trans (congrArg some (hnode hq).symm), Nat.lt_succ_of_lt hq, hrest⟩
  · by_cases hmn : m = n
    · simp [hmn] at hm
    · have hm : x.owner m = some u := by simpa [hmn] using hm
      have hne : m ≠ x.node p := fun heq => by
        have hnone := (h.alive hlt hpalive).2
        rw [← heq, hm] at hnone
        cases hnone
      simpa [hne] using h.owner hm
  · rw [h.retired]
    exact List.map_congr_left fun q hq =>
      (hnode (Nat.lt_trans (h.dropped hq).2.1 h.first_lt)).symm
  · by_cases hmn : m = n
    · exact .inl ⟨x.length, Nat.lt_succ_self _, fun hg => Nat.lt_irrefl _
        (Nat.lt_trans (h.gone hg).1 h.first_lt), by simp [hmn]⟩
    · rcases h.accounted hm with ⟨q, hq, halive, rfl⟩ | ⟨u, hu⟩
      · exact .inl ⟨q, Nat.lt_succ_of_lt hq, halive, hnode hq⟩
      · exact .inr ⟨u, by simpa [hmn] using hu⟩

theorem Inv.free {i : Nat} (h : Inv scanned x s) (hq : (x.dropped t)[i]? = some q)
    (hlast : q < x.last) (hclear : ∀ u j, x.guard u j ≠ some q) :
    Inv scanned
      { x with
        gone := Function.update x.gone q True
        dropped := Function.update x.dropped t ((x.dropped t).eraseIdx i) }
      { s with
        allocated := Function.update s.allocated (x.node q) False
        retired := Function.update s.retired t ((s.retired t).eraseIdx i) } := by
  obtain ⟨hremover, hfirst, hqalive⟩ := h.dropped (List.mem_of_getElem? hq)
  have hqlt : q < x.length := Nat.lt_trans hfirst h.first_lt
  have hsplit : ∀ {p}, ¬ Function.update x.gone q True p → p ≠ q ∧ ¬ x.gone p :=
    fun {p} halive => by
    by_cases hp : p = q
    · simp [hp] at halive
    · exact ⟨hp, by simpa [hp] using halive⟩
  have hother : ∀ {p}, p < x.length → ¬ Function.update x.gone q True p →
      x.node p ≠ x.node q := fun hp halive heq =>
    (hsplit halive).1 (h.inj hp hqlt (hsplit halive).2 hqalive heq)
  refine { h with
    gone := fun {p} hg => ?_
    alive := fun {p} hp halive => ?_
    inj := fun hp hr hpalive hralive => h.inj hp hr (hsplit hpalive).2 (hsplit hralive).2
    next := fun hp halive => h.next hp (hsplit halive).2
    guard := fun {u k p} hu => ?_
    owner := fun {m u} hm => ?_
    retired := fun u => ?_
    dropped_nodup := fun u => ?_
    dropped := fun {u p} hp => ?_
    accounted := fun {m} hm => ?_ }
  · by_cases hp : p = q
    · rw [hp]
      exact ⟨hfirst, hlast⟩
    · exact h.gone (by simpa [hp] using hg)
  · have hne := hother hp halive
    simpa [hne] using h.alive hp (hsplit halive).2
  · obtain ⟨hslot, hp, halive, hscanned⟩ := h.guard hu
    have hne : p ≠ q := fun heq => hclear u k (heq ▸ hu)
    exact ⟨hslot, hp, by simpa [hne] using halive, hscanned⟩
  · have hne : m ≠ x.node q := fun heq => by
      have hnone := (h.alive hqlt hqalive).2
      rw [← heq, hm] at hnone
      cases hnone
    simpa [hne] using h.owner hm
  · by_cases hu : u = t
    · subst hu
      simp [h.retired, List.eraseIdx_eq_take_drop_succ, List.map_take, List.map_drop]
    · simpa [hu] using h.retired u
  · by_cases hu : u = t
    · subst hu
      simpa using (h.dropped_nodup u).sublist (List.eraseIdx_sublist ..)
    · simpa [hu] using h.dropped_nodup u
  · have hp' : p ∈ x.dropped u ∧ p ≠ q := by
      by_cases hu : u = t
      · subst hu
        have hp : p ∈ (x.dropped u).eraseIdx i := by simpa using hp
        refine ⟨List.mem_of_mem_eraseIdx hp, fun heq => ?_⟩
        obtain ⟨k, hki, hk⟩ := List.mem_eraseIdx_iff_getElem?.mp hp
        have hlt := (List.getElem?_eq_some_iff.mp hk).1
        exact hki ((List.getElem?_inj hlt (h.dropped_nodup u)).mp (by rw [hk, heq, hq]))
      · have hp : p ∈ x.dropped u := by simpa [hu] using hp
        refine ⟨hp, fun heq => hu ?_⟩
        have hr := (h.dropped hp).1
        rw [heq, hremover] at hr
        exact (Option.some.inj hr).symm
    obtain ⟨hr, hlt, halive⟩ := h.dropped hp'.1
    exact ⟨hr, hlt, by simpa [hp'.2] using halive⟩
  · by_cases hmn : m = x.node q
    · simp [hmn] at hm
    · have hm : s.allocated m := by simpa [hmn] using hm
      rcases h.accounted hm with ⟨p, hp, halive, rfl⟩ | howned
      · have hne : p ≠ q := fun heq => hmn (congrArg x.node heq)
        exact .inl ⟨p, hp, by simpa [hne] using halive, rfl⟩
      · exact .inr howned

theorem Move.inv (h : Inv scanned x s) (hmove : Move scanned t x s x' s') :
    Inv scanned x' s' := by
  cases hmove with
  | stay => exact h
  | publish j n =>
      refine h.setGuard none fun {u k p} hu => ?_
      split at hu
      · cases hu
      · rename_i hne
        obtain ⟨hslot, hrest⟩ := h.guard hu
        refine ⟨?_, hrest⟩
        by_cases hut : u = t
        · subst hut
          have hk : k ≠ j := fun hk => hne ⟨rfl, hk⟩
          simpa [hk] using hslot
        · simpa [hut] using hslot
  | guardHead j hslot hscanned =>
      refine h.setGuard (some x.first) fun {u k p} hu => ?_
      split at hu
      · rename_i heq
        obtain ⟨rfl, rfl⟩ := heq
        obtain rfl := Option.some.inj hu
        exact ⟨hslot.trans (congrArg some h.head), h.first_lt, h.first_alive, hscanned⟩
      · exact h.guard hu
  | guardTail j hslot hscanned =>
      refine h.setGuard (some x.last) fun {u k p} hu => ?_
      split at hu
      · rename_i heq
        obtain ⟨rfl, rfl⟩ := heq
        obtain rfl := Option.some.inj hu
        exact ⟨hslot.trans (congrArg some h.tail), h.last_lt, h.last_alive, hscanned⟩
      · exact h.guard hu
  | allocate n hfree =>
      have hne : ∀ {m}, s.allocated m → m ≠ n := fun hm heq => hfree (heq ▸ hm)
      have hother : ∀ {p}, p < x.length → ¬ x.gone p → x.node p ≠ n := fun hp halive =>
        hne (h.alive hp halive).1
      refine { h with alive := ?_, next := ?_, next_last := ?_, owner := ?_, accounted := ?_ }
      · intro p hp halive
        simpa [hother hp halive] using h.alive hp halive
      · intro p hp halive
        have hp' : p < x.length := Nat.lt_of_succ_lt hp
        simpa [hother hp' halive] using h.next hp halive
      · intro p hp
        have hlt : p < x.length := by simp only at hp; omega
        have halive : ¬ x.gone p := fun hg => by
          have := (h.gone hg).2
          have := h.last_lt
          simp only at hp
          omega
        simpa [hother hlt halive] using h.next_last hp
      · intro m u hm
        by_cases hmn : m = n
        · subst hmn
          simp
        · have hm : x.owner m = some u := by simpa [hmn] using hm
          simpa [hmn] using h.owner hm
      · intro m hm
        by_cases hmn : m = n
        · exact .inr ⟨t, by simp [hmn]⟩
        · have hm : s.allocated m := by simpa [hmn] using hm
          simpa [hmn] using h.accounted hm
  | discard n howner =>
      have hother : ∀ {p}, p < x.length → ¬ x.gone p → x.node p ≠ n := fun hp halive heq => by
        have hnone := (h.alive hp halive).2
        rw [heq, howner] at hnone
        cases hnone
      refine { h with alive := ?_, owner := ?_, accounted := ?_ }
      · intro p hp halive
        simpa [hother hp halive] using h.alive hp halive
      · intro m u hm
        by_cases hmn : m = n
        · simp [hmn] at hm
        · have hm : x.owner m = some u := by simpa [hmn] using hm
          simpa [hmn] using h.owner hm
      · intro m hm
        by_cases hmn : m = n
        · simp [hmn] at hm
        · have hm : s.allocated m := by simpa [hmn] using hm
          simpa [hmn] using h.accounted hm
  | link j p n hguard hlast hnext howner => exact h.link hguard hlast hnext howner
  | swingTail j p hguard htail hfollows =>
      obtain rfl := h.eq_last hguard htail
      have hlength := h.length_le
      exact { h with
        last_lt := hfollows
        length_le := by simp only; omega
        tail := rfl
        gone := fun hg => ⟨(h.gone hg).1, Nat.lt_succ_of_lt (h.gone hg).2⟩ }
  | swingHead j p hguard hhead hfollows =>
      obtain rfl := h.eq_first hguard hhead
      refine { h with first_lt := hfollows, head := rfl, gone := ?_, dropped := ?_, removed := ?_ }
      · exact fun hg => ⟨Nat.lt_succ_of_lt (h.gone hg).1, (h.gone hg).2⟩
      · intro u q hq
        obtain ⟨hremover, hlt, halive⟩ := h.dropped hq
        exact ⟨by simpa [Nat.ne_of_lt hlt] using hremover, Nat.lt_succ_of_lt hlt, halive⟩
      · intro q hq
        rcases Nat.lt_succ_iff_lt_or_eq.mp hq with hlt | rfl
        · simpa [Nat.ne_of_lt hlt] using h.removed hlt
        · exact ⟨t, by simp⟩
  | retire p hremoved =>
      refine { h with retired := ?_, dropped_nodup := ?_, dropped := ?_ }
      · intro u
        by_cases hu : u = t
        · subst hu
          simp [h.retired]
        · simpa [hu] using h.retired u
      · intro u
        by_cases hu : u = t
        · subst hu
          simp only [Function.update_self, List.nodup_append]
          refine ⟨h.dropped_nodup u, List.nodup_singleton p, fun q hq r hr heq => ?_⟩
          obtain rfl := List.mem_singleton.mp hr
          exact hremoved.not_dropped (heq ▸ hq)
        · simpa [hu] using h.dropped_nodup u
      · intro u q hq
        by_cases hu : u = t
        · subst hu
          rcases (by simpa using hq : q ∈ x.dropped u ∨ q = p) with hq | rfl
          · exact h.dropped hq
          · exact ⟨hremoved.remover, hremoved.lt_first, hremoved.alive⟩
        · exact h.dropped (by simpa [hu] using hq)
  | free i q hq hlast hclear => exact h.free hq hlast hclear

omit [DecidableEq ν] in
/-- A slot of another thread now protects something, or nothing. -/
theorem Rely.setGuard (hne : u ≠ t) {slot : Tid → Nat → Option ν} (n : Option Nat)
    (hslot : slot u = s.slot u) (hn : ∀ q, n = some q → x.first ≤ q ∨ x.last ≤ q) :
    Rely u x s (x.setGuard t j n) { s with slot := slot } where
  guard := by simp [Ghost.setGuard, hne]
  slot := hslot
  dropped := rfl
  node _ := rfl
  length := Nat.le_refl _
  first := Nat.le_refl _
  last := Nat.le_refl _
  owner := id
  owned := id
  remover _ := id
  removed hp hr := ⟨hp, hr⟩
  alive _ _ := .rfl
  guarded {v k q} hv := by
    rw [Ghost.setGuard_guard] at hv
    split at hv
    · exact .inr (hn q hv)
    · exact .inl hv

theorem Move.rely (h : Inv scanned x s) (hmove : Move scanned t x s x' s') (hne : u ≠ t) :
    Rely u x s x' s' := by
  cases hmove with
  | stay => exact .refl u x s
  | publish j n => exact .setGuard hne none (by simp [hne]) (by simp)
  | guardHead j hslot hscanned =>
      exact .setGuard hne (some x.first) rfl fun q hq => .inl (Nat.le_of_eq (Option.some.inj hq))
  | guardTail j hslot hscanned =>
      exact .setGuard hne (some x.last) rfl fun q hq => .inr (Nat.le_of_eq (Option.some.inj hq))
  | allocate n hfree =>
      refine { Rely.refl u x s with owner := fun {m} hm => ?_, owned := fun {m} hm => ?_ }
      · have hmn : m ≠ n := fun heq => hfree (heq ▸ (h.owner hm).1)
        simpa [hmn] using hm
      · by_cases hmn : m = n
        · simp [hmn, Ne.symm hne] at hm
        · simpa [hmn] using hm
  | discard n howner =>
      refine { Rely.refl u x s with owner := fun {m} hm => ?_, owned := fun {m} hm => ?_ }
      · have hmn : m ≠ n := fun heq => hne (Option.some.inj ((heq ▸ hm).symm.trans howner))
        simpa [hmn] using hm
      · by_cases hmn : m = n
        · simp [hmn] at hm
        · simpa [hmn] using hm
  | link j p n hguard hlast hnext howner =>
      refine { Rely.refl u x s with
        node := fun hp => Function.update_of_ne (Nat.ne_of_lt hp) ..
        length := Nat.le_succ _
        owner := fun {m} hm => ?_
        owned := fun {m} hm => ?_ }
      · have hmn : m ≠ n := fun heq => hne (Option.some.inj ((heq ▸ hm).symm.trans howner))
        simpa [hmn] using hm
      · by_cases hmn : m = n
        · simp [hmn] at hm
        · simpa [hmn] using hm
  | swingTail j p hguard htail hfollows =>
      obtain rfl := h.eq_last hguard htail
      exact { Rely.refl u x s with last := Nat.le_succ _ }
  | swingHead j p hguard hhead hfollows =>
      obtain rfl := h.eq_first hguard hhead
      refine { Rely.refl u x s with
        first := Nat.le_succ _
        remover := fun {q} hq hr => ?_
        removed := fun {q} hq hr => ?_ }
      · simpa [Nat.ne_of_lt hq] using hr
      · rcases Nat.lt_succ_iff_lt_or_eq.mp hq with hlt | rfl
        · exact ⟨hlt, by simpa [Nat.ne_of_lt hlt] using hr⟩
        · simp [Ne.symm hne] at hr
  | retire p hremoved =>
      exact { Rely.refl u x s with dropped := Function.update_of_ne hne .. }
  | free i q hq hlast hclear =>
      refine { Rely.refl u x s with
        dropped := Function.update_of_ne hne ..
        alive := fun {p} hr _ => ?_ }
      have hp : p ≠ q := fun heq => by
        have hq := (h.dropped (List.mem_of_getElem? hq)).1
        rw [← heq, hr] at hq
        exact hne (Option.some.inj hq)
      simp [hp]

omit [DecidableEq ν] in
/-- The position of a node on a retired list. -/
theorem Inv.mem_retired (h : Inv scanned x s) {n : ν} (hn : n ∈ s.retired t) :
    ∃ p, p < x.first ∧ ¬ x.gone p ∧ x.node p = n := by
  rw [h.retired] at hn
  obtain ⟨p, hp, hnode⟩ := List.mem_map.mp hn
  obtain ⟨-, hlt, halive⟩ := h.dropped hp
  exact ⟨p, hlt, halive, hnode⟩

omit [DecidableEq ν] in
/-- The lists of retired nodes have no node twice. -/
theorem Inv.retired_nodup (h : Inv scanned x s) (t : Tid) : (s.retired t).Nodup := by
  rw [h.retired]
  refine (h.dropped_nodup t).map_on fun p hp q hq heq => ?_
  obtain ⟨-, hplt, hpalive⟩ := h.dropped hp
  obtain ⟨-, hqlt, hqalive⟩ := h.dropped hq
  exact h.inj (Nat.lt_trans hplt h.first_lt) (Nat.lt_trans hqlt h.first_lt) hpalive hqalive heq

omit [DecidableEq ν] in
theorem Inv.head_not_retired (h : Inv scanned x s) : s.head ∉ s.retired t := by
  intro hn
  obtain ⟨p, hlt, halive, hnode⟩ := h.mem_retired hn
  have heq : p = x.first :=
    h.inj (Nat.lt_trans hlt h.first_lt) h.first_lt halive h.first_alive (hnode.trans h.head)
  exact Nat.lt_irrefl _ (heq ▸ hlt)

omit [DecidableEq ν] in
/-- `head` is behind `tail`, or at it, or at its successor. -/
theorem Inv.first_le (h : Inv scanned x s) : x.first ≤ x.last + 1 := by
  have hfirst := h.first_lt
  have hlength := h.length_le
  omega

omit [DecidableEq ν] in
/-- The node at `head` or further on has not been retired. -/
theorem Inv.next_not_retired (h : Inv scanned x s) (hp : x.first ≤ p + 1)
    (hlt : p + 1 < x.length) : x.node (p + 1) ∉ s.retired t := by
  intro hn
  obtain ⟨q, hq, hqalive, hnode⟩ := h.mem_retired hn
  have hnew : ¬ x.gone (p + 1) := fun hg => absurd (h.gone hg).1 (Nat.not_lt.mpr hp)
  have heq : q = p + 1 := h.inj (Nat.lt_trans hq h.first_lt) hlt hqalive hnew hnode
  omega

/-- No node comes to point to one that has been retired. -/
theorem Move.next_of_retired (h : Inv scanned x s) (hmove : Move scanned t x s x' s') {m n : ν}
    (hnext : s'.next m = some n) (hn : n ∈ s.retired u) : s.next m = some n := by
  cases hmove with
  | allocate k hfree =>
      by_cases hm : m = k
      · simp [hm] at hnext
      · simpa [hm] using hnext
  | link j p k hguard hlast hnone howner =>
      by_cases hm : m = x.node p
      · obtain rfl : k = n := by simpa [hm] using hnext
        obtain ⟨q, hlt, halive, hnode⟩ := h.mem_retired hn
        have hnot := (h.alive (Nat.lt_trans hlt h.first_lt) halive).2
        rw [hnode, howner] at hnot
        cases hnot
      · simpa [hm] using hnext
  | _ => exact hnext

/-- `tail` is moved to no node that has been retired. -/
theorem Move.tail_of_retired (h : Inv scanned x s) (hmove : Move scanned t x s x' s')
    (hn : s'.tail ∈ s.retired u) : s'.tail = s.tail := by
  cases hmove with
  | swingTail j p hguard htail hfollows =>
      obtain rfl := h.eq_last hguard htail
      exact absurd hn (h.next_not_retired h.first_le hfollows)
  | _ => rfl

omit [DecidableEq ν] in
/-- A list of one node. -/
theorem Inv.single (n : ν) (hnext : s.next n = none) (hallocated : ∀ m, s.allocated m ↔ m = n)
    (hhead : s.head = n) (htail : s.tail = n) (hretired : ∀ t, s.retired t = []) :
    Inv scanned
      { node := fun _ => n
        length := 1
        first := 0
        last := 0
        gone := fun _ => False
        guard := fun _ _ => none
        owner := fun _ => none
        remover := fun _ => none
        dropped := fun _ => [] } s where
  first_lt := Nat.one_pos
  last_lt := Nat.one_pos
  length_le := by simp
  head := hhead
  tail := htail
  gone := False.elim
  alive _ _ := ⟨(hallocated n).mpr rfl, rfl⟩
  inj hp hq _ _ _ := (Nat.lt_one_iff.mp hp).trans (Nat.lt_one_iff.mp hq).symm
  next hp _ := absurd hp (by simp)
  next_last _ := hnext
  guard h := nomatch h
  owner h := nomatch h
  retired := hretired
  dropped_nodup _ := List.nodup_nil
  dropped h := nomatch h
  removed h := nomatch h
  accounted {m} hm := .inl ⟨0, Nat.one_pos, id, ((hallocated m).mp hm).symm⟩

/-! ### Going through the slots -/

omit [DecidableEq ν] in
/-- A thread that has put what it has just removed on its list: it still protects that node. -/
theorem settled_of_guard (hguard : x.guard t j = some p)
    (hlast : ∀ q ∈ x.dropped t, q ≠ p → q < x.last) : Settled x t := fun q hq => by
  by_cases hqp : q = p
  · exact .inr ⟨j, hqp ▸ hguard⟩
  · exact .inl (hlast q hq hqp)

omit [DecidableEq ν] in
theorem Settled.scanning {passed : Tid → Nat → Prop} (hs : Settled x t) (h : Inv scanned x s)
    (hq : q ∈ x.dropped t) (hpassed : ∀ u j, passed u j → ¬ scanned u j) :
    Scanning x t passed q := by
  refine ⟨(h.dropped hq).2.1, ?_⟩
  rcases hs q hq with hlast | ⟨j, hj⟩
  · exact .inl ⟨hlast, fun u j hp hu => hpassed u j hp (h.guard hu).2.2.2⟩
  · exact .inr ⟨j, hj, fun hp => hpassed t j hp (h.guard hj).2.2.2⟩

omit [DecidableEq ν] in
/-- One more slot that has something else. -/
theorem Scanning.pass {passed passed' : Tid → Nat → Prop} (hs : Scanning x t passed q)
    (h : Inv scanned x s) (hslot : s.slot u j ≠ some (x.node q))
    (hpassed : ∀ v k, passed' v k → passed v k ∨ (v = u ∧ k = j) ∨ ¬ scanned v k) :
    Scanning x t passed' q := by
  have hnot : ∀ {v k}, x.guard v k = some q → ¬ passed v k → ¬ passed' v k :=
    fun {v k} hv hp hp' => by
    rcases hpassed v k hp' with hold | ⟨rfl, rfl⟩ | hout
    · exact hp hold
    · exact hslot (h.guard hv).1
    · exact hout (h.guard hv).2.2.2
  refine ⟨hs.lt_first, ?_⟩
  rcases hs.clear with ⟨hlast, hclear⟩ | ⟨k, hk, hp⟩
  · exact .inl ⟨hlast, fun v k hp' hv => hnot hv (fun hp => hclear v k hp hv) hp'⟩
  · exact .inr ⟨k, hk, hnot hk hp⟩

omit [DecidableEq ν] in
/-- Who has gone through all the slots has found nobody that protects the node. -/
theorem Scanning.clear_all {passed : Tid → Nat → Prop} (hs : Scanning x t passed q)
    (h : Inv scanned x s) (hall : ∀ u j, scanned u j → passed u j) :
    q < x.last ∧ ∀ u j, x.guard u j ≠ some q := by
  rcases hs.clear with ⟨hlast, hclear⟩ | ⟨j, hj, hp⟩
  · exact ⟨hlast, fun u j hu => hclear u j (hall u j (h.guard hu).2.2.2) hu⟩
  · exact absurd (hall t j (h.guard hj).2.2.2) hp

end Moves

/-! ### No node is lost -/

/-- What thread `t` still has to dispose of: the node it has removed and not put on its list, and
in strict use the one it has allocated and not linked. -/
structure Books (strict : Prop) (x : Ghost ν) (t : Tid) (removing unlinked : Option ν) : Prop where
  removed : ∀ {p}, x.remover p = some t → p < x.first → ¬ x.gone p →
    p ∈ x.dropped t ∨ removing = some (x.node p)
  owned : strict → ∀ {n}, x.owner n = some t → unlinked = some n

section Books

variable {strict : Prop} {scanned : Tid → Nat → Prop} {t : Tid} {x x' : Ghost ν} {s s' : State ν}
  {i p q : Nat} {n : ν} {removing unlinked : Option ν}

omit [DecidableEq ν] in
theorem Rely.books (h : Rely t x s x' s') (hw : Inv scanned x s)
    (hb : Books strict x t removing unlinked) : Books strict x' t removing unlinked := by
  refine ⟨fun {p} hr hlt halive => ?_, fun hstrict _ hn => hb.owned hstrict (h.owned hn)⟩
  obtain ⟨hlt, hr⟩ := h.removed hlt hr
  rw [h.dropped, h.node (Nat.lt_trans hlt hw.first_lt)]
  exact hb.removed hr hlt fun hg => halive ((h.alive hr hlt).mpr hg)

theorem Books.allocate (hb : Books strict x t removing none) :
    Books strict { x with owner := Function.update x.owner n (some t) } t removing (some n) := by
  refine ⟨hb.removed, fun hstrict m hm => ?_⟩
  by_cases hmn : m = n
  · exact congrArg some hmn.symm
  · cases hb.owned hstrict (show x.owner m = some t by simpa [hmn] using hm)

theorem Books.link (hb : Books strict x t removing (some n)) (hw : Inv scanned x s) :
    Books strict
      { x with
        node := Function.update x.node x.length n
        length := x.length + 1
        owner := Function.update x.owner n none } t removing none := by
  refine ⟨fun {p} hr hlt halive => ?_, fun hstrict m hm => ?_⟩
  · have hne : p ≠ x.length := Nat.ne_of_lt (Nat.lt_trans hlt hw.first_lt)
    simpa [hne] using hb.removed hr hlt halive
  · by_cases hmn : m = n
    · simp [hmn] at hm
    · have heq := hb.owned hstrict (show x.owner m = some t by simpa [hmn] using hm)
      exact absurd (Option.some.inj heq).symm hmn

omit [DecidableEq ν] in
/-- Only in loose use is an unlinked node forgotten. -/
theorem Books.forget (hb : Books strict x t removing unlinked) (hloose : ¬ strict) :
    Books strict x t removing none :=
  ⟨hb.removed, fun hstrict => absurd hstrict hloose⟩

omit [DecidableEq ν] in
theorem Books.swingHead (hb : Books strict x t none unlinked) :
    Books strict
      { x with first := x.first + 1, remover := Function.update x.remover x.first (some t) } t
      (some (x.node x.first)) unlinked := by
  refine ⟨fun {p} hr hlt halive => ?_, hb.owned⟩
  rcases Nat.lt_succ_iff_lt_or_eq.mp hlt with hlt | rfl
  · exact .inl ((hb.removed (by simpa [Nat.ne_of_lt hlt] using hr) hlt halive).resolve_right
      (by simp))
  · exact .inr rfl

omit [DecidableEq ν] in
theorem Books.retire (hb : Books strict x t (some (x.node p)) unlinked) (hw : Inv scanned x s)
    (hp : Removed x t p) :
    Books strict { x with dropped := Function.update x.dropped t (x.dropped t ++ [p]) } t none
      unlinked := by
  refine ⟨fun {q} hr hlt halive => .inl ?_, hb.owned⟩
  rcases hb.removed hr hlt halive with hq | hq
  · simp [hq]
  · have heq : p = q := hw.inj (Nat.lt_trans hp.lt_first hw.first_lt)
      (Nat.lt_trans hlt hw.first_lt) hp.alive halive (Option.some.inj hq)
    simp [heq]

omit [DecidableEq ν] in
theorem Books.free (hb : Books strict x t none unlinked) (hq : (x.dropped t)[i]? = some q) :
    Books strict
      { x with
        gone := Function.update x.gone q True
        dropped := Function.update x.dropped t ((x.dropped t).eraseIdx i) } t none unlinked := by
  refine ⟨fun {p} hr hlt halive => .inl ?_, hb.owned⟩
  have hne : p ≠ q := fun heq => halive (by simp [heq])
  have hp : p ∈ x.dropped t :=
    (hb.removed hr hlt (by simpa [hne] using halive)).resolve_right (by simp)
  obtain ⟨k, hk⟩ := List.mem_iff_getElem?.mp hp
  have hki : k ≠ i := fun heq => hne (Option.some.inj ((heq ▸ hk).symm.trans hq))
  simpa using List.mem_eraseIdx_iff_getElem?.mpr ⟨k, hki, hk⟩

omit [DecidableEq ν] in
/-- From any position that `head` has not passed, `next` leads through the rest of the list. -/
theorem Inv.path (hw : Inv scanned x s) (k : Nat) :
    ∀ {p}, x.first ≤ p → p + (k + 1) = x.length →
      LinkedList.Path s.next (some (x.node p)) ((List.range' p (k + 1)).map x.node) := by
  induction k with
  | zero =>
      intro p _ hend
      refine .cons ?_
      rw [hw.next_last hend]
      exact .nil
  | succ k ih =>
      intro p hp hend
      refine .cons ?_
      have halive : ¬ x.gone p := fun hg => absurd (hw.gone hg).1 (Nat.not_lt.mpr hp)
      rw [hw.next (by omega) halive]
      exact ih (Nat.le_succ_of_le hp) (by omega)

omit [DecidableEq ν] in
/-- **With all books closed, no node is lost**: `head` leads to it, or it is on somebody's list. -/
theorem Inv.no_leak (hw : Inv scanned x s) (hb : ∀ t, Books True x t none none) :
    ∃ nodes, LinkedList.Path s.next (some s.head) nodes
      ∧ ∀ n, s.allocated n → n ∈ nodes ∨ ∃ t, n ∈ s.retired t := by
  have hlt := hw.first_lt
  have hpath := hw.path (x.length - x.first - 1) (Nat.le_refl x.first) (by omega)
  rw [← hw.head] at hpath
  refine ⟨_, hpath, fun n hn => ?_⟩
  rcases hw.accounted hn with ⟨p, hp, halive, rfl⟩ | ⟨t, ht⟩
  · by_cases hfirst : p < x.first
    · obtain ⟨t, ht⟩ := hw.removed hfirst
      have hmem := ((hb t).removed ht hfirst halive).resolve_right (by simp)
      exact .inr ⟨t, hw.retired t ▸ List.mem_map_of_mem hmem⟩
    · exact .inl (List.mem_map_of_mem (List.mem_range'_1.mpr ⟨by omega, by omega⟩))
  · cases (hb t).owned trivial ht

end Books

end ProtectedList
