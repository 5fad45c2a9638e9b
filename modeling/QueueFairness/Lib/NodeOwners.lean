import QueueFairness.Lib.ProtectedList

/-!
# Who answers for a node

A thread answers for a node from when it allocates it to when it links or frees it, and again from
when it removes it to when it puts it on its list of retired nodes. A move makes its own thread
answer for a node only in these two ways, and nobody else for anything; and as long as nobody
answers for anything, every node that is allocated is in the list or retired.
-/

namespace ProtectedList

open Interleaving (Tid)

variable {ν : Type} {scanned : Tid → Nat → Prop} {t u : Tid} {x x' : Ghost ν} {s s' : State ν}
  {n m : ν} {p : Nat}

def Answers (x : Ghost ν) (t : Tid) (n : ν) : Prop :=
  x.owner n = some t ∨ ∃ p, Removed x t p ∧ x.node p = n

theorem Answers.allocated (ha : Answers x t n) (h : Inv scanned x s) : s.allocated n := by
  rcases ha with howner | ⟨p, hp, rfl⟩
  · exact (h.owner howner).1
  · exact (h.alive (Nat.lt_trans hp.lt_first h.first_lt) hp.alive).1

/-- What the others do does not make a thread answer for more. -/
theorem Rely.answers (hrely : Rely t x s x' s') (h : Inv scanned x s) (ha : Answers x' t n) :
    Answers x t n := by
  rcases ha with howner | ⟨p, hp, hn⟩
  · exact .inl (hrely.owned howner)
  · obtain ⟨hlt, hremover⟩ := hrely.removed hp.lt_first hp.remover
    refine .inr ⟨p, ⟨hremover, hlt, ?_, ?_⟩, ?_⟩
    · intro hgone
      exact hp.alive ((hrely.alive hremover hlt).mpr hgone)
    · rw [← hrely.dropped]
      exact hp.not_dropped
    · rw [← hrely.node (Nat.lt_trans hlt h.first_lt)]
      exact hn

/-- What a thread has removed depends on part of what a proof knows only. -/
theorem Removed.congr (hp : Removed x' t p) (hremover : x'.remover = x.remover)
    (hfirst : x'.first = x.first) (hgone : x'.gone = x.gone) (hdropped : x'.dropped = x.dropped) :
    Removed x t p :=
  ⟨hremover ▸ hp.remover, hfirst ▸ hp.lt_first, hgone ▸ hp.alive, hdropped ▸ hp.not_dropped⟩

/-- What a thread has removed is not on its list. -/
theorem Removed.not_retired (hp : Removed x t p) (h : Inv scanned x s) :
    x.node p ∉ s.retired t := by
  intro hmem
  rw [h.retired] at hmem
  obtain ⟨q, hq, heq⟩ := List.mem_map.mp hmem
  obtain ⟨-, hlt, halive⟩ := h.dropped hq
  have hqp : q = p := h.inj (Nat.lt_trans hlt h.first_lt) (Nat.lt_trans hp.lt_first h.first_lt)
    halive hp.alive heq
  exact hp.not_dropped (hqp ▸ hq)

section Moves

variable [DecidableEq ν]

/-- What a move makes its thread answer for, it has allocated or removed just now; and what the
thread answers for has not been linked or retired just now. -/
structure Since (t : Tid) (x : Ghost ν) (s s' : State ν) (n : ν) : Prop where
  before : Answers x t n ∨ ¬ s.allocated n ∨ s.head = n ∧ s'.head ≠ n
  unlinked : ∀ m, s'.next m = some n → s.next m = some n
  unretired : n ∈ s'.retired t → n ∈ s.retired t

omit [DecidableEq ν] in
/-- A move that leaves the list and the retired nodes as they are. -/
theorem Since.same (ha : Answers x t n) (hnext : s'.next = s.next)
    (hretired : s'.retired = s.retired) : Since t x s s' n :=
  ⟨.inl ha, fun _ hm => hnext ▸ hm, fun hmem => hretired ▸ hmem⟩

theorem Move.since (h : Inv scanned x s) (hmove : Move scanned t x s x' s')
    (ha : Answers x' t n) : Since t x s s' n := by
  cases hmove with
  | stay => exact .same ha rfl rfl
  | publish j m | guardHead j | guardTail j | swingTail j p =>
      refine .same ?_ rfl rfl
      exact ha.imp_right fun ⟨q, hq, hn⟩ => ⟨q, hq.congr rfl rfl rfl rfl, hn⟩
  | allocate m hfree =>
      by_cases hnm : n = m
      · refine ⟨.inr (.inl (hnm ▸ hfree)), fun k hk => ?_, id⟩
        by_cases hkm : k = m
        · simp [hkm] at hk
        · simpa [hkm] using hk
      · refine ⟨.inl ?_, fun k hk => ?_, id⟩
        · rcases ha with howner | ⟨q, hq, hn⟩
          · exact .inl (by simpa [hnm] using howner)
          · exact .inr ⟨q, hq.congr rfl rfl rfl rfl, hn⟩
        · by_cases hkm : k = m
          · simp [hkm] at hk
          · simpa [hkm] using hk
  | discard m howner =>
      refine .same ?_ rfl rfl
      rcases ha with hn | ⟨q, hq, hn⟩
      · by_cases hnm : n = m
        · simp [hnm] at hn
        · exact .inl (by simpa [hnm] using hn)
      · exact .inr ⟨q, hq.congr rfl rfl rfl rfl, hn⟩
  | link j p m hguard hlast hnext howner =>
      have hnode : ∀ {q}, Removed x t q → q ≠ x.length := fun hq =>
        Nat.ne_of_lt (Nat.lt_trans hq.lt_first h.first_lt)
      have hbefore : Answers x t n ∧ n ≠ m := by
        rcases ha with hn | ⟨q, hq, hn⟩
        · by_cases hnm : n = m
          · simp [hnm] at hn
          · exact ⟨.inl (by simpa [hnm] using hn), hnm⟩
        · have hq : Removed x t q := ⟨hq.remover, hq.lt_first, hq.alive, hq.not_dropped⟩
          have hn : x.node q = n := by simpa [hnode hq] using hn
          refine ⟨.inr ⟨q, hq, hn⟩, fun hnm => ?_⟩
          have hnone := (h.alive (Nat.lt_trans hq.lt_first h.first_lt) hq.alive).2
          rw [hn, hnm, howner] at hnone
          cases hnone
      refine ⟨.inl hbefore.1, fun k hk => ?_, id⟩
      by_cases hkp : k = x.node p
      · rw [hkp] at hk
        have heq : m = n := by simpa using hk
        exact absurd heq.symm hbefore.2
      · simpa [hkp] using hk
  | swingHead j p hguard hhead hfollows =>
      obtain rfl := h.eq_first hguard hhead
      refine ⟨?_, fun _ hk => hk, id⟩
      rcases ha with hn | ⟨q, hq, rfl⟩
      · exact .inl (.inl hn)
      · rcases Nat.lt_succ_iff_lt_or_eq.mp hq.lt_first with hlt | rfl
        · have hremover : x.remover q = some t := by
            simpa [Nat.ne_of_lt hlt] using hq.remover
          exact .inl (.inr ⟨q, ⟨hremover, hlt, hq.alive, hq.not_dropped⟩, rfl⟩)
        · refine .inr (.inr ⟨hhead, fun heq => ?_⟩)
          have hnext : ¬ x.gone (x.first + 1) := fun hgone =>
            absurd (h.gone hgone).1 (by omega)
          exact absurd (h.inj hfollows h.first_lt hnext h.first_alive heq) (by omega)
  | retire p hremoved =>
      have hbefore : Answers x t n ∧ n ≠ x.node p := by
        rcases ha with hn | ⟨q, hq, rfl⟩
        · refine ⟨.inl hn, fun heq => ?_⟩
          have hnone := (h.alive (Nat.lt_trans hremoved.lt_first h.first_lt) hremoved.alive).2
          rw [← heq] at hnone
          exact absurd (hn.symm.trans hnone) (by simp)
        · have hnot : q ∉ x.dropped t ∧ q ≠ p := by simpa using hq.not_dropped
          refine ⟨.inr ⟨q, ⟨hq.remover, hq.lt_first, hq.alive, hnot.1⟩, rfl⟩, fun heq => hnot.2 ?_⟩
          exact h.inj (Nat.lt_trans hq.lt_first h.first_lt)
            (Nat.lt_trans hremoved.lt_first h.first_lt) hq.alive hremoved.alive heq
      refine ⟨.inl hbefore.1, fun _ hk => hk, fun hmem => ?_⟩
      simpa [hbefore.2] using hmem
  | free i q hq hlast hclear =>
      refine ⟨.inl ?_, fun _ hk => hk, fun hmem => ?_⟩
      · rcases ha with hn | ⟨p, hp, rfl⟩
        · exact .inl hn
        · have halive := hp.alive
          have hpq : p ≠ q := fun heq => halive (by simp [heq])
          refine .inr
            ⟨p, ⟨hp.remover, hp.lt_first, by simpa [hpq] using halive, fun hmem => ?_⟩, rfl⟩
          obtain ⟨k, hk⟩ := List.mem_iff_getElem?.mp hmem
          have hki : k ≠ i := fun heq => hpq (Option.some.inj ((heq ▸ hk).symm.trans hq))
          apply hp.not_dropped
          simpa using List.mem_eraseIdx_iff_getElem?.mpr ⟨k, hki, hk⟩
      · exact List.mem_of_mem_eraseIdx (by simpa using hmem)

end Moves

/-! ### When nobody answers for anything -/

theorem books_of_not_answers (hnone : ∀ n, ¬ Answers x t n) : Books True x t none none := by
  refine ⟨fun {p} hremover hlt halive => .inl ?_, fun _ n howner => absurd (.inl howner) (hnone n)⟩
  by_contra hnot
  exact hnone _ (.inr ⟨p, ⟨hremover, hlt, halive, hnot⟩, rfl⟩)

/-- A node is on one thread's list only. -/
theorem Inv.retired_unique (h : Inv scanned x s) (ht : n ∈ s.retired t) (hu : n ∈ s.retired u) :
    t = u := by
  rw [h.retired] at ht hu
  obtain ⟨p, hp, rfl⟩ := List.mem_map.mp ht
  obtain ⟨q, hq, heq⟩ := List.mem_map.mp hu
  obtain ⟨hremover, hlt, halive⟩ := h.dropped hp
  obtain ⟨hremover', hlt', halive'⟩ := h.dropped hq
  obtain rfl :=
    h.inj (Nat.lt_trans hlt' h.first_lt) (Nat.lt_trans hlt h.first_lt) halive' halive heq
  exact Option.some.inj (hremover.symm.trans hremover')

/-- What is retired is allocated, and `head` does not lead to it. -/
theorem Inv.retired_spec (h : Inv scanned x s) (ht : n ∈ s.retired t) :
    s.allocated n ∧ n ≠ s.head := by
  obtain ⟨p, hlt, halive, rfl⟩ := h.mem_retired ht
  exact ⟨(h.alive (Nat.lt_trans hlt h.first_lt) halive).1, fun heq => h.head_not_retired (heq ▸ ht)⟩

theorem Inv.head_allocated (h : Inv scanned x s) : s.allocated s.head := by
  rw [h.head]
  exact (h.alive h.first_lt h.first_alive).1

end ProtectedList
