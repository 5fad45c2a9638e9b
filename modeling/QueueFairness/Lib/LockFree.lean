import Mathlib.Algebra.Order.BigOperators.Group.Finset
import Mathlib.Algebra.Order.Group.Nat
import QueueFairness.Lib.Interleaving

/-!
# Lock-freedom and wait-freedom

Some call returns whenever the threads take enough steps, whichever threads take them. The proof
rule asks for a rank of each thread: the steps it has left until its call takes effect or returns,
if no other call takes effect. A call that takes effect may raise the ranks of all threads, but it
does so only once before it returns. The rank may know how many calls may still take effect, and
reckon with what they will add to the memory.

A part of the program is wait-free when a thread is through with it after so many steps of its own,
whatever the others do meanwhile.
-/

namespace Interleaving

variable {σ κ ι ε : Type}

/-- The steps `sched` lead from one configuration to another, and all of them satisfy `ok`. -/
inductive Program.Runs (P : Program σ κ ι ε) (ok : Config σ κ ε → Tid → ι → Prop) :
    Config σ κ ε → List (Tid × ι) → Config σ κ ε → Prop
  | nil {c : Config σ κ ε} : Runs P ok c [] c
  | cons {c d c' : Config σ κ ε} {t : Tid} {i : ι} {rest : List (Tid × ι)} (hok : ok c t i)
      (hnext : P.next c t i = some d) (hrest : Runs P ok d rest c') :
        Runs P ok c ((t, i) :: rest) c'

section Runs

variable {P : Program σ κ ι ε} {ok : Config σ κ ε → Tid → ι → Prop} {c c' : Config σ κ ε}
  {sched : List (Tid × ι)}

theorem Program.Runs.of_exec (hexec : P.exec c sched = some c')
    (hok : ∀ x ∈ sched, ∀ c, ok c x.1 x.2) : P.Runs ok c sched c' := by
  induction sched generalizing c with
  | nil =>
      obtain rfl := Option.some.inj hexec
      exact .nil
  | cons head rest ih =>
      obtain ⟨t, i⟩ := head
      obtain ⟨d, hnext, hrest⟩ := Option.bind_eq_some_iff.mp hexec
      exact .cons (hok _ List.mem_cons_self c) hnext
        (ih hrest fun x hx => hok x (List.mem_cons_of_mem _ hx))

theorem Program.Runs.history (h : P.Runs ok c sched c') :
    ∃ es, c'.history = c.history ++ es := by
  induction h with
  | nil => exact ⟨[], (List.append_nil _).symm⟩
  | cons _ hnext _ ih =>
      obtain ⟨g, l, fs, -, rfl⟩ := Program.next_eq_some hnext
      obtain ⟨es, hes⟩ := ih
      exact ⟨fs ++ es, by rw [hes, List.append_assoc]⟩

end Runs

/-- A proof of lock-freedom from the configurations of `inv` on, for the steps that satisfy `ok`.
`finishes` are the events of a return; a thread has `won` when its call has taken effect. -/
structure LockFree (P : Program σ κ ι ε) (inv : Config σ κ ε → Prop)
    (ok : Config σ κ ε → Tid → ι → Prop) (finishes : ε → Prop) where
  keep : ∀ {c d : Config σ κ ε} {t : Tid} {i : ι}, inv c → ok c t i → P.next c t i = some d → inv d
  rank : Nat → Config σ κ ε → Tid → Nat
  won : κ → Bool
  raise : Nat
  step : ∀ {c : Config σ κ ε} {t : Tid} {i : ι} {g : σ} {l : κ} {es : List ε} (w : Nat), inv c →
    ok c t i → P.step t i c.shared (c.locals t) = some (g, l, es) → (∀ e ∈ es, ¬ finishes e) →
    (won (c.locals t) = false ∧ won l = true
        ∧ ∀ u, rank w ⟨g, Function.update c.locals t l, c.history ++ es⟩ u ≤ rank (w + 1) c u
          + raise)
      ∨ won l = won (c.locals t)
        ∧ rank w ⟨g, Function.update c.locals t l, c.history ++ es⟩ t < rank w c t
        ∧ ∀ u, u ≠ t →
          rank w ⟨g, Function.update c.locals t l, c.history ++ es⟩ u ≤ rank w c u

namespace LockFree

variable {P : Program σ κ ι ε} {inv : Config σ κ ε → Prop} {ok : Config σ κ ε → Tid → ι → Prop}
  {finishes : ε → Prop} (F : LockFree P inv ok finishes)

/-- The threads whose calls have not taken effect yet. -/
def waiting (threads : Finset Tid) (locals : Tid → κ) : Finset Tid :=
  threads.filter fun t => F.won (locals t) = false

/-- What a call that has not taken effect yet is worth among `n` threads. -/
def stake (n : Nat) : Nat := F.raise * n + 1

/-- The steps that the threads may take until one of them returns. -/
def potential (threads : Finset Tid) (c : Config σ κ ε) : Nat :=
  ∑ t ∈ threads, F.rank (F.waiting threads c.locals).card c t
    + (F.waiting threads c.locals).card * F.stake threads.card

variable {threads : Finset Tid} {c c' : Config σ κ ε} {t : Tid} {i : ι} {l : κ}

/-- One thread fewer waits when the call of a thread takes effect. -/
theorem card_waiting_of_won (ht : t ∈ threads) (hbefore : F.won (c.locals t) = false)
    (hafter : F.won l = true) : (F.waiting threads c.locals).card
      = (F.waiting threads (Function.update c.locals t l)).card + 1 := by
  have hmem : t ∈ F.waiting threads c.locals := Finset.mem_filter.mpr ⟨ht, hbefore⟩
  have herase : F.waiting threads (Function.update c.locals t l)
      = (F.waiting threads c.locals).erase t := by
    ext u
    rw [Finset.mem_erase, waiting, waiting, Finset.mem_filter, Finset.mem_filter]
    by_cases hu : u = t
    · subst hu
      simp [hafter]
    · simp [hu]
  rw [herase, Finset.card_erase_add_one hmem]

theorem waiting_of_same (hsame : F.won l = F.won (c.locals t)) :
    F.waiting threads (Function.update c.locals t l) = F.waiting threads c.locals := by
  refine Finset.filter_congr fun u _ => ?_
  by_cases hu : u = t
  · subst hu
    rw [Function.update_self, hsame]
  · rw [Function.update_of_ne hu]

/-- **Every step that is not a return brings the threads nearer to one.** -/
theorem potential_lt (ht : t ∈ threads) (h : inv c) (hok : ok c t i) {g : σ} {es : List ε}
    (hstep : P.step t i c.shared (c.locals t) = some (g, l, es))
    (hnone : ∀ e ∈ es, ¬ finishes e) :
    F.potential threads ⟨g, Function.update c.locals t l, c.history ++ es⟩
      < F.potential threads c := by
  rcases F.step (F.waiting threads (Function.update c.locals t l)).card h hok hstep hnone with
    ⟨hbefore, hafter, hraise⟩ | ⟨hsame, hless, hle⟩
  · -- The stake of the thread pays for what the threads have to do again.
    have hcard := F.card_waiting_of_won ht hbefore hafter
    have hsum : ∑ u ∈ threads, F.rank (F.waiting threads (Function.update c.locals t l)).card
          ⟨g, Function.update c.locals t l, c.history ++ es⟩ u
        ≤ ∑ u ∈ threads, F.rank (F.waiting threads c.locals).card c u
          + threads.card * F.raise := by
      calc ∑ u ∈ threads, F.rank (F.waiting threads (Function.update c.locals t l)).card
            ⟨g, Function.update c.locals t l, c.history ++ es⟩ u
          ≤ ∑ u ∈ threads, (F.rank (F.waiting threads c.locals).card c u + F.raise) := by
            rw [hcard]
            exact Finset.sum_le_sum fun u _ => hraise u
        _ = ∑ u ∈ threads, F.rank (F.waiting threads c.locals).card c u
              + threads.card * F.raise := by
            rw [Finset.sum_add_distrib, Finset.sum_const_nat fun _ _ => rfl]
    have hstake : (F.waiting threads c.locals).card * F.stake threads.card
        = (F.waiting threads (Function.update c.locals t l)).card * F.stake threads.card
          + threads.card * F.raise + 1 := by
      rw [hcard, Nat.succ_mul, stake, Nat.mul_comm F.raise, Nat.add_assoc]
    calc F.potential threads ⟨g, Function.update c.locals t l, c.history ++ es⟩
        ≤ ∑ u ∈ threads, F.rank (F.waiting threads c.locals).card c u + threads.card * F.raise
          + (F.waiting threads (Function.update c.locals t l)).card * F.stake threads.card :=
          Nat.add_le_add_right hsum _
      _ < F.potential threads c := by
          rw [potential, hstake]
          omega
  · have hwaiting : F.waiting threads (Function.update c.locals t l) = F.waiting threads c.locals :=
      F.waiting_of_same hsame
    rw [hwaiting] at hless hle
    rw [potential, potential]
    simp only [hwaiting]
    refine Nat.add_lt_add_right (Finset.sum_lt_sum (fun u _ => ?_) ⟨t, ht, hless⟩) _
    by_cases hu : u = t
    · subst hu
      exact Nat.le_of_lt hless
    · exact hle u hu

/-- A run without a return is no longer than the potential it begins with. -/
theorem length_le {sched : List (Tid × ι)} {es : List ε} (h : inv c)
    (hruns : P.Runs ok c sched c') (hsched : ∀ x ∈ sched, x.1 ∈ threads)
    (hes : c'.history = c.history ++ es) (hnone : ∀ e ∈ es, ¬ finishes e) :
    sched.length ≤ F.potential threads c := by
  induction hruns generalizing es with
  | nil => exact Nat.zero_le _
  | @cons c d c' t i rest hok hnext hrest ih =>
      have hd : inv d := F.keep h hok hnext
      obtain ⟨g, l, fs, hstep, rfl⟩ := Program.next_eq_some hnext
      obtain ⟨more, hmore⟩ := hrest.history
      have hall : es = fs ++ more := by
        rw [hes, List.append_assoc] at hmore
        exact List.append_cancel_left hmore
      have hlt := F.potential_lt (hsched _ List.mem_cons_self) h hok hstep
        fun e he => hnone e (hall ▸ List.mem_append_left _ he)
      have hle := ih hd (fun x hx => hsched x (List.mem_cons_of_mem _ hx)) hmore
        fun e he => hnone e (hall ▸ List.mem_append_right _ he)
      rw [List.length_cons]
      exact Nat.lt_of_le_of_lt hle hlt

/-- **The rule of lock-freedom.** Some call has returned when the threads have taken more steps than
their potential allows. -/
theorem returns {sched : List (Tid × ι)} (h : inv c) (hruns : P.Runs ok c sched c')
    (hsched : ∀ x ∈ sched, x.1 ∈ threads) (hlong : F.potential threads c < sched.length) :
    ∃ es, c'.history = c.history ++ es ∧ ∃ e ∈ es, finishes e := by
  obtain ⟨es, hes⟩ := hruns.history
  refine ⟨es, hes, ?_⟩
  by_contra hnone
  have hle := F.length_le h hruns hsched hes fun e he hfin => hnone ⟨e, he, hfin⟩
  omega

/-- The potential is bounded when the ranks are. -/
theorem potential_le {bound : Nat} (hbound : ∀ w u, F.rank w c u ≤ bound) :
    F.potential threads c ≤ threads.card * (bound + F.stake threads.card) := by
  have hranks : ∑ t ∈ threads, F.rank (F.waiting threads c.locals).card c t
      ≤ threads.card * bound :=
    Finset.sum_le_card_nsmul threads _ _ fun t _ => hbound _ t
  have hwaiting : (F.waiting threads c.locals).card * F.stake threads.card
      ≤ threads.card * F.stake threads.card :=
    Nat.mul_le_mul_right _ (Finset.card_filter_le ..)
  rw [potential, Nat.mul_add]
  exact Nat.add_le_add hranks hwaiting

end LockFree

/-- A proof that thread `t` leaves the part `inside` of the program by steps of its own. -/
structure WaitFree (P : Program σ κ ι ε) (t : Tid) (inside : κ → Prop) where
  left : σ → κ → Nat
  pos : ∀ {g : σ} {l : κ}, inside l → 0 < left g l
  own : ∀ {i : ι} {g g' : σ} {l l' : κ} {es : List ε}, P.step t i g l = some (g', l', es) →
    inside l → left g' l' < left g l
  other : ∀ {u : Tid} {i : ι} {g g' : σ} {k k' : κ} {es : List ε} (l : κ), u ≠ t →
    P.step u i g k = some (g', k', es) → inside l → left g' l ≤ left g l

/-- **The rule of wait-freedom.** A thread that has taken all the steps it had left has been
outside. -/
theorem WaitFree.leaves {P : Program σ κ ι ε} {ok : Config σ κ ε → Tid → ι → Prop} {t : Tid}
    {inside : κ → Prop} (F : WaitFree P t inside) {c c' : Config σ κ ε} {sched : List (Tid × ι)}
    (hruns : P.Runs ok c sched c') (hinside : inside (c.locals t))
    (hlong : F.left c.shared (c.locals t) ≤ sched.countP fun x => x.1 = t) :
    ∃ before after d, sched = before ++ after ∧ P.Runs ok c before d ∧ ¬ inside (d.locals t) := by
  induction hruns with
  | nil => exact absurd hlong (Nat.not_le.mpr (F.pos hinside))
  | @cons c d c' u i rest hok hnext hrest ih =>
      by_cases hd : inside (d.locals t)
      · have hle : F.left d.shared (d.locals t) ≤ rest.countP fun x => x.1 = t := by
          obtain ⟨g, l, es, hstep, rfl⟩ := Program.next_eq_some hnext
          rw [List.countP_cons] at hlong
          by_cases hu : u = t
          · subst hu
            have hown := F.own hstep hinside
            simp only [Function.update_self, decide_true, if_true] at hlong ⊢
            omega
          · have hlocal : Function.update c.locals u l t = c.locals t :=
              Function.update_of_ne (Ne.symm hu) ..
            have hother := F.other (c.locals t) hu hstep hinside
            simp only [hlocal, hu, decide_false] at hlong ⊢
            exact Nat.le_trans hother hlong
        obtain ⟨before, after, e, rfl, hbefore, he⟩ := ih hd hle
        exact ⟨(u, i) :: before, after, e, rfl, .cons hok hnext hbefore, he⟩
      · exact ⟨[(u, i)], rest, d, rfl, .cons hok hnext .nil, hd⟩

end Interleaving
