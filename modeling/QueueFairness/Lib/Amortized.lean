import Mathlib.Algebra.Order.BigOperators.Group.Finset
import Mathlib.Algebra.Order.Group.Int
import Mathlib.Algebra.Order.Group.Nat
import Mathlib.Tactic.Abel
import QueueFairness.Lib.Interleaving

/-!
# Amortized bounds on interleaved runs

Every event has a weight, what it brings in less what it costs. The memory has a potential and every
thread a credit, and no step raises them by more than its events bring in. Then what a whole run
costs is covered by what it brings in and the potential it began with, however the threads
interleave.
-/

namespace Interleaving.Program

variable {σ κ ι ε : Type} {P : Program σ κ ι ε} {ok : Config σ κ ε → Tid → ι → Prop}

/-- The credit of all threads, of which those outside of `threads` are idle. -/
def creditOf (credit : κ → Int) (threads : Finset Tid) (locals : Tid → κ) : Int :=
  ∑ t ∈ threads, credit (locals t)

theorem creditOf_update {credit : κ → Int} {threads : Finset Tid} {locals : Tid → κ} {t : Tid}
    (ht : t ∈ threads) (l : κ) :
    creditOf credit threads (Function.update locals t l) + credit (locals t)
      = creditOf credit threads locals + credit l := by
  have hold := Finset.add_sum_erase threads (fun u => credit (locals u)) ht
  have hnew := Finset.add_sum_erase threads (fun u => credit (Function.update locals t l u)) ht
  have hothers : ∑ u ∈ threads.erase t, credit (Function.update locals t l u)
      = ∑ u ∈ threads.erase t, credit (locals u) :=
    Finset.sum_congr rfl fun u hu => by rw [Function.update_of_ne (Finset.ne_of_mem_erase hu)]
  rw [Function.update_self, hothers] at hnew
  rw [creditOf, creditOf, ← hnew, ← hold]
  abel

/-- A thread that is idle may be counted in. -/
theorem creditOf_insert {credit : κ → Int} {threads : Finset Tid} {locals : Tid → κ} {t : Tid}
    (hidle : t ∉ threads → credit (locals t) = 0) :
    creditOf credit (insert t threads) locals = creditOf credit threads locals := by
  by_cases ht : t ∈ threads
  · rw [Finset.insert_eq_of_mem ht]
  · rw [creditOf, Finset.sum_insert ht, hidle ht, Int.zero_add, creditOf]

theorem creditOf_nonneg {credit : κ → Int} (hcredit : ∀ l, 0 ≤ credit l) (threads : Finset Tid)
    (locals : Tid → κ) : 0 ≤ creditOf credit threads locals :=
  Finset.sum_nonneg fun t _ => hcredit (locals t)

/-- **The amortization rule.** What the steps may add to the potential and the credits, a run
may. -/
theorem Reach.amortized (credit : κ → Int) (potential : σ → Int) (weight : ε → Int)
    (hidle : credit P.idle = 0)
    (hstep : ∀ {c t i g l es}, P.Reach ok c → ok c t i →
      P.step t i c.shared (c.locals t) = some (g, l, es) →
      credit l + potential g
        ≤ (es.map weight).sum + credit (c.locals t) + potential c.shared)
    {c : Config σ κ ε} (h : P.Reach ok c) :
    ∃ threads : Finset Tid, (∀ t, t ∉ threads → c.locals t = P.idle)
      ∧ creditOf credit threads c.locals + potential c.shared
        ≤ (c.history.map weight).sum + potential P.start := by
  induction h with
  | init => exact ⟨∅, fun _ _ => rfl, by simp [creditOf, Program.init]⟩
  | @step c _ t i hreach hok hnext ih =>
      obtain ⟨threads, hthreads, hle⟩ := ih
      obtain ⟨g, l, es, heq, rfl⟩ := next_eq_some hnext
      refine ⟨insert t threads, fun u hu => ?_, ?_⟩
      · have hut : u ≠ t := fun h => hu (h ▸ Finset.mem_insert_self ..)
        have hmem : u ∉ threads := fun h => hu (Finset.mem_insert_of_mem h)
        simpa [hut] using hthreads u hmem
      · have hcredit := hstep hreach hok heq
        have hupdate : creditOf credit (insert t threads) (Function.update c.locals t l)
            + credit (c.locals t) = creditOf credit (insert t threads) c.locals + credit l :=
          creditOf_update (Finset.mem_insert_self t threads) l
        have hinsert : creditOf credit (insert t threads) c.locals
            = creditOf credit threads c.locals :=
          creditOf_insert fun ht => by rw [hthreads t ht, hidle]
        rw [List.map_append, List.sum_append]
        simp only
        omega

/-- **Exact accounts.** What the memory has of a thread is what the thread's events have brought,
and what it has in hand, if every step keeps to that and touches no other account. -/
theorem Reach.account (account : σ → Tid → Nat) (inHand : κ → Nat) (brought : Tid → List ε → Nat)
    (hbrought : ∀ t es fs, brought t (es ++ fs) = brought t es + brought t fs)
    (hstart : ∀ t, account P.start t = brought t [] + inHand P.idle)
    (hstep : ∀ {t i g l g' l' es}, P.step t i g l = some (g', l', es) →
      account g' t + inHand l = account g t + brought t es + inHand l'
        ∧ ∀ u, u ≠ t → account g' u = account g u ∧ brought u es = 0)
    {c : Config σ κ ε} (h : P.Reach ok c) (t : Tid) :
    account c.shared t = brought t c.history + inHand (c.locals t) := by
  induction h with
  | init => exact hstart t
  | @step c _ u i _ _ hnext ih =>
      obtain ⟨g, l, es, heq, rfl⟩ := next_eq_some hnext
      obtain ⟨hown, hothers⟩ := hstep heq
      by_cases ht : t = u
      · subst ht
        simp only [Function.update_self, hbrought]
        omega
      · obtain ⟨hsame, hnone⟩ := hothers t ht
        simp only [Function.update_of_ne ht, hbrought, hsame, hnone, ih, Nat.add_zero]

end Interleaving.Program
