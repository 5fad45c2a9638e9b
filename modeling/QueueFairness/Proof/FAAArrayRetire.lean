import QueueFairness.Proof.FAAArrayReclaim
import QueueFairness.Proof.HazardRetired

/-!
# Retiring array nodes is wait-free

The array queue uses its table as the bound on the retired lists asks for: what a thread publishes
it has just read from `head` or from `tail`.
-/

namespace QueueFairness.FAAArrayQueue

open Interleaving HazardPointers

variable {L : Layout} {maxThreads : Nat} {t : Tid} {i : Input} {g g' : Shared} {l l' : Local}
  {es : List Event} {c : Config Shared Local Event}

/-- The pointer that the thread is about to publish. -/
def Local.pending : Local → Option Nat
  | .enqPublish _ ret | .deqPublish ret => some ret
  | _ => none

/-- Where the thread stands in `retire`. -/
def Local.phase : Local → Phase
  | .deqRetire lhead => .retire lhead
  | .deqScan scan => .scan scan
  | _ => .away

theorem phase_afterScan (scan : Option Scan) : (afterScan scan).phase = .after scan := by
  cases scan <;> rfl

/-- Every step of the queue is one of the table. -/
theorem step_table (hstep : reusingStep L maxThreads t i g l = some (g', l', es)) :
    TableStep maxThreads t l.pending g.hp l.phase g'.hp l'.phase := by
  cases l with
  | idle =>
      obtain ⟨op, -, hop⟩ := Option.map_eq_some_iff.mp hstep
      cases op <;> cases hop <;> exact .stay
  | enqPublish item ret | deqPublish ret =>
      cases hstep
      exact .publish rfl
  | enqClear item | deqClear v =>
      cases hstep
      exact .clear
  | deqCasHead lhead lnext =>
      simp only [reusingStep, step] at hstep
      split at hstep <;> cases hstep
      · exact .remove
      · exact .stay
  | deqRetire lhead =>
      cases hstep
      rw [phase_afterScan]
      exact .retire
  | deqScan scan =>
      simp only [reusingStep, step, Option.some.injEq, Prod.mk.injEq] at hstep
      obtain ⟨hg, rfl, -⟩ := hstep
      have hhp : g'.hp = (scanStep maxThreads t g.hp scan).1 := by
        subst hg
        cases (scanStep maxThreads t g.hp scan).2.2 <;> rfl
      rw [phase_afterScan, hhp]
      exact .scan
  | enqNewNode item ltail =>
      obtain ⟨-, heq⟩ := Option.ite_none_right_eq_some.mp hstep
      cases heq
      exact .stay
  | enqHelpTail item ltail lnext | enqCasTail item ltail n | deqCasEnqidx lhead idx enqidx =>
      simp only [reusingStep, step, Option.some.injEq, Prod.mk.injEq] at hstep
      obtain ⟨rfl, rfl, -⟩ := hstep
      split <;> exact .stay
  | enqCasCell item ltail idx | deqLoadCell lhead idx =>
      simp only [reusingStep, step] at hstep
      split at hstep
      · cases hstep
      split at hstep <;> cases hstep <;> exact .stay
  | enqProtect | enqFetchAdd | enqCheckTail | enqLoadNext | enqCasNext | deqProtect | deqFetchAdd
  | deqLoadNext | deqLoadEnqidx | deqSpin | deqExchange | deqReloadEnqidx | deqCheckNext =>
      simp only [reusingStep, step] at hstep
      split at hstep <;> cases hstep <;> exact .stay
  | _ =>
      cases hstep
      exact .stay

/-- What a thread gets hold of to publish it is the first node or `tail`'s. -/
theorem step_pending {n : Nat} (hstep : reusingStep L maxThreads t i g l = some (g', l', es))
    (hn : l'.pending = some n) : n = g.head ∨ n = g.tail := by
  have hafter : ∀ scan, (afterScan scan).pending = none := fun scan => by cases scan <;> rfl
  cases l with
  | idle =>
      obtain ⟨op, -, hop⟩ := Option.map_eq_some_iff.mp hstep
      cases op <;> cases hop <;> cases hn
  | enqProtect item m =>
      simp only [reusingStep, step] at hstep
      split at hstep <;> cases hstep
      · cases hn
      · exact .inr (Option.some.inj hn).symm
  | deqProtect m =>
      simp only [reusingStep, step] at hstep
      split at hstep <;> cases hstep
      · cases hn
      · exact .inl (Option.some.inj hn).symm
  | deqRetire | deqScan =>
      obtain rfl := congrArg (·.2.1) (Option.some.inj hstep)
      rw [hafter] at hn
      cases hn
  | enqNewNode item ltail =>
      obtain ⟨-, heq⟩ := Option.ite_none_right_eq_some.mp hstep
      cases heq
      cases hn
  | enqCasCell item ltail idx | deqLoadCell lhead idx =>
      simp only [reusingStep, step] at hstep
      split at hstep
      · cases hstep
      split at hstep <;> cases hstep <;> cases hn
  | enqFetchAdd | enqCheckTail | enqLoadNext | enqCasNext | deqFetchAdd | deqLoadNext | deqCasHead
  | deqLoadEnqidx | deqSpin | deqExchange | deqReloadEnqidx | deqCheckNext =>
      simp only [reusingStep, step] at hstep
      split at hstep <;> cases hstep <;> cases hn
  | _ =>
      cases hstep
      cases hn

def tableUse (L : Layout) (maxThreads : Nat) :
    TableUse (reusingProgram L maxThreads) (fun _ t _ => t < maxThreads) maxThreads where
  list := Shared.asList
  table := Shared.hp
  pending _ := Local.pending
  phase := Local.phase
  slot _ := rfl
  retired _ := rfl
  start _ := rfl
  idle := rfl
  step := step_table
  inv {c} h := by
    obtain ⟨x, hw, hl⟩ := (reclaimInvariant False L maxThreads).holds
      (h.mono fun _ _ _ ht => ⟨ht, False.elim⟩)
    refine ⟨x, hw, fun {t i g l es} ht hstep => ⟨?_, fun u v n hretired hn => ?_⟩⟩
    · obtain ⟨x', hmove, -⟩ := step_moves ht hw (hl t) False.elim hstep
      exact ⟨x', hmove⟩
    · by_cases hu : u = t
      · subst hu
        rw [Function.update_self] at hn
        refine .inr ((step_pending hstep hn).resolve_left fun heq => ?_)
        exact hw.head_not_retired (heq ▸ hretired)
      · rw [Function.update_of_ne hu] at hn
        exact .inl hn

/-- **`retire` is wait-free, and few nodes wait to be deleted.** A thread has at most
`3 * maxThreads + 2` nodes on its retired list, and it is through with `retire` after a number of
steps of its own that is quadratic in `maxThreads`, whatever the others do. -/
theorem retire_wait_free (h : (reusingProgram L maxThreads).Reach (fun _ t _ => t < maxThreads) c)
    (t : Tid) : (c.shared.hp.retiredList t).length ≤ 3 * maxThreads + 2
      ∧ ((c.locals t).phase.Retiring → ∀ (sched : List (Tid × Input)) c',
        (reusingProgram L maxThreads).Runs (fun _ u _ => u < maxThreads) c sched c' →
        (3 * maxThreads + 2) * (2 * maxThreads + 1) + 1 ≤ (sched.countP fun x => x.1 = t) →
        ∃ before after d, sched = before ++ after
          ∧ (reusingProgram L maxThreads).Runs (fun _ u _ => u < maxThreads) c before d
          ∧ ¬ (d.locals t).phase.Retiring) :=
  ⟨((tableUse L maxThreads).length_retiredList_le h t).1, fun hretiring _ _ hruns hlong =>
    (tableUse L maxThreads).leaves_retire h hruns hretiring hlong⟩

/-- With one cell a node, thread 1 has taken the item of the first node and is about to retire
it. -/
def retireSchedule : List (Tid × Input) :=
  List.replicate 9 (0, { op := some (.enqueue 7) })
    ++ List.replicate 13 (0, { op := some (.enqueue 8), addr := 1 })
    ++ List.replicate 17 (1, { op := some .dequeue })

/-- From there on thread 1 dequeues and dequeues. -/
def pollSchedule : List (Tid × Input) := List.replicate 50 (1, { op := some .dequeue })

theorem retire_wait_free_polled :
    ∃ c, (c.locals 1).phase.Retiring
      ∧ ∃ before after d, pollSchedule = before ++ after
        ∧ (reusingProgram (.identity 1 (by decide)) 2).Runs (fun _ u _ => u < 2) c before d
        ∧ ¬ (d.locals 1).phase.Retiring := by
  have hrun : (((reusingProgram (.identity 1 (by decide)) 2).execIf 2 (fun _ t _ => decide (t < 2))
      (reusingProgram (.identity 1 (by decide)) 2).init retireSchedule).map fun c =>
        (c.locals 1, ((reusingProgram (.identity 1 (by decide)) 2).exec c pollSchedule).isSome))
      = some (.deqRetire 0, true) := by
    decide +kernel
  obtain ⟨c, hexec, heq⟩ := Option.map_eq_some_iff.mp hrun
  obtain ⟨hlocal, hsome⟩ := Prod.mk.inj heq
  obtain ⟨c', hpoll⟩ := Option.isSome_iff_exists.mp hsome
  have hreach : (reusingProgram (.identity 1 (by decide)) 2).Reach (fun _ t _ => t < 2) c :=
    .execIf (fun _ _ _ _ hcheck => of_decide_eq_true hcheck) .init (fun _ _ => rfl) hexec
  have hretiring : (c.locals 1).phase.Retiring := by
    rw [hlocal]
    trivial
  have hruns : (reusingProgram (.identity 1 (by decide)) 2).Runs (fun _ u _ => u < 2) c
      pollSchedule c' := .of_exec hpoll fun x hx _ => by
    rw [List.eq_of_mem_replicate hx]
    decide
  exact ⟨c, hretiring, (retire_wait_free hreach 1).2 hretiring pollSchedule c' hruns (by decide)⟩

end QueueFairness.FAAArrayQueue
