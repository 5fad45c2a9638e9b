import QueueFairness.CRQueue
import QueueFairness.Proof.HazardRetired
import QueueFairness.Proof.LinkedRingReclaim

/-!
# Retiring ring segments is wait-free

A thread that publishes a segment may have been led to it by the segment before it, which it has
protected for long: an enqueue whose own segment was not linked, and a dequeue that has retired its
segment. Such a segment it had in hand all the time, for a pointer to the next segment never
changes, and none is set to a segment that has been retired.
-/

namespace QueueFairness.LinkedRingQueue

open Interleaving HazardPointers
open ProtectedList (Inv)

variable {σ κe κd : Type} {S : SegmentType σ κe κd} {maxThreads : Nat} {t : Tid} {i : Input}
  {g g' : Shared σ} {l l' : Local κe κd} {es : List Event}
  {c : Config (Shared σ) (Local κe κd) Event}

/-- The segment that the thread may publish next without another look at `head` or `tail`. -/
def Local.pending (g : Shared σ) : Local κe κd → Option Nat
  | .enqProtect _ n | .deqProtect n | .sizePublishHead n | .sizePublishTail _ n => some n
  | .enqLoadNext _ ltail | .enqSegment _ ltail _ | .enqLoadStart _ ltail | .enqNew _ ltail _
  | .enqNewSegment _ ltail _ _ | .enqCasNext _ ltail _ => nextPtr g ltail
  | .enqDelete _ _ lnext | .deqRetire _ lnext | .deqScan lnext _ => some lnext
  | _ => none

/-- Where the thread stands in `retire`. -/
def Local.phase : Local κe κd → Phase
  | .deqRetire lhead _ => .retire lhead
  | .deqScan _ scan => .scan scan
  | _ => .away

theorem phase_afterScan (lnext : Nat) (scan : Option Scan) :
    (afterScan lnext scan : Local κe κd).phase = .after scan := by
  cases scan <;> rfl

theorem pending_afterScan (g : Shared σ) (lnext : Nat) (scan : Option Scan) :
    (afterScan lnext scan : Local κe κd).pending g = some lnext := by
  cases scan <;> rfl

/-- Every step of the queue is one of the table. -/
theorem step_table (hstep : step S maxThreads t i g l = some (g', l', es)) :
    TableStep maxThreads t (l.pending g) g.hp l.phase g'.hp l'.phase := by
  cases l with
  | idle =>
      obtain ⟨op, -, hop⟩ := Option.map_eq_some_iff.mp hstep
      cases op <;> cases hop <;> exact .stay
  | enqProtect item n | deqProtect n | sizePublishHead n | sizePublishTail lhead n =>
      cases hstep
      exact .publish rfl
  | enqClear item | deqClear v =>
      cases hstep
      exact .clear
  | sizeClear ihp size =>
      simp only [step] at hstep
      split at hstep <;> cases hstep <;> exact .clear
  | enqSegment item ltail le =>
      cases hstep
      rcases (S.enqueueStep t i.ts item (g.nodes ltail).segment le).2.1 with _ | _ | _ <;>
        exact .stay
  | enqNewSegment item ltail newTail le =>
      cases hstep
      cases (S.enqueueStep t i.ts item (g.nodes newTail).segment le).2.1 <;> exact .stay
  | enqNew item ltail start =>
      obtain ⟨-, heq⟩ := Option.ite_none_right_eq_some.mp hstep
      cases heq
      exact .stay
  | enqCasTail item ltail newTail =>
      cases hstep
      split <;> exact .stay
  | deqSegment lhead ld | deqSegmentAgain lhead lnext ld =>
      cases hstep
      rcases (S.dequeueStep t i.ts (g.nodes lhead).segment ld).2.1 with _ | _ | _ <;> exact .stay
  | deqCasHead lhead lnext =>
      simp only [step] at hstep
      split at hstep <;> cases hstep
      · exact .remove
      · exact .stay
  | deqRetire lhead lnext =>
      cases hstep
      rw [phase_afterScan]
      exact .retire
  | deqScan lnext scan =>
      simp only [step, Option.some.injEq, Prod.mk.injEq] at hstep
      obtain ⟨hg, rfl, -⟩ := hstep
      have hhp : g'.hp = (scanStep maxThreads t g.hp scan).1 := by
        subst hg
        cases (scanStep maxThreads t g.hp scan).2.2 <;> rfl
      rw [phase_afterScan, hhp]
      exact .scan
  | enqReload | enqLoadNext | enqHelpTail | enqCasNext | deqReload | deqLoadNext | sizeProtectHead
  | sizeProtectTail =>
      simp only [step] at hstep
      split at hstep <;> cases hstep <;> exact .stay
  | _ =>
      cases hstep
      exact .stay

section Pending

variable {x : Ghost} {n : Nat} {v : Tid}

theorem pending_of_next (hnext : ∀ m, nextPtr g' m = some n → nextPtr g m = some n)
    (hn : l.pending g' = some n) : l.pending g = some n := by
  cases l with
  | enqLoadNext | enqSegment | enqLoadStart | enqNew | enqNewSegment | enqCasNext =>
      exact hnext _ hn
  | _ => exact hn

/-- **A thread never gets hold of a retired segment to publish it**, save through `tail`. -/
theorem step_pending (hw : Inv (Scanned maxThreads) x g.asList) (hl : Protects x g.asList t l)
    (hstep : step S maxThreads t i g l = some (g', l', es)) (hretired : n ∈ g.asList.retired v)
    (hn : l'.pending g = some n) : l.pending g = some n ∨ n = g.tail := by
  have hhead : n ≠ g.head := fun heq => hw.head_not_retired (heq ▸ hretired)
  cases l with
  | idle =>
      obtain ⟨op, -, hop⟩ := Option.map_eq_some_iff.mp hstep
      cases op <;> cases hop <;> cases hn
  | enqLoadTail item =>
      cases hstep
      exact .inr (Option.some.inj hn).symm
  | enqReload item ltail =>
      simp only [step] at hstep
      split at hstep <;> cases hstep
      · exact .inr (Option.some.inj hn).symm
      · rename_i htail
        -- What follows the segment at `tail` has not been removed.
        have hlast : g.asList.next (x.node x.last) = some n := by
          rw [← hw.tail]
          exact (congrArg (nextPtr g) (not_not.mp htail)).trans hn
        by_cases hend : x.last + 1 = x.length
        · rw [hw.next_last hend] at hlast
          cases hlast
        · have hfollows : x.last + 1 < x.length := Nat.lt_of_le_of_ne hw.last_lt hend
          rw [hw.next hfollows hw.last_alive] at hlast
          obtain rfl := Option.some.inj hlast
          exact absurd hretired (hw.next_not_retired hw.first_le hfollows)
  | enqLoadNext item ltail =>
      simp only [step] at hstep
      split at hstep <;> cases hstep
      · cases hn
      · exact .inl hn
  | enqHelpTail item ltail lnext =>
      obtain ⟨p, hp, hnode, hfollows, rfl⟩ := hl
      simp only [step] at hstep
      split at hstep <;> cases hstep
      · rename_i htail
        obtain rfl := hw.eq_last hp (htail.trans hnode.symm)
        obtain rfl := Option.some.inj hn
        exact absurd hretired (hw.next_not_retired hw.first_le hfollows)
      · cases hn
  | enqSegment item ltail le =>
      cases hstep
      rcases hres : (S.enqueueStep t i.ts item (g.nodes ltail).segment le).2.1 with _ | _ | _
      · simp only [hres] at hn
        exact .inl hn
      · simp only [hres] at hn
        exact .inl hn
      · simp only [hres] at hn
        cases hn
  | enqNew item ltail start =>
      obtain ⟨-, heq⟩ := Option.ite_none_right_eq_some.mp hstep
      cases heq
      exact .inl hn
  | enqNewSegment item ltail newTail le =>
      cases hstep
      cases hres : (S.enqueueStep t i.ts item (g.nodes newTail).segment le).2.1
      · simp only [hres] at hn
        exact .inl hn
      · simp only [hres] at hn
        exact .inl hn
  | enqCasNext item ltail newTail =>
      simp only [step] at hstep
      split at hstep <;> cases hstep
      · cases hn
      · rename_i lnext hnext
        exact .inl (hnext.trans hn)
  | deqLoadHead =>
      cases hstep
      exact absurd (Option.some.inj hn).symm hhead
  | deqReload lhead =>
      simp only [step] at hstep
      split at hstep <;> cases hstep
      · exact absurd (Option.some.inj hn).symm hhead
      · cases hn
  | deqSegment lhead ld | deqSegmentAgain lhead lnext ld =>
      cases hstep
      rcases hres : (S.dequeueStep t i.ts (g.nodes lhead).segment ld).2.1 with _ | _ | _
        <;> simp only [hres] at hn <;> cases hn
  | deqCasHead lhead lnext =>
      obtain ⟨p, hp, hnode, hfollows, rfl⟩ := hl
      simp only [step] at hstep
      split at hstep <;> cases hstep
      · rename_i hat
        obtain rfl := hw.eq_first hp (hat.trans hnode.symm)
        obtain rfl := Option.some.inj hn
        exact absurd hretired (hw.next_not_retired (Nat.le_succ _) hfollows)
      · exact absurd (Option.some.inj hn).symm hhead
  | deqRetire lhead lnext | deqScan lnext scan =>
      obtain rfl := congrArg (·.2.1) (Option.some.inj hstep)
      rw [pending_afterScan] at hn
      exact .inl hn
  | sizeProtectHead m =>
      simp only [step] at hstep
      split at hstep <;> cases hstep
      · cases hn
      · exact absurd (Option.some.inj hn).symm hhead
  | sizeProtectTail lhead m =>
      simp only [step] at hstep
      split at hstep <;> cases hstep
      · cases hn
      · exact .inr (Option.some.inj hn).symm
  | deqLoadNext | sizeClear =>
      simp only [step] at hstep
      split at hstep <;> cases hstep <;> cases hn
  | enqLoadStart item ltail | enqDelete item newTail lnext =>
      cases hstep
      exact .inl hn
  | _ =>
      cases hstep
      cases hn

end Pending

def tableUse (S : SegmentType σ κe κd) (maxThreads : Nat) :
    TableUse (program S maxThreads) (fun _ t _ => t < maxThreads) maxThreads where
  list := Shared.asList
  table := Shared.hp
  pending := Local.pending
  phase := Local.phase
  slot _ := rfl
  retired _ := rfl
  start _ := rfl
  idle := rfl
  step := step_table
  inv {c} h := by
    obtain ⟨x, hw, hl⟩ := (reclaimInvariant S maxThreads).holds h
    refine ⟨x, hw, fun {t i g l es} ht hstep => ?_⟩
    obtain ⟨x', hmove, -⟩ := step_moves ht hw (hl t) hstep
    refine ⟨⟨x', hmove⟩, fun u v n hretired hn => ?_⟩
    have hold := pending_of_next (fun m hm => hmove.next_of_retired hw hm hretired) hn
    by_cases hu : u = t
    · subst hu
      rw [Function.update_self] at hold
      exact step_pending hw (hl u) hstep hretired hold
    · rw [Function.update_of_ne hu] at hold
      exact .inl hold

/-- **`retire` is wait-free, and few segments wait to be deleted.** A thread has at most
`3 * maxThreads + 2` segments on its retired list, and it is through with `retire` after a number of
steps of its own that is quadratic in `maxThreads`, whatever the others do. -/
theorem segment_retire_wait_free
    (h : (program S maxThreads).Reach (fun _ t _ => t < maxThreads) c) (t : Tid) :
    (c.shared.hp.retiredList t).length ≤ 3 * maxThreads + 2
      ∧ ((c.locals t).phase.Retiring → ∀ (sched : List (Tid × Input)) c',
        (program S maxThreads).Runs (fun _ u _ => u < maxThreads) c sched c' →
        (3 * maxThreads + 2) * (2 * maxThreads + 1) + 1 ≤ (sched.countP fun x => x.1 = t) →
        ∃ before after d, sched = before ++ after
          ∧ (program S maxThreads).Runs (fun _ u _ => u < maxThreads) c before d
          ∧ ¬ (d.locals t).phase.Retiring) :=
  ⟨((tableUse S maxThreads).length_retiredList_le h t).1, fun hretiring _ _ hruns hlong =>
    (tableUse S maxThreads).leaves_retire h hruns hretiring hlong⟩

/-- With rings of one cell, thread 1 has found the first ring empty and is about to retire it. -/
def retireSchedule : List (Tid × Input) :=
  List.replicate 12 (0, { op := some (.enqueue 7) })
    ++ List.replicate 21 (0, { op := some (.enqueue 8), addr := 1 })
    ++ List.replicate 35 (1, { op := some .dequeue })

/-- From there on thread 1 dequeues and dequeues. -/
def pollSchedule : List (Tid × Input) := List.replicate 50 (1, { op := some .dequeue })

theorem segment_retire_wait_free_polled :
    ∃ c, (c.locals 1).phase.Retiring
      ∧ ∃ before after d, pollSchedule = before ++ after
        ∧ (LCRQueue.program (.identity 1 (by decide)) 2).Runs (fun _ u _ => u < 2) c before d
        ∧ ¬ (d.locals 1).phase.Retiring := by
  have hrun : (((LCRQueue.program (.identity 1 (by decide)) 2).execIf 2
      (fun _ t _ => decide (t < 2)) (LCRQueue.program (.identity 1 (by decide)) 2).init
      retireSchedule).map fun c => (c.locals 1,
        ((LCRQueue.program (.identity 1 (by decide)) 2).exec c pollSchedule).isSome))
      = some (.deqRetire 0 1, true) := by
    decide +kernel
  obtain ⟨c, hexec, heq⟩ := Option.map_eq_some_iff.mp hrun
  obtain ⟨hlocal, hsome⟩ := Prod.mk.inj heq
  obtain ⟨c', hpoll⟩ := Option.isSome_iff_exists.mp hsome
  have hreach : (LCRQueue.program (.identity 1 (by decide)) 2).Reach (fun _ t _ => t < 2) c :=
    .execIf (fun _ _ _ _ hcheck => of_decide_eq_true hcheck) .init (fun _ _ => rfl) hexec
  have hretiring : (c.locals 1).phase.Retiring := by
    rw [hlocal]
    trivial
  have hruns : (LCRQueue.program (.identity 1 (by decide)) 2).Runs (fun _ u _ => u < 2) c
      pollSchedule c' := .of_exec hpoll fun x hx _ => by
    rw [List.eq_of_mem_replicate hx]
    decide
  exact ⟨c, hretiring,
    (segment_retire_wait_free hreach 1).2 hretiring pollSchedule c' hruns (by decide)⟩

end QueueFairness.LinkedRingQueue
