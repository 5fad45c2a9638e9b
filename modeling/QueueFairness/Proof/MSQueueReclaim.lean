import QueueFairness.Proof.MSQueueStep

/-!
# Deleting nodes of MSQueue

A dequeue deletes the node it has moved `head` off at once. No node is deleted twice, but another
thread may still be about to follow a pointer to it, or to stamp it. Nothing is used after it is
deleted in the runs that delete no node another thread still holds in that way.
-/

namespace QueueFairness.MSQueue

open Interleaving AtomicQueue LinkedList

variable {α : Type}

/-- The node of which the thread's next step reads or writes a field. -/
def Local.accesses : Local α → Option Nat
  | .enqStoreInv node _ | .enqStoreLin node _ _ => some node
  | .enqLoadNext _ curTail | .enqCasNext _ curTail _ => curTail.ptr
  | .deqLoadNext _ curHead _ => curHead.ptr
  | .deqReadValue _ _ next | .deqReadInv _ _ next _ | .deqReadLin _ _ next _ _ => next.ptr
  | _ => none

/-- The node the thread is about to delete. -/
def Local.deletes : Local α → Option Nat
  | .deqDelete curHead _ => curHead.ptr
  | _ => none

/-- The node the thread will access, in this step or the next, before it compares the pointer with
`head` or `tail` again. -/
def Local.holds : Local α → Option Nat
  | .enqNowLin node _ => some node
  | .deqLoadTail _ curHead => curHead.ptr
  | l => l.accesses

/-- No thread is about to access a node that is not allocated, or to delete one. -/
structure ReclaimSafe (c : Config (Shared α) (Local α) (Event α)) : Prop where
  access : ∀ t n, (c.locals t).accesses = some n → c.shared.status n = .allocated
  delete : ∀ t n, (c.locals t).deletes = some n → c.shared.status n = .allocated

/-- The thread is not about to delete a node another thread holds. -/
def DeletesUnheld (c : Config (Shared α) (Local α) (Event α)) (t : Tid) : Prop :=
  ∀ n, (c.locals t).deletes = some n → ∀ u, u ≠ t → (c.locals u).holds ≠ some n

theorem Local.holds_of_accesses {l : Local α} {n : Nat} (h : l.accesses = some n) :
    l.holds = some n := by
  cases l <;> first | exact h | cases h

section Steps

variable {t : Tid} {i : Input α} {g g' : Shared α} {h : List (Event α)} {l l' : Local α}
  {es : List (Event α)} {n : Nat}

/-- Only a delete takes a node away. -/
theorem step_status (hstep : step t i g l = some (g', l', es)) (hn : g.status n = .allocated)
    (hdel : l.deletes ≠ some n) : g'.status n = .allocated := by
  cases step_nodes hstep with
  | none hheap hstatus => exact hstatus ▸ hn
  | alloc hfree =>
      have hne : n ≠ i.addr := by
        rintro rfl
        exact absurd (hfree.symm.trans hn) (by simp)
      simpa [hne] using hn
  | write hvalue => simpa using hn
  | @delete curHead value m hm =>
      have hne : n ≠ m := by
        rintro rfl
        exact hdel hm
      simpa [hne] using hn

theorem Glob.head_live (hw : Glob ⟨(), g, h⟩) (hn : g.head.ptr = some n) :
    g.status n = .allocated := by
  obtain ⟨m, hm, hat⟩ := hw.head
  obtain rfl : m = n := Option.some.inj (hm.symm.trans hn)
  exact hw.live le_rfl hat

theorem Glob.tail_live (hw : Glob ⟨(), g, h⟩) (hn : g.tail.ptr = some n) :
    g.status n = .allocated := by
  obtain ⟨k, hk, m, hm, hat⟩ := hw.tail
  obtain rfl : m = n := Option.some.inj (hm.symm.trans hn)
  exact hw.live hk hat

/-- The node behind the one `head` still stands on. -/
theorem Glob.next_live (hw : Glob ⟨(), g, h⟩) {next : MSPointer}
    (hnext : NextOf ⟨(), g, h⟩ g.head next) (hn : next.ptr = some n) : g.status n = .allocated := by
  obtain ⟨k, hk, hk'⟩ := hnext
  obtain rfl : k = passed h := hw.pointsAt_unique hk hw.head
  obtain ⟨m, hm, hat⟩ := hk' (by simp [hn])
  obtain rfl : m = n := Option.some.inj (hm.symm.trans hn)
  exact hw.live (Nat.le_succ _) hat

/-- A thread comes to hold a node by comparing the pointer to it with `head` or `tail`, or because
the node is its own. -/
theorem step_holds (hw : Glob ⟨(), g, h⟩) (hl : Loc ⟨(), g, h⟩ t l)
    (hheld : ∀ n, l.holds = some n → g.status n = .allocated)
    (hstep : step t i g l = some (g', l', es)) (hn : l'.holds = some n) :
    g'.status n = .allocated := by
  cases l with
  | idle =>
      obtain ⟨op, -, heq⟩ := Option.map_eq_some_iff.mp hstep
      cases op <;> simp only [Prod.mk.injEq] at heq <;> obtain ⟨rfl, rfl, rfl⟩ := heq <;> cases hn
  | enqNowInv | deqNowInv =>
      simp only [step, Option.ite_none_right_eq_some, Option.some.injEq, Prod.mk.injEq] at hstep
      obtain ⟨-, rfl, rfl, rfl⟩ := hstep
      cases hn
  | enqNew value inv =>
      simp only [step, Option.ite_none_right_eq_some, Option.some.injEq, Prod.mk.injEq] at hstep
      obtain ⟨-, rfl, rfl, rfl⟩ := hstep
      obtain rfl : i.addr = n := Option.some.inj hn
      simp
  | enqStoreInv | enqStoreLin | enqRetry | enqHelpTail | enqSwingTail | deqHelpTail =>
      simp only [step, Option.some.injEq, Prod.mk.injEq] at hstep
      obtain ⟨rfl, rfl, rfl⟩ := hstep
      cases hn
  | enqLoadTail node =>
      simp only [step, Option.some.injEq, Prod.mk.injEq] at hstep
      obtain ⟨rfl, rfl, rfl⟩ := hstep
      exact hw.tail_live hn
  | enqCheckTail node curTail next =>
      simp only [step] at hstep
      split at hstep <;> [split at hstep; skip] <;>
        simp only [Option.some.injEq, Prod.mk.injEq] at hstep <;> obtain ⟨rfl, rfl, rfl⟩ := hstep
      · rename_i htail _ _
        subst htail
        exact hw.tail_live hn
      · cases hn
      · cases hn
  | enqCasNext node curTail next =>
      obtain ⟨m, -, heq⟩ := Option.map_eq_some_iff.mp hstep
      split at heq <;> simp only [Prod.mk.injEq] at heq <;> obtain ⟨rfl, rfl, rfl⟩ := heq
      · obtain rfl : node = n := Option.some.inj hn
        exact hl.1.status
      · cases hn
  | enqNowLin node curTail =>
      simp only [step, Option.ite_none_right_eq_some, Option.some.injEq, Prod.mk.injEq] at hstep
      obtain ⟨-, rfl, rfl, rfl⟩ := hstep
      exact hheld n hn
  | deqLoadHead inv =>
      simp only [step, Option.some.injEq, Prod.mk.injEq] at hstep
      obtain ⟨rfl, rfl, rfl⟩ := hstep
      exact hw.head_live hn
  | deqLoadTail inv curHead =>
      simp only [step, Option.some.injEq, Prod.mk.injEq] at hstep
      obtain ⟨rfl, rfl, rfl⟩ := hstep
      exact hheld n hn
  | deqCheckHead inv curHead curTail next =>
      simp only [step] at hstep
      split at hstep <;> [split at hstep <;> split at hstep; skip] <;>
        simp only [Option.some.injEq, Prod.mk.injEq] at hstep <;> obtain ⟨rfl, rfl, rfl⟩ := hstep
      · cases hn
      · cases hn
      · cases hn
      · rename_i hhead _ _ _ _
        subst hhead
        exact hw.next_live hl.2 hn
      · cases hn
  | enqLoadNext | deqLoadNext =>
      obtain ⟨m, -, heq⟩ := Option.map_eq_some_iff.mp hstep
      simp only [Prod.mk.injEq] at heq
      obtain ⟨rfl, rfl, rfl⟩ := heq
      cases hn
  | deqReadValue inv curHead next | deqReadInv inv curHead next value
  | deqReadLin inv curHead next value ei =>
      obtain ⟨m, -, heq⟩ := Option.map_eq_some_iff.mp hstep
      simp only [Prod.mk.injEq] at heq
      obtain ⟨rfl, rfl, rfl⟩ := heq
      first | exact hheld n hn | cases hn
  | deqCasHead =>
      obtain ⟨m, -, heq⟩ := Option.map_eq_some_iff.mp hstep
      split at heq <;> simp only [Prod.mk.injEq] at heq <;> obtain ⟨rfl, rfl, rfl⟩ := heq <;>
        cases hn
  | deqNowLin =>
      simp only [step, Option.ite_none_right_eq_some] at hstep
      obtain ⟨m, -, heq⟩ := Option.map_eq_some_iff.mp hstep.2
      simp only [Prod.mk.injEq] at heq
      obtain ⟨rfl, rfl, rfl⟩ := heq
      cases hn
  | deqDelete =>
      obtain ⟨m, -, heq⟩ := Option.map_eq_some_iff.mp hstep
      simp only [Prod.mk.injEq] at heq
      obtain ⟨rfl, rfl, rfl⟩ := heq
      cases hn

end Steps

section Results

variable [Inhabited α] {c : Config (Shared α) (Local α) (Event α)}

/-- No node is deleted twice, whatever the run. -/
theorem Reach.delete_allocated (h : (program α).Reachable c) {t : Tid} {n : Nat}
    (hn : (c.locals t).deletes = some n) : c.shared.status n = .allocated := by
  obtain ⟨-, hl⟩ := Reach.list h
  specialize hl t
  generalize c.locals t = l at hl hn
  cases l with
  | deqDelete curHead value =>
      obtain ⟨m, hm⟩ := hl
      obtain rfl : m = n := Option.some.inj (hm.ptr.symm.trans hn)
      exact hm.status
  | _ => cases hn

/-- **Nothing is used after it is deleted, if no node is deleted that another thread holds.** -/
theorem reclaimSafe_of_deletesUnheld
    (h : (program α).Reach (fun c t _ => DeletesUnheld c t) c) : ReclaimSafe c := by
  have hreach : (program α).Reachable c := h.mono fun _ _ _ _ => trivial
  have hheld : ∀ t n, (c.locals t).holds = some n → c.shared.status n = .allocated := by
    clear hreach
    induction h with
    | init =>
        intro t n hn
        cases hn
    | @step c _ t i hreach hok hnext ih =>
        obtain ⟨hw, hl⟩ := Reach.list hreach
        obtain ⟨g, l, es, hstep, rfl⟩ := Program.next_eq_some hnext
        intro u n hn
        by_cases hu : u = t
        · subst hu
          exact step_holds hw (hl u) (ih u) hstep (by simpa using hn)
        · have hn' : (c.locals u).holds = some n := by simpa [hu] using hn
          exact step_status hstep (ih u n hn') fun hdel => hok n hdel u hu hn'
  exact
    ⟨fun t n hn => hheld t n (Local.holds_of_accesses hn), fun _ _ => Reach.delete_allocated hreach⟩

/-- A thread that holds a node which is not allocated is one step from accessing it, if that. -/
theorem unsafe_of_held {t : Tid} {n : Nat} (hheld : (c.locals t).holds = some n)
    (hn : c.shared.status n ≠ .allocated) :
    ∃ sched c', (program α).exec c sched = some c' ∧ ¬ ReclaimSafe c' := by
  by_cases haccess : (c.locals t).accesses = some n
  · exact ⟨[], c, rfl, fun hsafe => hn (hsafe.access t n haccess)⟩
  · have hstep : ∃ l, step t { ts := c.shared.clock } c.shared (c.locals t) = some (c.shared, l, [])
        ∧ l.accesses = some n := by
      generalize c.locals t = l at hheld haccess
      cases l with
      | enqNowLin node curTail =>
          exact ⟨.enqStoreLin node curTail c.shared.clock, by simp [step], hheld⟩
      | deqLoadTail inv curHead => exact ⟨_, rfl, hheld⟩
      | _ => exact absurd hheld haccess
    obtain ⟨l, hl, haccess'⟩ := hstep
    let d : Config (Shared α) (Local α) (Event α) :=
      ⟨c.shared, Function.update c.locals t l, c.history ++ []⟩
    have hnext : (program α).next c t { ts := c.shared.clock } = some d :=
      Option.map_eq_some_iff.mpr ⟨_, hl, rfl⟩
    refine ⟨[(t, { ts := c.shared.clock })], d, ?_, fun hsafe => hn (hsafe.access t n ?_)⟩
    · rw [Program.exec, hnext]
      rfl
    · rw [show d.locals t = l from Function.update_self ..]
      exact haccess'

/-- After a step that deletes a node another thread holds, that thread can go on to use it. -/
theorem unsafe_of_delete_held {c' : Config (Shared α) (Local α) (Event α)} {t : Tid} {i : Input α}
    (hnext : (program α).next c t i = some c') (hdel : ¬ DeletesUnheld c t) :
    ∃ sched c'', (program α).exec c' sched = some c'' ∧ ¬ ReclaimSafe c'' := by
  simp only [DeletesUnheld, not_forall, not_not] at hdel
  obtain ⟨n, hn, u, hu, hheld⟩ := hdel
  obtain ⟨g, l, es, hstep, rfl⟩ := Program.next_eq_some hnext
  refine unsafe_of_held (t := u) (n := n) (by simpa [hu] using hheld) ?_
  generalize c.locals t = lt at hstep hn
  cases lt with
  | deqDelete curHead value =>
      obtain ⟨m, hm, heq⟩ := Option.map_eq_some_iff.mp hstep
      simp only [Prod.mk.injEq] at heq
      obtain ⟨rfl, rfl, rfl⟩ := heq
      obtain rfl : m = n := Option.some.inj (hm.symm.trans hn)
      simp
  | _ => cases hn

/-- Whether the thread may delete what it is about to, when only the threads below `bound` are in
calls. -/
def deletesUnheldCheck (bound : Nat) (c : Config (Shared Nat) (Local Nat) (Event Nat)) (t : Tid) :
    Bool :=
  (List.range bound).all fun u =>
    decide (u = t ∨ (c.locals t).deletes = none ∨ (c.locals u).holds ≠ (c.locals t).deletes)

theorem deletesUnheld_of_check {bound : Nat} {c : Config (Shared Nat) (Local Nat) (Event Nat)}
    {t : Tid} (hidle : ∀ u, bound ≤ u → c.locals u = .idle)
    (hcheck : deletesUnheldCheck bound c t = true) : DeletesUnheld c t := by
  intro n hn u hu hheld
  rcases Nat.lt_or_ge u bound with hlt | hge
  · have hok := of_decide_eq_true (List.all_eq_true.mp hcheck u (List.mem_range.mpr hlt))
    rcases hok with heq | hnone | hne
    · exact hu heq
    · cases hnone.symm.trans hn
    · exact hne (hheld.trans hn.symm)
  · rw [hidle u hge] at hheld
    cases hheld

/-- Thread 0 enqueues 7 and 8, and dequeues 7 after thread 1 has called `dequeue` and before it
loads `head`: each deletes a node. -/
def deleteSchedule : List (Tid × Input Nat) :=
  List.replicate 11 (0, { op := some (.enqueue 7), ts := 5, addr := 1 })
    ++ List.replicate 11 (0, { op := some (.enqueue 8), ts := 6, addr := 2 })
    ++ List.replicate 2 (1, { op := some .dequeue, ts := 7 })
    ++ List.replicate 12 (0, { op := some .dequeue, ts := 8 })
    ++ List.replicate 10 (1, { ts := 9 })

theorem reclaimSafe_of_deletesUnheld_overlapping :
    ∃ c, (c.shared.status dummyNode, c.shared.status 1, c.shared.status 2)
        = (.deleted, .deleted, .allocated)
      ∧ (program Nat).Reach (fun c t _ => DeletesUnheld c t) c ∧ ReclaimSafe c := by
  have hrun : ((program Nat).execIf 2 (fun c t _ => deletesUnheldCheck 2 c t) (program Nat).init
      deleteSchedule).map
      (fun c => (c.shared.status dummyNode, c.shared.status 1, c.shared.status 2))
      = some (.deleted, .deleted, .allocated) := by
    decide +kernel
  obtain ⟨c, hexec, hstatus⟩ := Option.map_eq_some_iff.mp hrun
  have hreach : (program Nat).Reach (fun c t _ => DeletesUnheld c t) c :=
    .execIf (fun _ _ _ hidle hcheck => deletesUnheld_of_check hidle hcheck) .init (fun _ _ => rfl)
      hexec
  exact ⟨c, hstatus, hreach, reclaimSafe_of_deletesUnheld hreach⟩

/-- Thread 1 loads `head` and stops before it follows it; thread 0 dequeues and deletes the node. -/
def staleHeadSchedule : List (Tid × Input Nat) :=
  List.replicate 11 (0, { op := some (.enqueue 7), ts := 5, addr := 1 })
    ++ List.replicate 4 (1, { op := some .dequeue, ts := 6 })
    ++ List.replicate 12 (0, { op := some .dequeue, ts := 9 })

/-- A dequeue that holds an old `head` reads `next` of a deleted node. -/
theorem not_reclaimSafe : ¬ ∀ c, (program Nat).Reachable c → ReclaimSafe c := by
  intro hall
  have hrun : ((program Nat).exec (program Nat).init staleHeadSchedule).map
      (fun c => ((c.locals 1).accesses, c.shared.status dummyNode))
      = some (some dummyNode, .deleted) := by
    decide
  obtain ⟨c, hexec, heq⟩ := Option.map_eq_some_iff.mp hrun
  obtain ⟨haccess, hdeleted⟩ := Prod.mk.inj heq
  have hreach : (program Nat).Reachable c := .exec (fun _ _ _ => trivial) .init hexec
  exact absurd (((hall c hreach).access 1 dummyNode haccess).symm.trans hdeleted) (by simp)

end Results

end QueueFairness.MSQueue
