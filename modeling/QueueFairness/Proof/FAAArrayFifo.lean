import Mathlib.Data.List.Perm.Subperm
import QueueFairness.Proof.FAAArrayCounters

/-!
# The array queue is a queue

The order of the cells gives the order of the items, and an account of what each dequeue has drawn
and taken says where every item is.
-/

namespace QueueFairness.FAAArrayQueue

open Interleaving AtomicQueue LinkedList

/-- The cell whose index a dequeue has drawn and not exchanged yet. -/
def Local.drawn : Local → Option (Nat × Int)
  | .deqLoadCell n idx | .deqLoadEnqidx n idx | .deqSpin n idx _ | .deqExchange n idx =>
      some (n, idx)
  | _ => none

/-- The item a dequeue has taken out of a cell and not returned yet. -/
def Local.held : Local → Option Nat
  | .deqNowLin (.item a) | .deqStampLin (.item a) _ | .deqClear (.item a) => some a
  | _ => none

def Event.thread : Event → Tid
  | .call t _ | .alloc t _ | .link t _ _ | .fill t _ _ _ | .claim t _ _ | .take t _ _ _
  | .stampEnq t _ _ | .stampDeq t _ _ | .retEnq t _ | .retDeq t _ => t

/-- The thread and the item of an exchange that took one. -/
def Event.took : Event → Option (Tid × Nat)
  | .take t _ _ (.item a) => some (t, a)
  | _ => none

/-- The thread and the item of a return from `dequeue`. -/
def Event.gave : Event → Option (Tid × Nat)
  | .retDeq t (.item a) => some (t, a)
  | _ => none

/-- The items that dequeues have returned. -/
def returnedItems (h : List Event) : List Nat := (h.filterMap Event.gave).map Prod.snd

/-- Thread `t` drew the index `idx` of node `n` during its present call to `dequeue`. -/
def Claiming (h : List Event) (t : Tid) (n : Nat) (idx : Int) : Prop :=
  ∃ before during after,
    h = before ++ .call t .dequeue :: (during ++ .claim t n idx :: after)
      ∧ ∀ e ∈ during ++ after, ¬ e.Boundary t

/-- What thread `t` has drawn is exchanged or in its control state, and what it has taken is
returned or in its control state. -/
structure Account (h : List Event) (t : Tid) (l : Local) : Prop where
  claim : ∀ n idx, .claim t n idx ∈ h → (∃ v, .take t n idx v ∈ h) ∨ l.drawn = some (n, idx)
  drawn : ∀ n idx, l.drawn = some (n, idx) → Claiming h t n idx
  held : ∀ a, l.held = some a → ∃ n idx, Claiming h t n idx ∧ .take t n idx (.item a) ∈ h
  count : ∀ a, (h.filterMap Event.took).count (t, a)
    = (h.filterMap Event.gave).count (t, a) + if l.held = some a then 1 else 0

section History

variable {h es : List Event} {t : Tid} {n : Nat} {idx : Int}

theorem Claiming.append (hc : Claiming h t n idx) (hes : ∀ e ∈ es, ¬ e.Boundary t) :
    Claiming (h ++ es) t n idx := by
  obtain ⟨before, during, after, rfl, hquiet⟩ := hc
  refine ⟨before, during, after ++ es, by simp, fun e he => ?_⟩
  rw [← List.append_assoc] at he
  exact (List.mem_append.mp he).elim (hquiet e) (hes e)

theorem InDequeue.claiming (hd : InDequeue h t) (n : Nat) (idx : Int) :
    Claiming (h ++ [.claim t n idx]) t n idx := by
  obtain ⟨before, during, rfl, hquiet⟩ := hd
  exact ⟨before, during, [], by simp, by simpa using hquiet⟩

theorem Event.Boundary.thread_eq {e : Event} (hb : e.Boundary t) : e.thread = t := by
  cases e <;> first | exact hb | exact hb.elim

theorem Event.took_thread {e : Event} {u : Tid} {a : Nat} (he : e.took = some (u, a)) :
    e.thread = u := by
  cases e with
  | take v n idx s =>
      cases s with
      | item b =>
          obtain ⟨hv, -⟩ : v = u ∧ b = a := by simpa [Event.took] using he
          exact hv
      | _ => cases he
  | _ => cases he

theorem Event.gave_thread {e : Event} {u : Tid} {a : Nat} (he : e.gave = some (u, a)) :
    e.thread = u := by
  cases e with
  | retDeq v s =>
      cases s with
      | item b =>
          obtain ⟨hv, -⟩ : v = u ∧ b = a := by simpa [Event.gave] using he
          exact hv
      | _ => cases he
  | _ => cases he

/-- Events that are not of thread `t`, or say nothing about items taken or returned, leave the
counts as they were. -/
theorem count_append {f : Event → Option (Tid × Nat)} {a : Nat}
    (hes : ∀ e ∈ es, f e ≠ some (t, a)) :
    ((h ++ es).filterMap f).count (t, a) = (h.filterMap f).count (t, a) := by
  rw [List.filterMap_append, List.count_append, Nat.add_eq_left, List.count_eq_zero]
  intro hmem
  obtain ⟨e, he, heq⟩ := List.mem_filterMap.mp hmem
  exact hes e he heq

theorem count_took {v : Slot} {a : Nat} :
    ([Event.take t n idx v].filterMap Event.took).count (t, a) = if v = .item a then 1 else 0 := by
  cases v with
  | item b =>
      by_cases hb : b = a
      · subst hb
        simp [Event.took]
      · simp [Event.took, hb]
  | _ => rfl

theorem count_gave {v : Slot} {a : Nat} :
    ([Event.retDeq t v].filterMap Event.gave).count (t, a) = if v = .item a then 1 else 0 := by
  cases v with
  | item b =>
      by_cases hb : b = a
      · subst hb
        simp [Event.gave]
      · simp [Event.gave, hb]
  | _ => rfl

/-- The account of a thread is not touched by the events of another. -/
theorem Account.others {l : Local} (ha : Account h t l) (hes : ∀ e ∈ es, e.thread ≠ t) :
    Account (h ++ es) t l where
  claim n idx hc := by
    rcases List.mem_append.mp hc with hc | hc
    · exact (ha.claim n idx hc).imp_left fun ⟨v, hv⟩ => ⟨v, List.mem_append_left _ hv⟩
    · exact absurd rfl (hes _ hc)
  drawn n idx hl := (ha.drawn n idx hl).append fun e he hb => hes e he hb.thread_eq
  held a hl := by
    obtain ⟨n, idx, hc, htake⟩ := ha.held a hl
    exact ⟨n, idx, hc.append fun e he hb => hes e he hb.thread_eq, List.mem_append_left _ htake⟩
  count a := by
    rw [count_append fun e he heq => hes e he (Event.took_thread heq),
      count_append fun e he heq => hes e he (Event.gave_thread heq)]
    exact ha.count a

end History

section Steps

variable {L : Layout} {maxThreads : Nat} {t : Tid} {i : Input} {g g' : Shared} {l l' : Local}
  {h es : List Event}

theorem drawn_afterScan {scan : Option HazardPointers.Scan} : (afterScan scan).drawn = none := by
  cases scan <;> rfl

theorem held_afterScan {scan : Option HazardPointers.Scan} : (afterScan scan).held = none := by
  cases scan <;> rfl

/-- An event that the accounts do not speak of. -/
def Event.Aside : Event → Prop
  | .claim _ _ _ | .take _ _ _ _ | .retDeq _ _ => False
  | _ => True

/-- What a step does to the account of its thread: it draws an index, exchanges a cell, returns from
`dequeue`, or does none of these, and calls and returns only when nothing is drawn or held. -/
theorem step_account (hstep : step L maxThreads t i g l = some (g', l', es)) :
    (∃ n idx, l = .deqFetchAdd n ∧ l' = .deqLoadCell n idx ∧ es = [.claim t n idx])
    ∨ (∃ n idx v, l = .deqExchange n idx ∧ l'.drawn = none ∧ es = [.take t n idx v]
      ∧ ∀ a, l'.held = some a ↔ v = .item a)
    ∨ (∃ v, l = .deqClear v ∧ l' = .idle ∧ es = [.retDeq t v])
    ∨ (l'.drawn = l.drawn ∧ l'.held = l.held ∧ ∀ e ∈ es, e.thread = t ∧ e.Aside
      ∧ (e.Boundary t → l.drawn = none ∧ l.held = none)) := by
  cases l with
  | idle =>
      obtain ⟨op, -, heq⟩ := Option.map_eq_some_iff.mp hstep
      cases op <;> simp only [Prod.mk.injEq] at heq <;> obtain ⟨rfl, rfl, rfl⟩ := heq <;>
        exact .inr (.inr (.inr (by simp [Local.drawn, Local.held, Event.thread, Event.Aside])))
  | deqFetchAdd n =>
      simp only [step] at hstep
      split at hstep <;> simp only [Option.some.injEq, Prod.mk.injEq] at hstep <;>
        obtain ⟨rfl, rfl, rfl⟩ := hstep
      · exact .inr (.inr (.inr (by simp [Local.drawn, Local.held])))
      · exact .inl ⟨n, _, rfl, rfl, rfl⟩
  | deqExchange n idx =>
      simp only [step] at hstep
      split at hstep <;> simp only [Option.some.injEq, Prod.mk.injEq] at hstep <;>
        obtain ⟨rfl, rfl, rfl⟩ := hstep
      · rename_i hv
        exact .inr (.inl ⟨n, idx, _, rfl, rfl, rfl, fun a => by simp [hv, Local.held]⟩)
      · refine .inr (.inl ⟨n, idx, _, rfl, rfl, rfl, fun a => ?_⟩)
        cases g.cell L n idx <;> simp [Local.held]
  | deqClear v =>
      simp only [step, Option.some.injEq, Prod.mk.injEq] at hstep
      obtain ⟨rfl, rfl, rfl⟩ := hstep
      exact .inr (.inr (.inl ⟨v, rfl, rfl, rfl⟩))
  | deqRetire n | deqScan scan =>
      simp only [step, Option.some.injEq, Prod.mk.injEq] at hstep
      obtain ⟨rfl, rfl, rfl⟩ := hstep
      exact .inr (.inr (.inr ⟨drawn_afterScan, held_afterScan, by simp⟩))
  | deqNowLin v | deqStampLin v ts =>
      simp only [step, Option.some.injEq, Prod.mk.injEq] at hstep
      obtain ⟨rfl, rfl, rfl⟩ := hstep
      cases v <;> exact .inr (.inr (.inr
        (by simp [Local.drawn, Local.held, Event.thread, Event.Aside, Event.Boundary])))
  | deqLoadCell n idx | enqCasCell a n idx =>
      simp only [step] at hstep
      split at hstep
      · cases hstep
      · split at hstep <;> simp only [Option.some.injEq, Prod.mk.injEq] at hstep <;>
          obtain ⟨rfl, rfl, rfl⟩ := hstep <;>
          exact .inr (.inr (.inr (by simp [Local.drawn, Local.held, Event.thread, Event.Aside])))
  | enqNewNode a n =>
      simp only [step, Option.ite_none_right_eq_some, Option.some.injEq, Prod.mk.injEq] at hstep
      obtain ⟨-, rfl, rfl, rfl⟩ := hstep
      exact .inr (.inr (.inr (by simp [Local.drawn, Local.held, Event.thread, Event.Aside])))
  | enqPublish | enqHelpTail | enqNowLinked | enqStampLinked | enqCasTail | enqNowCell
  | enqStampCell | enqClear | deqPublish | deqCasEnqidx =>
      simp only [step, Option.some.injEq, Prod.mk.injEq] at hstep
      obtain ⟨rfl, rfl, rfl⟩ := hstep
      exact .inr (.inr (.inr (by simp [Local.drawn, Local.held, Event.thread, Event.Aside])))
  | enqProtect | enqFetchAdd | enqCheckTail | enqLoadNext | enqCasNext | deqProtect | deqLoadNext
  | deqCasHead | deqLoadEnqidx | deqSpin | deqReloadEnqidx | deqCheckNext =>
      simp only [step] at hstep
      split at hstep <;> simp only [Option.some.injEq, Prod.mk.injEq] at hstep <;>
        obtain ⟨rfl, rfl, rfl⟩ := hstep <;>
        exact .inr (.inr (.inr (by simp [Local.drawn, Local.held, Event.thread, Event.Aside])))

theorem step_thread (hstep : step L maxThreads t i g l = some (g', l', es)) :
    ∀ e ∈ es, e.thread = t := by
  rcases step_account hstep with ⟨n, idx, -, -, rfl⟩ | ⟨n, idx, v, -, -, rfl, -⟩ | ⟨v, -, -, rfl⟩
    | ⟨-, -, hes⟩
  · simp [Event.thread]
  · simp [Event.thread]
  · simp [Event.thread]
  · exact fun e he => (hes e he).1

/-- A step of thread `t` keeps its account. An index is drawn during a call to `dequeue`. -/
theorem account_step (hdeq : ∀ n, l = .deqFetchAdd n → InDequeue h t) (ha : Account h t l)
    (hstep : step L maxThreads t i g l = some (g', l', es)) : Account (h ++ es) t l' := by
  rcases step_account hstep with ⟨n, idx, rfl, rfl, rfl⟩ | ⟨n, idx, v, rfl, hnone, rfl, hheld⟩
    | ⟨v, rfl, rfl, rfl⟩ | ⟨hdrawn, hheld, hes⟩
  · refine ⟨fun m j hm => ?_, fun m j hm => ?_, fun a hm => (by cases hm), fun a => ?_⟩
    · rcases List.mem_append.mp hm with hm | hm
      · obtain ⟨v, hv⟩ := (ha.claim m j hm).resolve_right (by simp [Local.drawn])
        exact .inl ⟨v, List.mem_append_left _ hv⟩
      · obtain ⟨rfl, rfl⟩ : m = n ∧ j = idx := by simpa using hm
        exact .inr rfl
    · obtain ⟨rfl, rfl⟩ : n = m ∧ idx = j := by simpa [Local.drawn] using hm
      exact (hdeq n rfl).claiming n idx
    · rw [count_append (by simp [Event.took]), count_append (by simp [Event.gave])]
      exact ha.count a
  · have hclaim : Claiming (h ++ [.take t n idx v]) t n idx :=
      (ha.drawn n idx rfl).append (by simp [Event.Boundary])
    refine ⟨fun m j hm => .inl ?_, fun m j hm => ?_, fun a hm => ?_, fun a => ?_⟩
    · rcases ha.claim m j (by simpa using hm) with ⟨w, hw⟩ | heq
      · exact ⟨w, List.mem_append_left _ hw⟩
      · obtain ⟨rfl, rfl⟩ : n = m ∧ idx = j := by simpa [Local.drawn] using heq
        exact ⟨v, by simp⟩
    · rw [hnone] at hm
      cases hm
    · obtain rfl := (hheld a).mp hm
      exact ⟨n, idx, hclaim, by simp⟩
    · have hcount := ha.count a
      rw [if_neg (by simp [Local.held])] at hcount
      have hgave : ((h ++ [Event.take t n idx v]).filterMap Event.gave).count (t, a)
          = (h.filterMap Event.gave).count (t, a) := count_append (by simp [Event.gave])
      rw [List.filterMap_append, List.count_append, hcount, hgave, count_took, Nat.add_zero]
      simp only [hheld]
  · refine
      ⟨fun m j hm => .inl ?_, fun m j hm => (by cases hm), fun a hm => (by cases hm), fun a => ?_⟩
    · obtain ⟨w, hw⟩ := (ha.claim m j (by simpa using hm)).resolve_right (by simp [Local.drawn])
      exact ⟨w, List.mem_append_left _ hw⟩
    · have hcount := ha.count a
      rw [count_append (by simp [Event.took]), hcount, List.filterMap_append, List.count_append,
        count_gave, if_neg (show ¬ Local.held .idle = some a by simp [Local.held]), Nat.add_zero]
      cases v <;> simp [Local.held]
  · refine ⟨fun m j hm => ?_, fun m j hm => ?_, fun a hm => ?_, fun a => ?_⟩
    · rcases List.mem_append.mp hm with hm | hm
      · rw [hdrawn]
        refine (ha.claim m j hm).imp_left fun htake => ?_
        obtain ⟨v, hv⟩ := htake
        exact ⟨v, List.mem_append_left _ hv⟩
      · exact (hes _ hm).2.1.elim
    · rw [hdrawn] at hm
      exact (ha.drawn m j hm).append fun e he hb => by
        simp [((hes e he).2.2 hb).1] at hm
    · rw [hheld] at hm
      obtain ⟨n, idx, hc, htake⟩ := ha.held a hm
      refine ⟨n, idx, hc.append fun e he hb => ?_, List.mem_append_left _ htake⟩
      simp [((hes e he).2.2 hb).2] at hm
    · rw [hheld, count_append fun e he heq => ?_, count_append fun e he heq => ?_]
      · exact ha.count a
      · obtain ⟨-, haside, -⟩ := hes e he
        cases e <;> first | cases heq | exact haside.elim
      · obtain ⟨-, haside, -⟩ := hes e he
        cases e <;> first | cases heq | exact haside.elim

/-- Only the last step of `dequeue` returns, and it emits nothing else. -/
theorem deqClear_of_return (hstep : step L maxThreads t i g l = some (g', l', es)) {u : Tid}
    {v : Slot} (hmem : .retDeq u v ∈ es) : u = t ∧ l = .deqClear v ∧ es = [.retDeq t v] := by
  rcases step_account hstep with ⟨n, idx, -, -, rfl⟩ | ⟨n, idx, w, -, -, rfl, -⟩
    | ⟨w, rfl, -, rfl⟩ | ⟨-, -, hes⟩
  · simp at hmem
  · simp at hmem
  · obtain ⟨rfl, rfl⟩ : u = t ∧ v = w := by simpa using hmem
    exact ⟨rfl, rfl, rfl⟩
  · exact (hes _ hmem).2.1.elim

/-- Only an idle thread calls, and it emits nothing else. -/
theorem idle_of_call (hstep : step L maxThreads t i g l = some (g', l', es)) {u : Tid}
    {op : Op Nat} (hmem : .call u op ∈ es) : l = .idle ∧ i.op = some op ∧ es = [.call u op] := by
  cases l with
  | idle =>
      obtain ⟨op', hop, heq⟩ := Option.map_eq_some_iff.mp hstep
      cases op' <;> simp only [Prod.mk.injEq] at heq <;> obtain ⟨-, -, rfl⟩ := heq <;>
        obtain ⟨rfl, rfl⟩ := Event.call.inj (List.mem_singleton.mp hmem) <;> exact ⟨rfl, hop, rfl⟩
  | deqLoadCell | enqCasCell =>
      simp only [step] at hstep
      split at hstep
      · cases hstep
      · split at hstep <;> simp only [Option.some.injEq, Prod.mk.injEq] at hstep <;>
          obtain ⟨-, -, rfl⟩ := hstep <;> simp at hmem
  | enqNewNode =>
      simp only [step, Option.ite_none_right_eq_some, Option.some.injEq, Prod.mk.injEq] at hstep
      obtain ⟨-, -, -, rfl⟩ := hstep
      simp at hmem
  | enqPublish | enqHelpTail | enqNowLinked | enqStampLinked | enqCasTail | enqNowCell
  | enqStampCell | enqClear | deqPublish | deqRetire | deqScan | deqNowLin | deqStampLin
  | deqCasEnqidx | deqClear =>
      simp only [step, Option.some.injEq, Prod.mk.injEq] at hstep
      obtain ⟨-, -, rfl⟩ := hstep
      simp at hmem
  | enqProtect | enqFetchAdd | enqCheckTail | enqLoadNext | enqCasNext | deqProtect | deqFetchAdd
  | deqLoadNext | deqCasHead | deqLoadEnqidx | deqSpin | deqExchange | deqReloadEnqidx
  | deqCheckNext =>
      simp only [step] at hstep
      split at hstep <;> simp only [Option.some.injEq, Prod.mk.injEq] at hstep <;>
        obtain ⟨-, -, rfl⟩ := hstep <;> simp at hmem

end Steps

variable {L : Layout} {maxThreads : Nat} {c : Config Shared Local Event}

/-- The accounts hold in every reached configuration. -/
theorem Reach.account (h : (program L maxThreads).Reach Proper c) (t : Tid) :
    Account c.history t (c.locals t) := by
  induction h with
  | init =>
      exact ⟨fun _ _ hm => (by cases hm), fun _ _ hm => (by cases hm), fun _ hm => (by cases hm),
        fun _ => rfl⟩
  | @step c _ u i hreach hok hnext ih =>
      obtain ⟨g, l, es, hstep, rfl⟩ := Program.next_eq_some hnext
      by_cases htu : t = u
      · subst htu
        simp only [Function.update_self]
        refine account_step (fun n hn => ?_) ih hstep
        have hl := (Reach.counts hreach).2 t
        rw [hn] at hl
        exact hl.call
      · simp only [ne_eq, htu, not_false_eq_true, Function.update_of_ne]
        exact ih.others fun e he heq => htu (heq.symm.trans (step_thread hstep e he))

/-- A return from `dequeue` in the history was the last step of that call. -/
theorem Reach.returning (h : (program L maxThreads).Reach Proper c) {before after : List Event}
    {t : Tid} {v : Slot} (heq : c.history = before ++ .retDeq t v :: after) :
    ∃ d, (program L maxThreads).Reach Proper d ∧ d.history = before ∧ d.locals t = .deqClear v := by
  obtain ⟨d, u, i, g, l, es, fs, hreach, -, hstep, rfl⟩ := Program.Reach.emitted h heq
  obtain ⟨rfl, hl, hes⟩ := deqClear_of_return hstep (u := t) (v := v) (by simp)
  have hnil : es = [] := by
    cases es with
    | nil => rfl
    | cons e es => simp at hes
  exact ⟨d, hreach, by simp [hnil], hl⟩

/-- If the enqueue of `b` has been called, what returned before that had returned by then. -/
theorem Reach.returnedBefore (h : (program L maxThreads).Reach Proper c) {before : List Event}
    (hle : before <+: c.history) {a b : Nat} {u : Tid} (hcall : .call u (.enqueue b) ∈ before)
    (hab : ReturnedBefore c.history a b) : ReturnedBefore before a b := by
  obtain ⟨p, t, v, hp, hmem⟩ := hab
  refine ⟨p, t, v, ?_, hmem⟩
  obtain ⟨after, heq⟩ := hp
  have hsplit : c.history = p ++ .call v (.enqueue b) :: after := by rw [← heq]; simp
  obtain ⟨d, w, i, g, l, es, fs, hreach, ⟨hfresh, -⟩, hstep, rfl⟩ := Program.Reach.emitted h hsplit
  have hcalls : .call v (.enqueue b) ∈ es ++ .call v (.enqueue b) :: fs := by simp
  obtain ⟨hl, hop, hes⟩ := idle_of_call hstep hcalls
  have hnil : es = [] := by
    cases es with
    | nil => rfl
    | cons e es => simp at hes
  subst hnil
  rw [List.append_nil] at heq hmem ⊢
  have hp : d.history ++ [.call v (.enqueue b)] <+: c.history := ⟨after, heq⟩
  refine List.prefix_of_prefix_length_le hp hle ?_
  by_contra hlt
  rw [List.length_append, List.length_singleton] at hlt
  have hshort : before <+: d.history :=
    List.prefix_of_prefix_length_le hle ((List.prefix_append _ _).trans hp) (by omega)
  exact hfresh b hl hop u (hshort.subset hcall)

/-- Where an item is whose enqueue has returned: it was returned by a dequeue, or lies in or was
taken from a cell claimed by a dequeue in progress, or lies in a cell nobody has claimed, of a node
reachable from `head`. -/
def Kept (L : Layout) (c : Config Shared Local Event) (a : Nat) : Prop :=
  (∃ t, .retDeq t (.item a) ∈ c.history)
  ∨ ∃ n idx, Put c.history a n idx
    ∧ ((∃ t, Claiming c.history t n idx
        ∧ (c.shared.cell L n idx = .item a ∨ .take t n idx (.item a) ∈ c.history))
      ∨ c.shared.cell L n idx = .item a ∧ (∀ t, .claim t n idx ∉ c.history)
        ∧ ∃ nodes, Path (nextPtr c.shared) (some c.shared.head) nodes ∧ n ∈ nodes)

/-- What makes the array queue a first-in first-out queue. -/
structure Fifo (L : Layout) (c : Config Shared Local Event) : Prop where
  items : ∀ {before after t v}, c.history = before ++ .retDeq t v :: after →
    v = .empty ∨ ∃ a u, v = .item a ∧ .call u (.enqueue a) ∈ before
  once : (returnedItems c.history).Nodup
  order : ∀ {before after t a b}, c.history = before ++ .retDeq t (.item b) :: after →
    ReturnedBefore c.history a b → ∃ n idx, Put before a n idx ∧ Claimed before n idx
  empty : ∀ {before after t}, c.history = before ++ .retDeq t .empty :: after → Emptied before t
  kept : ∀ {t a}, .retEnq t a ∈ c.history → Kept L c a

/-- A dequeue returns nothing, or an item that it took out of a cell. -/
theorem Reach.items (h : (program L maxThreads).Reach Proper c) {before after : List Event}
    {t : Tid} {v : Slot} (heq : c.history = before ++ .retDeq t v :: after) :
    v = .empty ∨ ∃ a, v = .item a ∧ ∃ n idx, .take t n idx (.item a) ∈ before := by
  obtain ⟨d, hreach, rfl, hd⟩ := Reach.returning h heq
  obtain ⟨-, hloc⟩ := Reach.cells (hreach.mono fun _ _ _ hok => hok.1)
  obtain ⟨-, hcount⟩ := Reach.counts hreach
  have htook := hloc t
  have hmarker := hcount t
  rw [hd] at htook hmarker
  cases v with
  | empty => exact .inl rfl
  | item a => exact .inr ⟨a, rfl, htook a rfl⟩
  | taken => exact absurd rfl hmarker.2.2

theorem takenItems_eq {h : List Event} : takenItems h = (h.filterMap Event.took).map Prod.snd := by
  rw [takenItems, List.map_filterMap]
  congr 1
  funext e
  cases e with
  | take t n idx v => cases v <;> rfl
  | _ => rfl

/-- No item is returned twice. -/
theorem Reach.returned_nodup (h : (program L maxThreads).Reach Proper c) :
    (returnedItems c.history).Nodup := by
  obtain ⟨hw, -⟩ := Reach.cells (h.mono fun _ _ _ hok => hok.1)
  have hsub : (c.history.filterMap Event.gave).Subperm (c.history.filterMap Event.took) := by
    refine List.subperm_ext_iff.mpr fun p _ => ?_
    rw [(Reach.account h p.1).count p.2]
    exact Nat.le_add_right _ _
  obtain ⟨l, hperm, hsub⟩ := hsub
  have htaken : ((c.history.filterMap Event.took).map Prod.snd).Nodup :=
    takenItems_eq ▸ hw.takenOnce
  exact (hperm.map Prod.snd).nodup_iff.mp (htaken.sublist (hsub.map Prod.snd))

/-- A cell before one that is claimed is claimed. -/
theorem Counts.claimed_before {w : W} (hw : Glob L w) (hs : Counts L w) {a n m : Nat}
    {idx j : Int} {t : Tid} (hput : Put w.history a n idx) (hclaim : .claim t m j ∈ w.history)
    (hbefore : CellBefore w.history n idx m j) : Claimed w.history n idx := by
  obtain ⟨p, q, hn, hm, hlt⟩ := hbefore
  obtain ⟨hj, hdrawn, q', hq', k, hk, hat⟩ := hs.claim hclaim
  obtain rfl : q' = q := hw.at_unique hq' hm
  obtain ⟨-, hidx, -⟩ := hw.put hput
  refine hs.claimed hn.mem hidx ?_
  rcases hlt with hlt | ⟨rfl, hlt⟩
  · exact hidx.2.trans_le (hs.passed hat (hlt.trans_le hk) hn)
  · obtain rfl : n = m := Option.some.inj (hn.symm.trans hm)
    exact hlt.trans hdrawn

/-- Where the items are. -/
theorem Reach.kept (h : (program L maxThreads).Reach Proper c) {t : Tid} {a : Nat}
    (hret : .retEnq t a ∈ c.history) : Kept L c a := by
  obtain ⟨hw, -⟩ := Reach.cells (h.mono fun _ _ _ hok => hok.1)
  obtain ⟨hs, -⟩ := Reach.counts h
  obtain ⟨n, idx, q, hput, hn, -⟩ := hs.returned hret
  obtain ⟨-, hidx, -, hcell⟩ := hw.put hput
  rcases hcell with hcell | ⟨u, htake⟩
  · by_cases hclaim : ∃ u, .claim u n idx ∈ c.history
    · obtain ⟨u, hu⟩ := hclaim
      have hdrawn : (c.locals u).drawn = some (n, idx) := by
        refine ((Reach.account h u).claim n idx hu).resolve_left fun ⟨v, hv⟩ => ?_
        obtain ⟨-, -, hgone⟩ := hw.take hv
        exact absurd (hcell.symm.trans hgone) (by simp)
      exact .inr ⟨n, idx, hput, .inl ⟨u, (Reach.account h u).drawn n idx hdrawn, .inl hcell⟩⟩
    · have hfree : (c.shared.nodes n).deqidx ≤ idx := by
        by_contra hlt
        obtain ⟨u, before, during, after, heq, -⟩ := hs.claimed hn.mem hidx (Int.not_le.mp hlt)
        exact hclaim ⟨u, by rw [show c.history = _ from heq]; simp⟩
      obtain ⟨k, hk⟩ := hw.head
      have hkq : k ≤ q := by
        by_contra hlt
        have hsize := hs.passed hk (Nat.not_le.mp hlt) hn
        exact absurd (hsize.trans hfree) (Int.not_le.mpr hidx.2)
      refine .inr ⟨n, idx, hput, .inr ⟨hcell, fun u hu => hclaim ⟨u, hu⟩,
        (chain c.history).drop k, ?_, ?_⟩⟩
      · have hpath := hw.linked.path k
        rwa [show (chain c.history)[k]? = some c.shared.head from hk] at hpath
      · refine List.mem_of_getElem? (i := q - k) ?_
        rw [List.getElem?_drop, Nat.add_sub_cancel' hkq]
        exact hn
  · have hcount := (Reach.account h u).count a
    have hpos : 0 < (c.history.filterMap Event.took).count (u, a) :=
      List.count_pos_iff.mpr (List.mem_filterMap.mpr ⟨_, htake, rfl⟩)
    by_cases hheld : (c.locals u).held = some a
    · obtain ⟨m, j, hclaiming, htake'⟩ := (Reach.account h u).held a hheld
      obtain ⟨rfl, rfl⟩ := hw.putUnique (hw.taken htake') hput
      exact .inr ⟨m, j, hput, .inl ⟨u, hclaiming, .inr htake'⟩⟩
    · rw [hcount, if_neg hheld, Nat.add_zero] at hpos
      obtain ⟨e, he, heq⟩ := List.mem_filterMap.mp (List.count_pos_iff.mp hpos)
      refine .inl ⟨u, ?_⟩
      cases e with
      | retDeq v s =>
          cases s with
          | item b =>
              obtain ⟨rfl, rfl⟩ : v = u ∧ b = a := by simpa [Event.gave] using heq
              exact he
          | _ => cases heq
      | _ => cases heq

/-- **The array queue is a first-in first-out queue.** As long as no item is enqueued twice and no
counter wraps, it returns items that were enqueued, each once, none ahead of the cells of the items
that came before it, nothing only if all there was is claimed, and it loses no item. -/
theorem fifo (h : (program L maxThreads).Reach Proper c) : Fifo L c where
  items {before after t v} heq := by
    refine (Reach.items h heq).imp_right fun ⟨a, hv, n, idx, htake⟩ => ?_
    obtain ⟨d, hreach, rfl, -⟩ := Reach.returning h heq
    obtain ⟨hw, -⟩ := Reach.cells (hreach.mono fun _ _ _ hok => hok.1)
    obtain ⟨-, -, ⟨u, hu⟩, -⟩ := hw.put (hw.taken htake)
    exact ⟨a, u, hv, hu⟩
  once := Reach.returned_nodup h
  order {before after t a b} heq hab := by
    obtain ⟨b', hb, m, j, htake⟩ := (Reach.items h heq).resolve_left (by simp)
    obtain rfl : b = b' := by simpa using hb
    obtain ⟨d, hreach, rfl, -⟩ := Reach.returning h heq
    obtain ⟨hw, -⟩ := Reach.cells (hreach.mono fun _ _ _ hok => hok.1)
    obtain ⟨hs, -⟩ := Reach.counts hreach
    have hput : Put d.history b m j := hw.taken htake
    obtain ⟨-, -, ⟨u, hu⟩, -⟩ := hw.put hput
    obtain ⟨n, idx, hputa, hbefore⟩ :=
      hs.order (Reach.returnedBefore h ⟨_, heq.symm⟩ hu hab) hput
    exact ⟨n, idx, hputa, hs.claimed_before hw hputa (hs.take htake) hbefore⟩
  empty {before after t} heq := by
    obtain ⟨d, hreach, rfl, hd⟩ := Reach.returning h heq
    have hl := (Reach.counts hreach).2 t
    rw [hd] at hl
    exact hl.2.1 rfl
  kept hret := Reach.kept h hret

/-- The item of a call to `enqueue`. -/
def Event.called : Event → Option Nat
  | .call _ (.enqueue a) => some a
  | _ => none

/-- Decides `Proper`. -/
def properCheck (c : Config Shared Local Event) (t : Tid) (i : Input) : Bool :=
  (match i.op with
    | some (.enqueue a) => decide (c.locals t = .idle → a ∉ c.history.filterMap Event.called)
    | _ => true)
  && (match c.locals t with
    | .enqFetchAdd _ ltail => decide ((c.shared.nodes ltail).enqidx < 2 ^ 31 - 1)
    | .deqFetchAdd lhead => decide ((c.shared.nodes lhead).deqidx < 2 ^ 31 - 1)
    | _ => true)

theorem proper_of_check {t : Tid} {i : Input} (hcheck : properCheck c t i = true) :
    Proper c t i := by
  obtain ⟨hfresh, hwrap⟩ := Bool.and_eq_true_iff.mp hcheck
  refine ⟨fun a hidle hop u hu => ?_, ?_⟩
  · rw [hop] at hfresh
    exact of_decide_eq_true hfresh hidle (List.mem_filterMap.mpr ⟨_, hu, rfl⟩)
  · unfold NoWrap
    cases hl : c.locals t <;> simp_all [NoWrapAt]

/-- With one cell a node, thread 0 enqueues 7 and 8 and thread 1 dequeues both. -/
def twoNodesSchedule : List (Tid × Input) :=
  List.replicate 9 (0, { op := some (.enqueue 7), ts := 5 })
    ++ List.replicate 13 (0, { op := some (.enqueue 8), ts := 6, addr := 1 })
    ++ List.replicate 30 (1, { op := some .dequeue, ts := 9 })

theorem fifo_twoNodes :
    ∃ c, returnedItems c.history = [7, 8] ∧ Fifo (.identity 1 Nat.one_pos) c := by
  have hrun : ((program (.identity 1 Nat.one_pos) 2).execIf 2 properCheck
      (program (.identity 1 Nat.one_pos) 2).init twoNodesSchedule).map
      (fun c => returnedItems c.history) = some [7, 8] := by
    decide +kernel
  obtain ⟨c, hexec, hitems⟩ := Option.map_eq_some_iff.mp hrun
  exact ⟨c, hitems, @fifo _ 2 _
    (.execIf (fun _ _ _ _ hcheck => proper_of_check hcheck) .init (fun _ _ => rfl) hexec)⟩

end QueueFairness.FAAArrayQueue
