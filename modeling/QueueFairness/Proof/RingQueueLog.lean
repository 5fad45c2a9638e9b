import QueueFairness.RingQueueAdapter

/-!
# The log of the ring queues

The adapter of the ring queues reads the clock for `deq_inv` when the item is already out of the
queue, so that no record says when its dequeue was called.
-/

namespace QueueFairness.RingQueueAdapter

open Interleaving AtomicQueue

variable {σ κe κd α : Type}

/-- The record of item `ptr`, logged by thread `t`: its enqueuer read the clock for it before the
item was in a segment, the stamp is the one the enqueuer wrote, the stamps are in order, and the
dequeue read the clock before its first access to the queue. -/
structure Faithful (before : List (Event α)) (t : Tid) (ptr : Nat) (r : LogRecord) : Prop where
  stamps : ∃ u pre life, before = pre ++ .new u ptr :: life ∧ (∀ v, .new v ptr ∉ life)
    ∧ (∃ p q, life = p ++ .enqInv u ptr r.enqInvTs :: q ∧ ∀ e ∈ p, ¬ e.deposits ptr)
    ∧ ∃ es s, .access u es ∈ life ∧ .segment s (.stampEnq u ptr r.enqLinTs) ∈ es
  ordered : r.Ordered
  deqInv : ∃ p q, currentCall t before = p ++ .deqInv t ptr r.deqInvTs :: q
    ∧ ∀ e ∈ p, e.isAccess = false

def LogFaithful (history : List (Event α)) : Prop :=
  ∀ before after t ptr r, history = before ++ .logged t ptr r :: after → Faithful before t ptr r

def loggedBy (t : Tid) : Event α → Option LogRecord
  | .logged u _ r => if u = t then some r else none
  | _ => none

/-! ### The current call -/

theorem currentCall_call (t : Tid) (history : List (Event α)) (op : Op α) :
    currentCall t (history ++ [.call t op]) = [] := by
  simp [currentCall, Event.tid]

theorem currentCall_snoc {t : Tid} {history : List (Event α)} {e : Event α} (ht : e.tid = t)
    (hcall : ∀ op, e ≠ .call t op) :
    currentCall t (history ++ [e]) = currentCall t history ++ [e] := by
  unfold currentCall
  rw [List.foldl_append]
  cases e with
  | call u op =>
      obtain rfl : u = t := ht
      exact absurd rfl (hcall op)
  | _ => simp [ht]

theorem currentCall_other {t : Tid} {history es : List (Event α)} (hes : ∀ e ∈ es, e.tid ≠ t) :
    currentCall t (history ++ es) = currentCall t history := by
  unfold currentCall
  rw [List.foldl_append]
  generalize history.foldl _ _ = acc
  induction es generalizing acc with
  | nil => rfl
  | cons e es ih =>
      rw [List.foldl_cons, if_neg (hes e List.mem_cons_self)]
      exact ih (fun e he => hes e (List.mem_cons_of_mem _ he)) acc

/-- A dequeue that has gone to the queue, and has done nothing else yet. -/
def Accessed (calls : List (Event α)) : Prop :=
  calls ≠ [] ∧ ∀ e ∈ calls, e.isAccess = true

/-- What a thread knows of its call: the clock is read after the queue has been accessed. -/
def CallLoc (calls : List (Event α)) (t : Tid) : Local κe κd α → Prop
  | .deq _ => ∀ e ∈ calls, e.isAccess = true
  | .deqReadValue _ | .deqNowInv _ _ => Accessed calls
  | .deqReadEnqInv ptr _ ts | .deqReadEnqLin ptr _ ts _ | .deqLog ptr _ ts _ _ =>
      ∃ acc, Accessed acc ∧ calls = acc ++ [.deqInv t ptr ts]
  | _ => True

theorem accessed_snoc {calls : List (Event α)} (hcalls : ∀ e ∈ calls, e.isAccess = true) (t : Tid)
    (es : List LinkedRingQueue.Event) : Accessed (calls ++ [.access t es]) := by
  refine ⟨by simp, fun e he => ?_⟩
  rcases List.mem_append.mp he with he | he
  · exact hcalls e he
  · obtain rfl := List.mem_singleton.mp he
    rfl

/-- A dequeue reads the clock for `deq_inv` after it has accessed the queue. -/
theorem not_faithful_of_deqInv_last {before acc : List (Event α)} {t : Tid} {ptr : Nat}
    {r : LogRecord} (hacc : Accessed acc)
    (hcall : currentCall t before = acc ++ [.deqInv t ptr r.deqInvTs]) :
    ¬ Faithful before t ptr r := by
  rintro ⟨-, -, p, q, hsplit, hp⟩
  rw [hcall] at hsplit
  obtain ⟨hne, hall⟩ := hacc
  obtain ⟨e, acc, rfl⟩ := List.exists_cons_of_ne_nil hne
  have he : e.isAccess = true := hall e List.mem_cons_self
  cases p with
  | nil =>
      obtain ⟨rfl, -⟩ : e = .deqInv t ptr r.deqInvTs ∧ _ := List.cons.inj hsplit
      cases he
  | cons e' p =>
      obtain ⟨rfl, -⟩ : e = e' ∧ _ := List.cons.inj hsplit
      exact absurd he (by simp [hp e List.mem_cons_self])

variable {S : SegmentType σ κe κd} {maxThreads : Nat}

theorem stamp_log (g : Shared σ α) (e : LinkedRingQueue.Event) : (g.stamp e).log = g.log := by
  unfold Shared.stamp
  split <;> rfl

theorem foldl_stamp_log (g : Shared σ α) (es : List LinkedRingQueue.Event) :
    (es.foldl Shared.stamp g).log = g.log := by
  induction es generalizing g with
  | nil => rfl
  | cons e es ih => rw [List.foldl_cons, ih, stamp_log]

theorem queueStep_log {t : Tid} {op : LinkedRingQueue.Op} {i : Input α} {g g' : Shared σ α}
    {l l' : LinkedRingQueue.Local κe κd} {es : List LinkedRingQueue.Event}
    (hstep : queueStep S maxThreads t op i g l = some (g', l', es)) : g'.log = g.log := by
  obtain ⟨⟨q, l₀, es₀⟩, -, heq⟩ := Option.map_eq_some_iff.mp hstep
  cases heq
  exact foldl_stamp_log ..

/-- What a step adds to the history and to the logs, and where it leaves the thread. -/
structure StepSpec (t : Tid) (g g' : Shared σ α) (l' : Local κe κd α) (history : List (Event α))
    (es : List (Event α)) : Prop where
  tid : ∀ e ∈ es, e.tid = t
  call : CallLoc (currentCall t (history ++ es)) t l'
  log : ∀ u, g'.log u = g.log u ++ es.filterMap (loggedBy u)
  logged : ∀ ptr r, .logged t ptr r ∈ es →
    es = [.logged t ptr r]
      ∧ ∃ acc, Accessed acc ∧ currentCall t history = acc ++ [.deqInv t ptr r.deqInvTs]

theorem step_spec [DecidableEq κe] [DecidableEq κd] {t : Tid} {i : Input α} {g g' : Shared σ α}
    {l l' : Local κe κd α} {history es : List (Event α)}
    (hcall : CallLoc (currentCall t history) t l)
    (hstep : step S maxThreads t i g l = some (g', l', es)) :
    StepSpec t g g' l' history es := by
  rw [step, Option.ite_none_right_eq_some] at hstep
  obtain ⟨-, hstep⟩ := hstep
  cases l with
  | idle =>
      obtain ⟨op, -, hop⟩ := Option.map_eq_some_iff.mp hstep
      cases op with
      | enqueue v =>
          cases hop
          exact ⟨by simp [Event.tid], trivial, by simp [loggedBy], by simp⟩
      | dequeue =>
          cases hop
          refine ⟨by simp [Event.tid], ?_, by simp [loggedBy], by simp⟩
          simp [CallLoc, currentCall_call]
  | enqNew v =>
      simp only [stepAt, Option.ite_none_right_eq_some, Option.some.injEq, Prod.mk.injEq] at hstep
      obtain ⟨-, rfl, rfl, rfl⟩ := hstep
      exact ⟨by simp [Event.tid], trivial, by simp [loggedBy, Shared.setItem, Shared.setStatus],
        by simp⟩
  | enqNowInv ptr =>
      cases hstep
      exact ⟨by simp [Event.tid], trivial, by simp [loggedBy], by simp⟩
  | enqStoreInv ptr ts =>
      cases hstep
      exact ⟨by simp, trivial, by simp [Shared.setItem], by simp⟩
  | enq ptr lq =>
      obtain ⟨⟨g₁, l₁, es₁⟩, hq, heq⟩ := Option.map_eq_some_iff.mp hstep
      have hlog : g₁.log = ({ g with clock := i.ts } : Shared σ α).log := queueStep_log hq
      by_cases hidle : l₁ = .idle
      · simp only [hidle, if_true, Prod.mk.injEq] at heq
        obtain ⟨rfl, rfl, rfl⟩ := heq
        exact ⟨by simp [Event.tid], trivial, by simp [loggedBy, hlog], by simp⟩
      · simp only [hidle, if_false, Prod.mk.injEq] at heq
        obtain ⟨rfl, rfl, rfl⟩ := heq
        exact ⟨by simp [Event.tid], trivial, by simp [loggedBy, hlog], by simp⟩
  | deq lq =>
      obtain ⟨⟨g₁, l₁, es₁⟩, hq, heq⟩ := Option.map_eq_some_iff.mp hstep
      have hlog : g₁.log = ({ g with clock := i.ts } : Shared σ α).log := queueStep_log hq
      have hsnoc : currentCall t (history ++ [.access t es₁])
          = currentCall t history ++ [.access t es₁] := currentCall_snoc rfl (by simp)
      have hacc := accessed_snoc hcall t es₁
      rcases hret : returned es₁ with _ | _ | ptr
      · simp only [hret, Prod.mk.injEq] at heq
        obtain ⟨rfl, rfl, rfl⟩ := heq
        exact ⟨by simp [Event.tid], hsnoc ▸ hacc.2, by simp [loggedBy, hlog], by simp⟩
      · simp only [hret, Prod.mk.injEq] at heq
        obtain ⟨rfl, rfl, rfl⟩ := heq
        exact ⟨by simp [Event.tid], trivial, by simp [loggedBy, hlog], by simp⟩
      · simp only [hret, Prod.mk.injEq] at heq
        obtain ⟨rfl, rfl, rfl⟩ := heq
        exact ⟨by simp [Event.tid], hsnoc ▸ hacc, by simp [loggedBy, hlog], by simp⟩
  | deqReadValue ptr =>
      cases hstep
      exact ⟨by simp, by simpa [CallLoc] using hcall, by simp, by simp⟩
  | deqNowInv ptr out =>
      cases hstep
      refine ⟨by simp [Event.tid], ⟨_, hcall, currentCall_snoc rfl (by simp)⟩, by simp [loggedBy],
        by simp⟩
  | deqReadEnqInv ptr out ts =>
      cases hstep
      exact ⟨by simp, by simpa [CallLoc] using hcall, by simp, by simp⟩
  | deqReadEnqLin ptr out ts ei =>
      cases hstep
      exact ⟨by simp, by simpa [CallLoc] using hcall, by simp, by simp⟩
  | deqLog ptr out ts ei el =>
      cases hstep
      refine ⟨by simp [Event.tid], trivial, fun u => ?_, fun ptr' r hr => ?_⟩
      · by_cases hu : u = t
        · subst hu
          simp [loggedBy]
        · simp [loggedBy, hu, Ne.symm hu]
      · obtain ⟨rfl, rfl⟩ : ptr' = ptr ∧ r = ⟨ei, el, ts, (g.items ptr).deqLinTs⟩ := by
          simpa using hr
        exact ⟨rfl, hcall⟩
  | deqDelete ptr out =>
      cases hstep
      exact ⟨by simp [Event.tid], trivial, by simp [loggedBy, Shared.setStatus], by simp⟩

variable [Inhabited α] [DecidableEq κe] [DecidableEq κd]

/-- The logs are what the history says, and every thread knows its call. -/
theorem Reach.calls {ok : Config (Shared σ α) (Local κe κd α) (Event α) → Tid → Input α → Prop}
    {c : Config (Shared σ α) (Local κe κd α) (Event α)} (h : (program S maxThreads α).Reach ok c) :
    (∀ t, CallLoc (currentCall t c.history) t (c.locals t))
      ∧ ∀ t, c.shared.log t = c.history.filterMap (loggedBy t) := by
  induction h with
  | init => exact ⟨fun _ => trivial, fun _ => rfl⟩
  | @step c _ t i _ _ hnext ih =>
      obtain ⟨g, l, es, hstep, rfl⟩ := Program.next_eq_some hnext
      obtain ⟨hcall, hlog⟩ := ih
      have hspec := step_spec (hcall t) hstep
      refine ⟨fun u => ?_, fun u => ?_⟩
      · by_cases hu : u = t
        · subst hu
          simpa using hspec.call
        · rw [currentCall_other fun e he => hspec.tid e he ▸ Ne.symm hu]
          simpa [hu] using hcall u
      · rw [hspec.log u, hlog u, List.filterMap_append]

theorem Reach.not_faithful {c : Config (Shared σ α) (Local κe κd α) (Event α)}
    (h : (program S maxThreads α).Reachable c) {before after : List (Event α)} {t : Tid} {ptr : Nat}
    {r : LogRecord} (heq : c.history = before ++ .logged t ptr r :: after) :
    ¬ Faithful before t ptr r := by
  obtain ⟨d, u, i, g, l, es, fs, hreach, -, hstep, rfl⟩ := h.emitted heq
  have hspec := step_spec ((Reach.calls hreach).1 u) hstep
  obtain rfl : t = u := hspec.tid (.logged t ptr r) (by simp)
  obtain ⟨hes, acc, hacc, hcall⟩ := hspec.logged ptr r (by simp)
  obtain ⟨rfl, -⟩ : es = [] ∧ fs = [] := by simpa [List.append_eq_singleton_iff] using hes
  rw [List.append_nil]
  exact not_faithful_of_deqInv_last hacc hcall

/-- **No record is faithful**: the log is faithful in the runs that log nothing. -/
theorem logFaithful_iff {c : Config (Shared σ α) (Local κe κd α) (Event α)}
    (h : (program S maxThreads α).Reachable c) :
    LogFaithful c.history ↔ ∀ t, c.shared.log t = [] := by
  constructor
  · intro hfaithful t
    rw [(Reach.calls h).2 t]
    refine List.filterMap_eq_nil_iff.mpr fun e he => ?_
    obtain ⟨before, after, heq⟩ := List.append_of_mem he
    cases e with
    | logged u ptr r => exact absurd (hfaithful _ _ _ _ _ heq) (Reach.not_faithful h heq)
    | _ => rfl
  · intro hempty before after t ptr r heq
    have hmem : Event.logged t ptr r ∈ c.history := heq ▸ List.mem_append_right _ List.mem_cons_self
    have hnil := (Reach.calls h).2 t
    rw [hempty t] at hnil
    exact absurd (List.filterMap_eq_nil_iff.mp hnil.symm _ hmem) (by simp [loggedBy])

end QueueFairness.RingQueueAdapter

namespace QueueFairness.PRQueueAdapter

open Interleaving RingQueueAdapter PRQueue

/-- No record that the adapter of `LPRQueue` logs is faithful to its operations. -/
theorem log_unfaithful {α : Type} [Inhabited α] (L : Layout) (maxThreads : Nat)
    {c : Config (Shared Segment α) (Local Enq Deq α) (Event α)}
    (h : (program α L maxThreads).Reachable c) :
    (LogFaithful c.history ↔ ∀ t, c.shared.log t = [])
      ∧ ∀ before after t ptr r, c.history = before ++ .logged t ptr r :: after →
        ¬ Faithful before t ptr r :=
  ⟨logFaithful_iff h, fun _ _ _ _ _ heq => Reach.not_faithful h heq⟩

/-- Thread 0 enqueues 7 as item 3, then thread 1 dequeues it. -/
def soloSchedule : List (Tid × Input Nat) :=
  List.replicate 3 (0, { op := some (.enqueue 7), ts := 1, item := 3 })
    ++ List.replicate 15 (0, { ts := 2 })
    ++ List.replicate 13 (1, { op := some .dequeue, ts := 3 })
    ++ List.replicate 4 (1, { ts := 4 })

theorem soloSchedule_run :
    ((program Nat (.identity 1 (by decide)) 2).exec (program Nat (.identity 1 (by decide)) 2).init
      soloSchedule).map (fun c => (c.shared.log 1, c.history.any (· == .logged 1 3 ⟨1, 2, 4, 3⟩)))
      = some ([⟨1, 2, 4, 3⟩], true) := by
  decide +kernel

theorem log_unfaithful_solo :
    ∃ c, c.shared.log 1 = [⟨1, 2, 4, 3⟩]
      ∧ (program Nat (.identity 1 (by decide)) 2).Reachable c ∧ ¬ LogFaithful c.history := by
  obtain ⟨c, hexec, heq⟩ := Option.map_eq_some_iff.mp soloSchedule_run
  have hlog : c.shared.log 1 = [⟨1, 2, 4, 3⟩] := (Prod.mk.inj heq).1
  have hreach : (program Nat (.identity 1 (by decide)) 2).Reachable c :=
    .exec (fun _ _ _ => trivial) .init hexec
  refine ⟨c, hlog, hreach, fun hfaithful => ?_⟩
  have hnone := (log_unfaithful (.identity 1 (by decide)) 2 hreach).1.mp hfaithful 1
  simp [hlog] at hnone

/-- With nobody else about, the log has `deq_inv` later than `deq_lin`. -/
theorem not_logFaithful_solo :
    ¬ ∀ c, (program Nat (.identity 1 (by decide)) 2).Reachable c → LogFaithful c.history := by
  intro hall
  obtain ⟨c, hexec, heq⟩ := Option.map_eq_some_iff.mp soloSchedule_run
  have hlogged : c.history.any (· == .logged 1 3 ⟨1, 2, 4, 3⟩) = true := (Prod.mk.inj heq).2
  obtain ⟨e, he, hbeq⟩ := List.any_eq_true.mp hlogged
  obtain rfl := eq_of_beq hbeq
  obtain ⟨before, after, hsplit⟩ := List.append_of_mem he
  have hfaithful := hall c (.exec (fun _ _ _ => trivial) .init hexec) before after 1 3 _ hsplit
  exact absurd hfaithful.ordered.deq (by decide)

end QueueFairness.PRQueueAdapter
