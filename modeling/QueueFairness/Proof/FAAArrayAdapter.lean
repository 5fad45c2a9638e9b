import QueueFairness.FAAArrayQueueAdapter
import QueueFairness.Proof.FAAArrayFifo

/-!
# The array queue inside its adapter

A run of the adapter is a run of the queue inside it, on items no two calls share. What the adapter
needs to know of the queue's steps is how far an enqueue is with its stamp and what a dequeue holds.
-/

namespace QueueFairness.FAAArrayQueue

open Interleaving AtomicQueue

/-- How far an enqueue is with the stamp of its item: before it reads the clock, before it writes
what it read, or done. -/
inductive Stamping where
  | unread
  | read (ts : Nat)
  | written

def Local.enqueuing : Local → Option (Nat × Stamping)
  | .enqProtect a _ | .enqPublish a _ | .enqFetchAdd a _ | .enqCheckTail a _ | .enqLoadNext a _
  | .enqHelpTail a _ _ | .enqNewNode a _ | .enqCasNext a _ _ | .enqNowLinked a _ _
  | .enqCasCell a _ _ | .enqNowCell a => some (a, .unread)
  | .enqStampLinked a _ _ ts | .enqStampCell a ts => some (a, .read ts)
  | .enqCasTail a _ _ | .enqClear a => some (a, .written)
  | _ => none

/-- What a dequeue has taken out of a cell, and how far it is with its stamp. -/
inductive Holding where
  | nothing
  | taken (v : Slot)
  | read (v : Slot) (ts : Nat)
  | done (v : Slot)

def Local.dequeuing : Local → Option Holding
  | .deqProtect _ | .deqPublish _ | .deqFetchAdd _ | .deqLoadNext _ | .deqCasHead _ _
  | .deqRetire _ | .deqScan _ | .deqLoadCell _ _ | .deqLoadEnqidx _ _ | .deqSpin _ _ _
  | .deqExchange _ _ | .deqReloadEnqidx _ _ | .deqCheckNext _ _ _ | .deqCasEnqidx _ _ _ =>
      some .nothing
  | .deqNowLin v => some (.taken v)
  | .deqStampLin v ts => some (.read v ts)
  | .deqClear v => some (.done v)
  | _ => none

/-- Events that an adapter need not look at. -/
def Event.Inward : Event → Prop
  | .alloc _ _ | .link _ _ _ | .fill _ _ _ _ | .claim _ _ _ => True
  | _ => False

section Steps

variable {L : Layout} {maxThreads : Nat} {t : Tid} {i : Input} {g g' : Shared} {l l' : Local}
  {es : List Event}

theorem dequeuing_afterScan {scan : Option HazardPointers.Scan} :
    (afterScan scan).dequeuing = some .nothing := by
  cases scan <;> rfl

/-- What a step of an enqueue does, seen from outside. -/
theorem step_enqueuing {a : Nat} {s : Stamping} (hl : l.enqueuing = some (a, s))
    (hstep : step L maxThreads t i g l = some (g', l', es)) :
    (l'.enqueuing = some (a, s) ∧ ∀ e ∈ es, e.Inward)
    ∨ (s = .unread ∧ l'.enqueuing = some (a, .read i.ts) ∧ es = [])
    ∨ (∃ ts, s = .read ts ∧ l'.enqueuing = some (a, .written) ∧ es = [.stampEnq t a ts])
    ∨ (s = .written ∧ l' = .idle ∧ es = [.retEnq t a]) := by
  cases l with
  | enqProtect | enqFetchAdd | enqCheckTail | enqLoadNext | enqCasNext =>
      simp only [step] at hstep
      split at hstep <;> simp only [Option.some.injEq, Prod.mk.injEq] at hstep <;>
        obtain ⟨rfl, rfl, rfl⟩ := hstep <;> exact .inl ⟨hl, by simp [Event.Inward]⟩
  | enqPublish | enqHelpTail =>
      simp only [step, Option.some.injEq, Prod.mk.injEq] at hstep
      obtain ⟨rfl, rfl, rfl⟩ := hstep
      exact .inl ⟨hl, by simp⟩
  | enqNewNode =>
      simp only [step, Option.ite_none_right_eq_some, Option.some.injEq, Prod.mk.injEq] at hstep
      obtain ⟨-, rfl, rfl, rfl⟩ := hstep
      exact .inl ⟨hl, by simp [Event.Inward]⟩
  | enqCasCell =>
      simp only [step] at hstep
      split at hstep
      · cases hstep
      · split at hstep <;> simp only [Option.some.injEq, Prod.mk.injEq] at hstep <;>
          obtain ⟨rfl, rfl, rfl⟩ := hstep <;> exact .inl ⟨hl, by simp [Event.Inward]⟩
  | enqNowLinked | enqNowCell =>
      simp only [step, Option.some.injEq, Prod.mk.injEq] at hstep
      obtain ⟨rfl, rfl, rfl⟩ := hstep
      obtain ⟨rfl, rfl⟩ := Prod.mk.inj (Option.some.inj hl)
      exact .inr (.inl ⟨rfl, rfl, rfl⟩)
  | enqStampLinked | enqStampCell =>
      simp only [step, Option.some.injEq, Prod.mk.injEq] at hstep
      obtain ⟨rfl, rfl, rfl⟩ := hstep
      obtain ⟨rfl, rfl⟩ := Prod.mk.inj (Option.some.inj hl)
      exact .inr (.inr (.inl ⟨_, rfl, rfl, rfl⟩))
  | enqCasTail =>
      simp only [step, Option.some.injEq, Prod.mk.injEq] at hstep
      obtain ⟨rfl, rfl, rfl⟩ := hstep
      exact .inl ⟨hl, by simp⟩
  | enqClear =>
      simp only [step, Option.some.injEq, Prod.mk.injEq] at hstep
      obtain ⟨rfl, rfl, rfl⟩ := hstep
      obtain ⟨rfl, rfl⟩ := Prod.mk.inj (Option.some.inj hl)
      exact .inr (.inr (.inr ⟨rfl, rfl, rfl⟩))
  | _ => cases hl

/-- What a step of a dequeue does, seen from outside. -/
theorem step_dequeuing {s : Holding} (hl : l.dequeuing = some s)
    (hstep : step L maxThreads t i g l = some (g', l', es)) :
    (l'.dequeuing = some s ∧ ∀ e ∈ es, e.Inward)
    ∨ (s = .nothing ∧ l'.dequeuing = some (.done .empty) ∧ es = [])
    ∨ (∃ n idx v, s = .nothing ∧ es = [.take t n idx v]
      ∧ l'.dequeuing = some (if v = .empty then .nothing else .taken v))
    ∨ (∃ v, s = .taken v ∧ l'.dequeuing = some (.read v i.ts) ∧ es = [])
    ∨ (∃ v ts, s = .read v ts ∧ l'.dequeuing = some (.done v) ∧ es = [.stampDeq t v ts])
    ∨ (∃ v, s = .done v ∧ l' = .idle ∧ es = [.retDeq t v]) := by
  cases l with
  | deqProtect | deqFetchAdd | deqCasHead | deqLoadEnqidx | deqSpin | deqReloadEnqidx
  | deqCheckNext =>
      simp only [step] at hstep
      split at hstep <;> simp only [Option.some.injEq, Prod.mk.injEq] at hstep <;>
        obtain ⟨rfl, rfl, rfl⟩ := hstep <;> exact .inl ⟨hl, by simp [Event.Inward]⟩
  | deqPublish =>
      simp only [step, Option.some.injEq, Prod.mk.injEq] at hstep
      obtain ⟨rfl, rfl, rfl⟩ := hstep
      exact .inl ⟨hl, by simp⟩
  | deqRetire | deqScan =>
      simp only [step, Option.some.injEq, Prod.mk.injEq] at hstep
      obtain ⟨rfl, rfl, rfl⟩ := hstep
      exact .inl ⟨dequeuing_afterScan.trans hl, by simp⟩
  | deqLoadCell =>
      simp only [step] at hstep
      split at hstep
      · cases hstep
      · split at hstep <;> simp only [Option.some.injEq, Prod.mk.injEq] at hstep <;>
          obtain ⟨rfl, rfl, rfl⟩ := hstep <;> exact .inl ⟨hl, by simp⟩
  | deqLoadNext =>
      simp only [step] at hstep
      split at hstep <;> simp only [Option.some.injEq, Prod.mk.injEq] at hstep <;>
        obtain ⟨rfl, rfl, rfl⟩ := hstep
      · exact .inr (.inl ⟨(Option.some.inj hl).symm, rfl, rfl⟩)
      · exact .inl ⟨hl, by simp⟩
  | deqExchange n idx =>
      simp only [step] at hstep
      split at hstep <;> simp only [Option.some.injEq, Prod.mk.injEq] at hstep <;>
        obtain ⟨rfl, rfl, rfl⟩ := hstep <;> rename_i hv <;>
        exact .inr
          (.inr (.inl ⟨n, idx, _, (Option.some.inj hl).symm, rfl, by simp [hv, Local.dequeuing]⟩))
  | deqNowLin v =>
      simp only [step, Option.some.injEq, Prod.mk.injEq] at hstep
      obtain ⟨rfl, rfl, rfl⟩ := hstep
      exact .inr (.inr (.inr (.inl ⟨v, (Option.some.inj hl).symm, rfl, rfl⟩)))
  | deqStampLin v ts =>
      simp only [step, Option.some.injEq, Prod.mk.injEq] at hstep
      obtain ⟨rfl, rfl, rfl⟩ := hstep
      exact .inr (.inr (.inr (.inr (.inl ⟨v, ts, (Option.some.inj hl).symm, rfl, rfl⟩))))
  | deqCasEnqidx =>
      simp only [step, Option.some.injEq, Prod.mk.injEq] at hstep
      obtain ⟨rfl, rfl, rfl⟩ := hstep
      exact .inr (.inl ⟨(Option.some.inj hl).symm, rfl, rfl⟩)
  | deqClear v =>
      simp only [step, Option.some.injEq, Prod.mk.injEq] at hstep
      obtain ⟨rfl, rfl, rfl⟩ := hstep
      exact .inr (.inr (.inr (.inr (.inr ⟨v, (Option.some.inj hl).symm, rfl, rfl⟩))))
  | _ => cases hl

end Steps

end QueueFairness.FAAArrayQueue

namespace QueueFairness.FAAArrayQueueAdapter

open Interleaving AtomicQueue

variable {α : Type}

abbrev W (α : Type) := World Unit (Shared α) (Event α)

/-- What is known of the items handed to the queue. -/
structure Issued (w : W α) : Prop where
  status : ∀ {t a}, .new t a ∈ w.history → w.shared.status a ≠ .unallocated
  owner : ∀ {t u a}, .new t a ∈ w.history → .new u a ∈ w.history → t = u
  called : ∀ {t a}, .queue (.call t (.enqueue a)) ∈ w.history → .new t a ∈ w.history

/-- The item of thread `t` that it has not handed to the queue yet. -/
structure Unsent (w : W α) (t : Tid) (a : Nat) : Prop where
  new : .new t a ∈ w.history
  call : ∀ u, .queue (.call u (.enqueue a)) ∉ w.history

def IssueLoc (w : W α) (t : Tid) : Local α → Prop
  | .enqNowInv a | .enqStoreInv a _ => Unsent w t a
  | .enq a l => l = .idle ∧ Unsent w t a ∨ .new t a ∈ w.history ∧ ∃ s, l.enqueuing = some (a, s)
  | .deq _ l => l = .idle ∨ ∃ s, l.dequeuing = some s
  | _ => True

/-- What thread `t` relies on. -/
structure IssueRely (t : Tid) (w w' : W α) : Prop where
  history : ∀ {e}, e ∈ w.history → e ∈ w'.history
  unsent : ∀ {a}, Unsent w t a → Unsent w' t a

theorem IssueRely.loc {t : Tid} {w w' : W α} {l : Local α} (h : IssueRely t w w')
    (hl : IssueLoc w t l) : IssueLoc w' t l := by
  cases l with
  | enqNowInv | enqStoreInv => exact h.unsent hl
  | enq => exact hl.imp (And.imp_right h.unsent) (And.imp_left h.history)
  | deq => exact hl
  | idle | enqNew | deqNowInv | deqReadValue | deqStoreInv | deqReadEnqInv | deqReadEnqLin
  | deqReadDeqInv | deqLog | deqDelete => trivial

/-! ### Steps of the queue inside -/

section Queue

variable {L : Layout} {maxThreads : Nat} {t : Tid} {op : Option (Op Nat)} {i : Input α}
  {g g' : Shared α} {l' : FAAArrayQueue.Local} {es : List FAAArrayQueue.Event}

theorem queueStep_spec {l : FAAArrayQueue.Local}
    (h : queueStep L maxThreads t op i g l = some (g', l', es)) :
    ∃ q, FAAArrayQueue.step L maxThreads t { op := op, ts := i.ts, addr := i.addr } g.q l
        = some (q, l', es) ∧ es.foldlM Shared.stamp { g with q := q } = some g' := by
  obtain ⟨⟨q, k, fs⟩, hstep, hmap⟩ := Option.bind_eq_some_iff.mp h
  obtain ⟨d, hfold, heq⟩ := Option.map_eq_some_iff.mp hmap
  simp only [Prod.mk.injEq] at heq
  obtain ⟨rfl, rfl, rfl⟩ := heq
  exact ⟨q, hstep, hfold⟩

end Queue

theorem stamps_inward {g : Shared α} {es : List FAAArrayQueue.Event} (hes : ∀ e ∈ es, e.Inward) :
    es.foldlM Shared.stamp g = some g := by
  induction es with
  | nil => rfl
  | cons e es ih =>
      have he := hes e List.mem_cons_self
      have hkeep : g.stamp e = some g := by
        cases e <;> first | rfl | exact he.elim
      rw [List.foldlM_cons, hkeep]
      exact ih fun e he => hes e (List.mem_cons_of_mem _ he)

theorem returned_inward {es : List FAAArrayQueue.Event} (hes : ∀ e ∈ es, e.Inward) :
    returned es = none := by
  refine List.findSome?_eq_none_iff.mpr fun e he => ?_
  have hinward := hes e he
  cases e <;> first | rfl | exact hinward.elim

theorem filterMap_queueEvent (es : List FAAArrayQueue.Event) :
    (es.map (Event.queue (α := α))).filterMap queueEvent = es := by
  rw [List.filterMap_map]
  exact List.filterMap_some

theorem filterMap_queueEvent_ret (es : List FAAArrayQueue.Event) (t : Tid) (res : Res α) :
    (es.map Event.queue ++ [Event.ret t res]).filterMap queueEvent = es := by
  rw [List.filterMap_append, filterMap_queueEvent]
  exact List.append_nil es

/-- What a step of thread `t` from `w` has to achieve. -/
def IssuesPreserved (t : Tid) (w : W α) (g : Shared α) (l : Local α) (es : List (Event α)) : Prop :=
  Issued ⟨(), g, w.history ++ es⟩ ∧ IssueLoc ⟨(), g, w.history ++ es⟩ t l
    ∧ ∀ u, u ≠ t → IssueRely u w ⟨(), g, w.history ++ es⟩

section Steps

variable {L : Layout} {maxThreads : Nat} {t : Tid} {i : Input α} {g g' : Shared α} {l l' : Local α}
  {h es : List (Event α)}

/-- A step that allocates no item. -/
theorem issued_step (hw : Issued ⟨(), g, h⟩)
    (hstatus : ∀ a, g.status a ≠ .unallocated → g'.status a ≠ .unallocated)
    (hnew : ∀ u a, .new u a ∉ es)
    (hcall : ∀ {u a}, .queue (.call u (.enqueue a)) ∈ es → u = t ∧ .new t a ∈ h)
    (hl : ((∀ u a, .queue (.call u (.enqueue a)) ∉ es) → IssueRely t ⟨(), g, h⟩ ⟨(), g', h ++ es⟩) →
      IssueLoc ⟨(), g', h ++ es⟩ t l) :
    IssuesPreserved t ⟨(), g, h⟩ g' l es := by
  have hold : ∀ {u a}, .new u a ∈ h ++ es → .new u a ∈ h := fun {u a} hn =>
    (List.mem_append.mp hn).resolve_right (hnew u a)
  refine ⟨⟨fun hn => hstatus _ (hw.status (hold hn)), fun hn hm => hw.owner (hold hn) (hold hm),
    fun {u a} hc => List.mem_append_left _ ?_⟩, hl fun hno => ⟨fun he => List.mem_append_left _ he,
      fun {a} hu => ⟨List.mem_append_left _ hu.new, fun v hv =>
        (List.mem_append.mp hv).elim (hu.call v) (hno v a)⟩⟩, fun u hu =>
    ⟨fun he => List.mem_append_left _ he, fun {a} hun => ⟨List.mem_append_left _ hun.new,
      fun v hv => (List.mem_append.mp hv).elim (hun.call v) fun hv => ?_⟩⟩⟩
  · rcases List.mem_append.mp hc with hc | hc
    · exact hw.called hc
    · obtain ⟨rfl, hn⟩ := hcall hc
      exact hn
  · exact hu (hw.owner hun.new (hcall hv).2)

/-- What a step inside `q.enqueue(ptr)` does. -/
theorem enq_cases {ptr : Nat} {l : FAAArrayQueue.Local} {l' : Local α}
    (hl : l = .idle ∨ ∃ s, l.enqueuing = some (ptr, s))
    (hstep : stepAt L maxThreads t i g (.enq ptr l) = some (g', l', es)) :
    ∃ q k fs, FAAArrayQueue.step L maxThreads t
        { op := some (.enqueue ptr), ts := i.ts, addr := i.addr } g.q l = some (q, k, fs)
      ∧ ((l = .idle ∧ k.enqueuing = some (ptr, .unread) ∧ fs = [.call t (.enqueue ptr)]
          ∧ g' = { g with q := q } ∧ l' = .enq ptr k ∧ es = fs.map .queue)
        ∨ (∃ s, l.enqueuing = some (ptr, s) ∧ k.enqueuing = some (ptr, s) ∧ (∀ e ∈ fs, e.Inward)
          ∧ g' = { g with q := q } ∧ l' = .enq ptr k ∧ es = fs.map .queue)
        ∨ (l.enqueuing = some (ptr, .unread) ∧ k.enqueuing = some (ptr, .read i.ts) ∧ fs = []
          ∧ g' = { g with q := q } ∧ l' = .enq ptr k ∧ es = fs.map .queue)
        ∨ (∃ ts, l.enqueuing = some (ptr, .read ts) ∧ k.enqueuing = some (ptr, .written)
          ∧ fs = [.stampEnq t ptr ts]
          ∧ g' = ({ g with q := q } : Shared α).setItem ptr { g.items ptr with enqLinTs := ts }
          ∧ l' = .enq ptr k ∧ es = fs.map .queue)
        ∨ (l.enqueuing = some (ptr, .written) ∧ k = .idle ∧ fs = [.retEnq t ptr]
          ∧ g' = { g with q := q } ∧ l' = .idle ∧ es = fs.map .queue ++ [.ret t .enqueued])) := by
  obtain ⟨⟨d, k, fs⟩, hqueue, heq⟩ := Option.map_eq_some_iff.mp hstep
  obtain ⟨q, hinner, hfold⟩ := queueStep_spec hqueue
  refine ⟨q, k, fs, hinner, ?_⟩
  rcases hl with rfl | ⟨s, hs⟩
  · simp only [FAAArrayQueue.step, Option.map_some, Option.some.injEq, Prod.mk.injEq] at hinner
    obtain ⟨rfl, rfl, rfl⟩ := hinner
    obtain rfl := Option.some.inj hfold
    simp only [reduceCtorEq, ↓reduceIte, Prod.mk.injEq] at heq
    obtain ⟨rfl, rfl, rfl⟩ := heq
    exact .inl ⟨rfl, rfl, rfl, rfl, rfl, rfl⟩
  · have hbusy : ∀ {s}, k.enqueuing = some (ptr, s) → k ≠ .idle := by
      rintro s hk rfl
      cases hk
    rcases FAAArrayQueue.step_enqueuing hs hinner with ⟨hk, hes⟩ | ⟨rfl, hk, rfl⟩
      | ⟨ts, rfl, hk, rfl⟩ | ⟨rfl, rfl, rfl⟩
    · obtain rfl := Option.some.inj ((stamps_inward hes).symm.trans hfold)
      simp only [hbusy hk, ↓reduceIte, Prod.mk.injEq] at heq
      obtain ⟨rfl, rfl, rfl⟩ := heq
      exact .inr (.inl ⟨s, hs, hk, hes, rfl, rfl, rfl⟩)
    · obtain rfl := Option.some.inj hfold
      simp only [hbusy hk, ↓reduceIte, Prod.mk.injEq] at heq
      obtain ⟨rfl, rfl, rfl⟩ := heq
      exact .inr (.inr (.inl ⟨hs, hk, rfl, rfl, rfl, rfl⟩))
    · obtain rfl := Option.some.inj hfold
      simp only [hbusy hk, ↓reduceIte, Prod.mk.injEq] at heq
      obtain ⟨rfl, rfl, rfl⟩ := heq
      exact .inr (.inr (.inr (.inl ⟨ts, hs, hk, rfl, rfl, rfl, rfl⟩)))
    · obtain rfl := Option.some.inj hfold
      simp only [↓reduceIte, Prod.mk.injEq] at heq
      obtain ⟨rfl, rfl, rfl⟩ := heq
      exact .inr (.inr (.inr (.inr ⟨hs, rfl, rfl, rfl, rfl, rfl⟩)))

/-- What a step inside `q.dequeue()` does. -/
theorem deq_cases {inv : Nat} {l : FAAArrayQueue.Local} {l' : Local α}
    (hl : l = .idle ∨ ∃ s, l.dequeuing = some s)
    (hstep : stepAt L maxThreads t i g (.deq inv l) = some (g', l', es)) :
    ∃ q k fs, FAAArrayQueue.step L maxThreads t
        { op := some .dequeue, ts := i.ts, addr := i.addr } g.q l = some (q, k, fs)
      ∧ ((l = .idle ∧ k.dequeuing = some .nothing ∧ fs = [.call t .dequeue]
          ∧ g' = { g with q := q } ∧ l' = .deq inv k ∧ es = fs.map .queue)
        ∨ (∃ s, l.dequeuing = some s ∧ k.dequeuing = some s ∧ (∀ e ∈ fs, e.Inward)
          ∧ g' = { g with q := q } ∧ l' = .deq inv k ∧ es = fs.map .queue)
        ∨ (l.dequeuing = some .nothing ∧ k.dequeuing = some (.done .empty) ∧ fs = []
          ∧ g' = { g with q := q } ∧ l' = .deq inv k ∧ es = fs.map .queue)
        ∨ (∃ n idx v, l.dequeuing = some .nothing
          ∧ k.dequeuing = some (if v = .empty then .nothing else .taken v)
          ∧ fs = [.take t n idx v] ∧ g' = { g with q := q } ∧ l' = .deq inv k
          ∧ es = fs.map .queue)
        ∨ (∃ v, l.dequeuing = some (.taken v) ∧ k.dequeuing = some (.read v i.ts) ∧ fs = []
          ∧ g' = { g with q := q } ∧ l' = .deq inv k ∧ es = fs.map .queue)
        ∨ (∃ a ts, l.dequeuing = some (.read (.item a) ts) ∧ k.dequeuing = some (.done (.item a))
          ∧ fs = [.stampDeq t (.item a) ts]
          ∧ g' = ({ g with q := q } : Shared α).setItem a { g.items a with deqLinTs := ts }
          ∧ l' = .deq inv k ∧ es = fs.map .queue)
        ∨ (l.dequeuing = some (.done .empty) ∧ k = .idle ∧ fs = [.retDeq t .empty]
          ∧ g' = { g with q := q } ∧ l' = .idle
          ∧ es = fs.map .queue ++ [.ret t (.dequeued false none)])
        ∨ (∃ a, l.dequeuing = some (.done (.item a)) ∧ k = .idle ∧ fs = [.retDeq t (.item a)]
          ∧ g' = { g with q := q } ∧ l' = .deqReadValue inv a ∧ es = fs.map .queue)) := by
  obtain ⟨⟨d, k, fs⟩, hqueue, heq⟩ := Option.bind_eq_some_iff.mp hstep
  obtain ⟨q, hinner, hfold⟩ := queueStep_spec hqueue
  refine ⟨q, k, fs, hinner, ?_⟩
  rcases hl with rfl | ⟨s, hs⟩
  · simp only [FAAArrayQueue.step, Option.map_some, Option.some.injEq, Prod.mk.injEq] at hinner
    obtain ⟨rfl, rfl, rfl⟩ := hinner
    obtain rfl := Option.some.inj hfold
    simp only [returned, List.findSome?_cons, List.findSome?_nil, Option.some.injEq,
      Prod.mk.injEq] at heq
    obtain ⟨rfl, rfl, rfl⟩ := heq
    exact .inl ⟨rfl, rfl, rfl, rfl, rfl, rfl⟩
  · rcases FAAArrayQueue.step_dequeuing hs hinner with ⟨hk, hes⟩ | ⟨rfl, hk, rfl⟩
      | ⟨n, idx, v, rfl, rfl, hk⟩ | ⟨v, rfl, hk, rfl⟩ | ⟨v, ts, rfl, hk, rfl⟩ | ⟨v, rfl, rfl, rfl⟩
    · obtain rfl := Option.some.inj ((stamps_inward hes).symm.trans hfold)
      simp only [returned_inward hes, Option.some.injEq, Prod.mk.injEq] at heq
      obtain ⟨rfl, rfl, rfl⟩ := heq
      exact .inr (.inl ⟨s, hs, hk, hes, rfl, rfl, rfl⟩)
    · obtain rfl := Option.some.inj hfold
      simp only [returned, List.findSome?_nil, Option.some.injEq, Prod.mk.injEq] at heq
      obtain ⟨rfl, rfl, rfl⟩ := heq
      exact .inr (.inr (.inl ⟨hs, hk, rfl, rfl, rfl, rfl⟩))
    · obtain rfl := Option.some.inj hfold
      simp only [returned, List.findSome?_cons, List.findSome?_nil, Option.some.injEq,
        Prod.mk.injEq] at heq
      obtain ⟨rfl, rfl, rfl⟩ := heq
      exact .inr (.inr (.inr (.inl ⟨n, idx, v, hs, hk, rfl, rfl, rfl, rfl⟩)))
    · obtain rfl := Option.some.inj hfold
      simp only [returned, List.findSome?_nil, Option.some.injEq, Prod.mk.injEq] at heq
      obtain ⟨rfl, rfl, rfl⟩ := heq
      exact .inr (.inr (.inr (.inr (.inl ⟨v, hs, hk, rfl, rfl, rfl, rfl⟩))))
    · cases v with
      | item a =>
          obtain rfl := Option.some.inj hfold
          simp only [returned, List.findSome?_cons, List.findSome?_nil, Option.some.injEq,
            Prod.mk.injEq] at heq
          obtain ⟨rfl, rfl, rfl⟩ := heq
          exact .inr (.inr (.inr (.inr (.inr (.inl ⟨a, ts, hs, hk, rfl, rfl, rfl, rfl⟩)))))
      | empty | taken => cases hfold
    · obtain rfl := Option.some.inj hfold
      cases v <;> simp only [returned, List.findSome?_cons, Option.some.injEq, Prod.mk.injEq,
        reduceCtorEq] at heq
      · obtain ⟨rfl, rfl, rfl⟩ := heq
        exact .inr (.inr (.inr (.inr (.inr (.inr (.inl ⟨hs, rfl, rfl, rfl, rfl, rfl⟩))))))
      · obtain ⟨rfl, rfl, rfl⟩ := heq
        exact .inr (.inr (.inr (.inr (.inr (.inr (.inr ⟨_, hs, rfl, rfl, rfl, rfl, rfl⟩))))))

/-- A step of the queue inside that is not a call. -/
theorem issued_inward (fs : List FAAArrayQueue.Event) (out : List (Event α))
    (hw : Issued ⟨(), g, h⟩) (hstatus : g'.status = g.status)
    (hcall : ∀ u op, .call u op ∉ fs) (hout : ∀ e ∈ out, ∃ u res, e = .ret u res)
    (hl : IssueRely t ⟨(), g, h⟩ ⟨(), g', h ++ (fs.map .queue ++ out)⟩ →
      IssueLoc ⟨(), g', h ++ (fs.map .queue ++ out)⟩ t l) :
    IssuesPreserved t ⟨(), g, h⟩ g' l (fs.map .queue ++ out) := by
  have hno : ∀ u a, .queue (.call u (.enqueue a)) ∉ fs.map (Event.queue (α := α)) ++ out := by
    intro u a hmem
    rcases List.mem_append.mp hmem with hmem | hmem
    · obtain ⟨e, he, heq⟩ := List.mem_map.mp hmem
      cases heq
      exact hcall u _ he
    · obtain ⟨v, res, heq⟩ := hout _ hmem
      cases heq
  refine issued_step hw (fun a ha => by rwa [hstatus]) (fun u a hmem => ?_)
    (fun hmem => absurd hmem (hno _ _)) fun hr => hl (hr hno)
  rcases List.mem_append.mp hmem with hmem | hmem
  · obtain ⟨e, -, heq⟩ := List.mem_map.mp hmem
    cases heq
  · obtain ⟨v, res, heq⟩ := hout _ hmem
    cases heq

/-- A step of the adapter's own that allocates nothing. -/
theorem issued_own (hw : Issued ⟨(), g, h⟩)
    (hstatus : ∀ a, g.status a ≠ .unallocated → g'.status a ≠ .unallocated)
    (hnew : ∀ u a, .new u a ∉ es) (hqueue : ∀ e, .queue e ∉ es)
    (hl : IssueRely t ⟨(), g, h⟩ ⟨(), g', h ++ es⟩ → IssueLoc ⟨(), g', h ++ es⟩ t l) :
    IssuesPreserved t ⟨(), g, h⟩ g' l es :=
  issued_step hw hstatus hnew (fun hmem => absurd hmem (hqueue _)) fun hr =>
    hl (hr fun _ _ => hqueue _)

theorem issued_new (hw : Issued ⟨(), g, h⟩) {a : Nat} {v : α} (hfree : g.status a = .unallocated) :
    IssuesPreserved t ⟨(), g, h⟩ ((g.setStatus a .allocated).setItem a { value := v })
      (.enqNowInv a) [.new t a] := by
  have hfresh : ∀ u, .new u a ∉ h := fun u hu => hw.status hu hfree
  have hstatus : ∀ b, g.status b ≠ .unallocated →
      ((g.setStatus a .allocated).setItem a { value := v }).status b ≠ .unallocated := by
    intro b hb
    by_cases hba : b = a
    · subst hba
      simp [Shared.setItem, Shared.setStatus]
    · simpa [Shared.setItem, Shared.setStatus, hba] using hb
  refine ⟨⟨fun {u b} hn => ?_, fun {u v b} hu hv => ?_, fun {u b} hc => ?_⟩,
    ⟨by simp, fun u hu => ?_⟩, fun u _ => ⟨fun he => List.mem_append_left _ he, fun {b} hun =>
      ⟨List.mem_append_left _ hun.new, fun v hv => hun.call v (by simpa using hv)⟩⟩⟩
  · rcases List.mem_append.mp hn with hn | hn
    · exact hstatus b (hw.status hn)
    · obtain ⟨-, rfl⟩ : u = t ∧ b = a := by simpa using hn
      simp [Shared.setItem, Shared.setStatus]
  · by_cases hba : b = a
    · subst hba
      have hu' : u = t := by simpa [hfresh] using hu
      have hv' : v = t := by simpa [hfresh] using hv
      exact hu'.trans hv'.symm
    · exact hw.owner (a := b) (by simpa [hba] using hu) (by simpa [hba] using hv)
  · have hc' : .queue (.call u (.enqueue b)) ∈ h := by simpa using hc
    exact List.mem_append_left _ (hw.called hc')
  · have hu' : .queue (.call u (.enqueue a)) ∈ h := by simpa using hu
    exact hfresh u (hw.called hu')

theorem IssueLoc.enq {w : W α} {ptr : Nat} {l : FAAArrayQueue.Local}
    (hl : IssueLoc w t (.enq ptr l)) :
    .new t ptr ∈ w.history ∧ (l = .idle ∨ ∃ s, l.enqueuing = some (ptr, s)) := by
  rcases hl with ⟨hidle, hun⟩ | ⟨hnew, hs⟩
  · exact ⟨hun.new, .inl hidle⟩
  · exact ⟨hnew, .inr hs⟩

theorem step_issued (hw : Issued ⟨(), g, h⟩) (hl : IssueLoc ⟨(), g, h⟩ t l)
    (hstep : stepAt L maxThreads t i g l = some (g', l', es)) :
    IssuesPreserved t ⟨(), g, h⟩ g' l' es := by
  cases l with
  | idle =>
      obtain ⟨op, -, heq⟩ := Option.map_eq_some_iff.mp hstep
      cases op <;> simp only [Prod.mk.injEq] at heq <;> obtain ⟨rfl, rfl, rfl⟩ := heq <;>
        exact issued_own hw (fun _ ha => ha) (by simp) (by simp) fun _ => trivial
  | enqNew v =>
      simp only [stepAt, Option.ite_none_right_eq_some, Option.some.injEq, Prod.mk.injEq] at hstep
      obtain ⟨hfree, rfl, rfl, rfl⟩ := hstep
      exact issued_new hw hfree
  | enqNowInv ptr =>
      simp only [stepAt, Option.some.injEq, Prod.mk.injEq] at hstep
      obtain ⟨rfl, rfl, rfl⟩ := hstep
      exact issued_own hw (fun _ ha => ha) (by simp) (by simp) fun hr => hr.unsent hl
  | enqStoreInv ptr ts =>
      simp only [stepAt, Option.some.injEq, Prod.mk.injEq] at hstep
      obtain ⟨rfl, rfl, rfl⟩ := hstep
      exact issued_own hw (fun _ ha => ha) (by simp) (by simp) fun hr => .inl ⟨rfl, hr.unsent hl⟩
  | enq ptr l =>
      obtain ⟨hnew, hstate⟩ := IssueLoc.enq hl
      obtain ⟨q, k, fs, -, hcases⟩ := enq_cases hstate hstep
      rcases hcases with ⟨-, hk, rfl, rfl, rfl, rfl⟩ | ⟨s, -, hk, hes, rfl, rfl, rfl⟩
        | ⟨-, hk, rfl, rfl, rfl, rfl⟩ | ⟨ts, -, hk, rfl, rfl, rfl, rfl⟩ | ⟨-, -, rfl, rfl, rfl, rfl⟩
      · exact issued_step hw (fun _ ha => ha) (by simp) (fun {u a} hmem => by
          obtain ⟨rfl, rfl⟩ : u = t ∧ a = ptr := by simpa using hmem
          exact ⟨rfl, hnew⟩) fun _ => .inr ⟨List.mem_append_left _ hnew, _, hk⟩
      · rw [← List.append_nil (fs.map Event.queue)]
        exact issued_inward _ _ hw rfl (fun u op hmem => hes _ hmem) (by simp) fun hr =>
          .inr ⟨hr.history hnew, _, hk⟩
      · exact issued_inward [] [] hw rfl (by simp) (by simp) fun hr =>
          .inr ⟨hr.history hnew, _, hk⟩
      · exact issued_inward [.stampEnq t ptr ts] [] hw rfl (by simp) (by simp)
          fun hr => .inr ⟨hr.history hnew, _, hk⟩
      · exact issued_inward _ _ hw rfl (by simp) (by simp) fun _ => trivial
  | deqNowInv =>
      simp only [stepAt, Option.some.injEq, Prod.mk.injEq] at hstep
      obtain ⟨rfl, rfl, rfl⟩ := hstep
      exact issued_own hw (fun _ ha => ha) (by simp) (by simp) fun _ => .inl rfl
  | deq inv l =>
      obtain ⟨q, k, fs, -, hcases⟩ := deq_cases hl hstep
      rcases hcases with ⟨-, hk, rfl, rfl, rfl, rfl⟩ | ⟨s, -, hk, hes, rfl, rfl, rfl⟩
        | ⟨-, hk, rfl, rfl, rfl, rfl⟩ | ⟨n, idx, v, -, hk, rfl, rfl, rfl, rfl⟩
        | ⟨v, -, hk, rfl, rfl, rfl, rfl⟩ | ⟨a, ts, -, hk, rfl, rfl, rfl, rfl⟩
        | ⟨-, -, rfl, rfl, rfl, rfl⟩ | ⟨a, -, -, rfl, rfl, rfl, rfl⟩
      · exact issued_step hw (fun _ ha => ha) (by simp) (by simp) fun _ => .inr ⟨_, hk⟩
      · rw [← List.append_nil (fs.map Event.queue)]
        exact issued_inward _ _ hw rfl (fun u op hmem => hes _ hmem) (by simp) fun _ => .inr ⟨_, hk⟩
      · exact issued_inward [] [] hw rfl (by simp) (by simp) fun _ =>
          .inr ⟨_, hk⟩
      · exact issued_inward [.take t n idx v] [] hw rfl (by simp) (by simp)
          fun _ => .inr ⟨_, hk⟩
      · exact issued_inward [] [] hw rfl (by simp) (by simp) fun _ =>
          .inr ⟨_, hk⟩
      · exact issued_inward [.stampDeq t (.item a) ts] [] hw rfl (by simp)
          (by simp) fun _ => .inr ⟨_, hk⟩
      · exact issued_inward _ _ hw rfl (by simp) (by simp) fun _ => trivial
      · exact issued_inward [.retDeq t (.item a)] [] hw rfl (by simp) (by simp)
          fun _ => trivial
  | deqReadValue | deqStoreInv | deqReadEnqInv | deqReadEnqLin | deqReadDeqInv | deqLog =>
      simp only [stepAt, Option.some.injEq, Prod.mk.injEq] at hstep
      obtain ⟨rfl, rfl, rfl⟩ := hstep
      exact issued_own hw (fun _ ha => ha) (by simp) (by simp) fun _ => trivial
  | deqDelete ptr out =>
      simp only [stepAt, Option.some.injEq, Prod.mk.injEq] at hstep
      obtain ⟨rfl, rfl, rfl⟩ := hstep
      refine issued_own hw (fun a ha => ?_) (by simp) (by simp) fun _ => trivial
      by_cases hap : a = ptr
      · subst hap
        simp [Shared.setStatus]
      · simpa [Shared.setStatus, hap] using ha

/-- A step of the adapter is a step of the queue inside, or leaves the queue alone. -/
theorem step_inner {w : W α} (hl : IssueLoc w t l)
    (hstep : stepAt L maxThreads t i g l = some (g', l', es)) :
    (g'.q = g.q ∧ l'.queue = l.queue ∧ es.filterMap queueEvent = [])
    ∨ ∃ op, FAAArrayQueue.step L maxThreads t { op := op, ts := i.ts, addr := i.addr } g.q l.queue
        = some (g'.q, l'.queue, es.filterMap queueEvent)
      ∧ ∀ a, op = some (.enqueue a) → l.queue = .idle → Unsent w t a := by
  cases l with
  | idle =>
      obtain ⟨op, -, heq⟩ := Option.map_eq_some_iff.mp hstep
      cases op <;> simp only [Prod.mk.injEq] at heq <;> obtain ⟨rfl, rfl, rfl⟩ := heq <;>
        exact .inl ⟨rfl, rfl, rfl⟩
  | enqNew v =>
      simp only [stepAt, Option.ite_none_right_eq_some, Option.some.injEq, Prod.mk.injEq] at hstep
      obtain ⟨-, rfl, rfl, rfl⟩ := hstep
      exact .inl ⟨rfl, rfl, rfl⟩
  | enq ptr l =>
      obtain ⟨-, hstate⟩ := IssueLoc.enq hl
      obtain ⟨q, k, fs, hinner, hcases⟩ := enq_cases hstate hstep
      refine .inr ⟨some (.enqueue ptr), ?_, fun a ha hidle => ?_⟩
      · rcases hcases with ⟨-, -, -, rfl, rfl, rfl⟩ | ⟨s, -, -, -, rfl, rfl, rfl⟩
          | ⟨-, -, -, rfl, rfl, rfl⟩ | ⟨ts, -, -, -, rfl, rfl, rfl⟩ | ⟨-, rfl, -, rfl, rfl, rfl⟩
        all_goals first
          | rw [filterMap_queueEvent]; exact hinner
          | rw [filterMap_queueEvent_ret]; exact hinner
      · obtain rfl : ptr = a := by simpa using ha
        rcases hl with ⟨-, hun⟩ | ⟨-, s, hs⟩
        · exact hun
        · rw [show l = .idle from hidle] at hs
          cases hs
  | deq inv l =>
      obtain ⟨q, k, fs, hinner, hcases⟩ := deq_cases hl hstep
      refine .inr ⟨some .dequeue, ?_, fun a ha => by cases ha⟩
      rcases hcases with ⟨-, -, -, rfl, rfl, rfl⟩ | ⟨s, -, -, -, rfl, rfl, rfl⟩
        | ⟨-, -, -, rfl, rfl, rfl⟩ | ⟨n, idx, v, -, -, -, rfl, rfl, rfl⟩
        | ⟨v, -, -, -, rfl, rfl, rfl⟩ | ⟨a, ts, -, -, -, rfl, rfl, rfl⟩
        | ⟨-, rfl, -, rfl, rfl, rfl⟩ | ⟨a, -, rfl, -, rfl, rfl, rfl⟩
      all_goals first
        | rw [filterMap_queueEvent]; exact hinner
        | rw [filterMap_queueEvent_ret]; exact hinner
  | enqNowInv | enqStoreInv | deqNowInv | deqReadValue | deqStoreInv | deqReadEnqInv
  | deqReadEnqLin | deqReadDeqInv | deqLog | deqDelete =>
      simp only [stepAt, Option.some.injEq, Prod.mk.injEq] at hstep
      obtain ⟨rfl, rfl, rfl⟩ := hstep
      exact .inl ⟨rfl, rfl, rfl⟩

end Steps

section Results

variable [Inhabited α] {L : Layout} {maxThreads : Nat}
  {c : Config (Shared α) (Local α) (Event α)}

/-- What is known of the items, as a rely-guarantee proof. -/
def issueInvariant (α : Type) [Inhabited α] (L : Layout) (maxThreads : Nat) :
    RelyGuarantee (program α L maxThreads) (fun _ _ _ => True) Unit where
  glob := Issued
  loc := IssueLoc
  rely := IssueRely
  init := ⟨(), ⟨fun hm => (by cases hm), fun hm => (by cases hm), fun hm => (by cases hm)⟩,
    fun _ => trivial⟩
  stable := IssueRely.loc
  step {x c t i g l es} _ hw hl hstep := by
    obtain ⟨-, hstep⟩ := Option.ite_none_right_eq_some.mp hstep
    have hw' : Issued ⟨x, { c.shared with clock := i.ts }, c.history⟩ :=
      ⟨hw.status, hw.owner, hw.called⟩
    have htime : IssueRely t ⟨x, c.shared, c.history⟩
        ⟨x, { c.shared with clock := i.ts }, c.history⟩ := ⟨id, fun hun => ⟨hun.new, hun.call⟩⟩
    obtain ⟨hglob, hown, hothers⟩ := step_issued hw' (htime.loc (hl t)) hstep
    exact ⟨(), hglob, hown, fun u hu => ⟨(hothers u hu).history, fun hun =>
      (hothers u hu).unsent ⟨hun.new, hun.call⟩⟩⟩

theorem Reach.issued (h : (program α L maxThreads).Reachable c) :
    Issued ⟨(), c.shared, c.history⟩ ∧ ∀ t, IssueLoc ⟨(), c.shared, c.history⟩ t (c.locals t) := by
  obtain ⟨_, hc⟩ := (issueInvariant α L maxThreads).holds h
  exact hc

/-- **The queue inside goes through a run of its own**, on items no two of its calls share. -/
theorem Reach.inner (h : (program α L maxThreads).Reachable c) :
    (FAAArrayQueue.program L maxThreads).Reach FAAArrayQueue.FreshItem (inner c) := by
  induction h with
  | init => exact .init
  | @step c _ t i hreach _ hnext ih =>
      obtain ⟨g, l, es, hstep, rfl⟩ := Program.next_eq_some hnext
      obtain ⟨-, hstep⟩ := Option.ite_none_right_eq_some.mp hstep
      obtain ⟨-, hl⟩ := Reach.issued hreach
      have hlocals : (fun u => (Function.update c.locals t l u).queue)
          = Function.update (fun u => (c.locals u).queue) t l.queue := by
        funext u
        by_cases hu : u = t
        · subst hu
          simp
        · simp [hu]
      have hhistory : (c.history ++ es).filterMap queueEvent
          = (FAAArrayQueueAdapter.inner c).history ++ es.filterMap queueEvent := by
        simp [FAAArrayQueueAdapter.inner]
      rcases step_inner (hl t) hstep with ⟨hq, hlq, hes⟩ | ⟨op, hinner, hfresh⟩
      · have heq : FAAArrayQueueAdapter.inner ⟨g, Function.update c.locals t l, c.history ++ es⟩
            = FAAArrayQueueAdapter.inner c := by
          have hkeep : Function.update (fun u => (c.locals u).queue) t (c.locals t).queue
              = fun u => (c.locals u).queue := Function.update_eq_self t _
          simp only [FAAArrayQueueAdapter.inner, hlocals, hlq, hq, hhistory, hes, List.append_nil,
            hkeep]
        rw [heq]
        exact ih
      · refine .step ih (t := t) (i := { op := op, ts := i.ts, addr := i.addr })
          (fun a hidle hop u hu => ?_) ?_
        · obtain ⟨e, he, heq⟩ := List.mem_filterMap.mp hu
          cases e <;> simp only [queueEvent, Option.some.injEq, reduceCtorEq] at heq
          subst heq
          exact (hfresh a hop hidle).call u he
        · refine Option.map_eq_some_iff.mpr ⟨_, hinner, ?_⟩
          simp [FAAArrayQueueAdapter.inner, hlocals]

end Results

end QueueFairness.FAAArrayQueueAdapter
