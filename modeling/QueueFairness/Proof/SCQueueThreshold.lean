import QueueFairness.Lib.Amortized
import QueueFairness.Proof.SCQueue

/-!
# The threshold of the scalable circular queue

A dequeue that has found nothing under its ticket takes another one only while the threshold is
positive, and pays for it with one of the threshold. However the threads interleave, the tickets
drawn in vain are bounded by the calls made and by the enqueues that may have set the threshold
anew.
-/

namespace QueueFairness.SCQueue

open Interleaving

variable {P : Params} {r : Ring P} {xs : List Nat} {c : Config (Ring P) (Local P) (Event P)}

def Event.isDrawHead : Event P → Bool
  | .drawHead _ _ => true
  | _ => false

def Event.isPoll : Event P → Bool
  | .call _ (.dequeue _) => true
  | _ => false

def Event.isEnqueued : Event P → Bool
  | .enqueued _ => true
  | _ => false

/-- What an event brings in for tickets of the head, or costs. -/
def Event.weight (e : Event P) : Int :=
  (if e.isPoll then 1 else 0) + (if e.isEnqueued then threshold3 P else 0)
    - if e.isDrawHead then 1 else 0

theorem sum_weight (h : List (Event P)) : (h.map Event.weight).sum
    = h.countP Event.isPoll + threshold3 P * h.countP Event.isEnqueued
      - h.countP Event.isDrawHead := by
  induction h with
  | nil => simp
  | cons e h ih =>
      rw [List.map_cons, List.sum_cons, ih, Event.weight, List.countP_cons, List.countP_cons,
        List.countP_cons]
      split <;> split <;> split <;>
        simp only [Nat.cast_add, Nat.cast_one, Nat.cast_zero, Int.mul_add, Int.mul_one,
          Int.mul_zero] <;> omega

/-- Every dequeue looks at the threshold. -/
def Polling (c : Config (Ring P) (Local P) (Event P)) (t : Tid) (i : Input P) : Prop :=
  c.locals t = .idle → i.call ≠ .dequeue true

/-- A dequeue that looks at the threshold, if the thread dequeues. -/
def Looks : Local P → Prop
  | .dequeue nonempty _ => nonempty = false
  | _ => True

/-- A thread that is about to draw a ticket of the head has that to its credit. -/
def drawCredit : Local P → Int
  | .dequeue _ .loadThreshold | .dequeue _ .fetchAdd => 1
  | _ => 0

theorem Reach.looks (h : (program r).Reach Polling c) (t : Tid) : Looks (c.locals t) := by
  induction h with
  | init => trivial
  | @step c _ u i _ hok hnext ih =>
      obtain ⟨g, l, es, hstep, rfl⟩ := Program.next_eq_some hnext
      by_cases htu : t = u
      · subst htu
        have hl := (Prod.mk.inj (Prod.mk.inj (Option.some.inj hstep)).2).1
        simp only [Function.update_self, ← hl]
        cases hlocal : c.locals t with
        | idle =>
            rw [hlocal] at ih
            cases hcall : i.call with
            | enqueue eidx nonempty => simp [start, Looks]
            | dequeue nonempty =>
                cases nonempty with
                | true => exact absurd hcall (hok hlocal)
                | false => simp [start, Looks]
        | enqueue eidx nonempty le =>
            simp only
            split <;> trivial
        | dequeue nonempty ld =>
            rw [hlocal] at ih
            simp only
            split
            · exact ih
            · trivial
      · simpa [htu] using ih

/-- A step of `lfring_enqueue` raises the threshold at its end only. -/
theorem enqueue_balance (t : Tid) (spurious : Bool) (eidx : P.Atomic) (nonempty : Bool)
    (s : Ring P) (l : Enq P) :
    let res := enqueueStep t spurious eidx nonempty s l
    (res.2.2.map Event.weight).sum = 0 ∧ (res.1.threshold = s.threshold
      ∨ res.2.1 = .inr () ∧ res.1.threshold = threshold3 P) := by
  cases l with
  | fetchAdd | loadEntry | loadThreshold =>
      simp [enqueueStep, Event.weight, Event.isPoll, Event.isEnqueued, Event.isDrawHead]
  | loadHead tail entry =>
      simp only [enqueueStep]
      split <;> simp
  | cas tail entry =>
      simp only [enqueueStep]
      split <;>
        simp [Ring.setEntry, Event.weight, Event.isPoll, Event.isEnqueued, Event.isDrawHead]
  | storeThreshold =>
      simp [enqueueStep, Event.weight, Event.isPoll, Event.isEnqueued, Event.isDrawHead]

/-- What a step that leaves the inner loop, or does not, emits is free. -/
theorem weight_goOn (t : Tid) (nonempty : Bool) (head : P.Atomic) (o : Option (Deq P)) :
    ((Deq.goOn t nonempty head o).2.map Event.weight).sum = 0 := by
  cases o <;> simp [Deq.goOn, Event.weight, Event.isPoll, Event.isEnqueued, Event.isDrawHead]

/-- The inner loop draws no ticket. -/
theorem credit_examine (t : Tid) (head entry : P.Atomic) (attempt : Nat) {l' : Deq P}
    (hl' : (Deq.goOn t false head (Deq.examine head entry attempt)).1 = .inl l') :
    drawCredit (.dequeue false l') = 0 := by
  cases hexamine : Deq.examine head entry attempt with
  | none =>
      rw [hexamine] at hl'
      obtain rfl := Sum.inl.inj hl'
      rfl
  | some l =>
      rw [hexamine] at hl'
      obtain rfl := Sum.inl.inj hl'
      simp only [Deq.examine] at hexamine
      repeat' split at hexamine
      all_goals first
        | (obtain rfl := Option.some.inj hexamine; rfl)
        | cases hexamine

/-- A step of `lfring_dequeue` that looks at the threshold: what it draws it has the credit for, and
what credit it gains it takes from the threshold. -/
theorem dequeue_balance (t : Tid) (spurious : Bool) (s : Ring P) (l : Deq P) :
    let res := dequeueStep t spurious false s l
    (∀ l', res.2.1 = .inl l' → drawCredit (.dequeue false l') + max res.1.threshold 0
      ≤ (res.2.2.map Event.weight).sum + drawCredit (.dequeue false l) + max s.threshold 0)
    ∧ max res.1.threshold 0
      ≤ (res.2.2.map Event.weight).sum + drawCredit (.dequeue false l) + max s.threshold 0 := by
  cases l with
  | loadThreshold =>
      simp only [dequeueStep]
      refine ⟨fun l' hl' => ?_, by simp [drawCredit]⟩
      split at hl'
      · cases hl'
      · obtain rfl := Sum.inl.inj hl'
        simp [drawCredit]
  | fetchAdd =>
      refine ⟨fun l' hl' => ?_, ?_⟩
      · obtain rfl := Sum.inl.inj hl'
        simp [dequeueStep, drawCredit, Event.weight, Event.isPoll, Event.isEnqueued,
          Event.isDrawHead]
      · simp [dequeueStep, drawCredit, Event.weight, Event.isPoll, Event.isEnqueued,
          Event.isDrawHead]
  | loadEntry head attempt =>
      simp only [dequeueStep, weight_goOn]
      refine ⟨fun l' hl' => ?_, by simp [drawCredit]⟩
      rw [credit_examine _ _ _ _ hl']
      simp [drawCredit]
  | fetchOr head entry =>
      refine ⟨fun l' hl' => (by cases hl'), ?_⟩
      simp [dequeueStep, Ring.setEntry, drawCredit, Event.weight, Event.isPoll, Event.isEnqueued,
        Event.isDrawHead]
  | cas head entry entryNew attempt =>
      simp only [dequeueStep]
      split
      · simp only [weight_goOn]
        refine ⟨fun l' hl' => ?_, by simp [drawCredit, Ring.setEntry]⟩
        obtain rfl := Sum.inl.inj hl'
        simp [drawCredit, Ring.setEntry, Deq.afterLoop]
      · simp only [weight_goOn]
        refine ⟨fun l' hl' => ?_, by simp [drawCredit]⟩
        rw [credit_examine _ _ _ _ hl']
        simp [drawCredit]
  | loadTail head =>
      simp only [dequeueStep]
      refine ⟨fun l' hl' => ?_, by simp [drawCredit]⟩
      obtain rfl := Sum.inl.inj hl'
      split <;> simp [drawCredit]
  | catchup tail head =>
      simp only [dequeueStep]
      split
      · refine ⟨fun l' hl' => ?_, by simp [drawCredit]⟩
        obtain rfl := Sum.inl.inj hl'
        simp [drawCredit]
      · refine ⟨fun l' hl' => ?_, by simp [drawCredit]⟩
        obtain rfl := Sum.inl.inj hl'
        simp [drawCredit]
  | catchupHead =>
      refine ⟨fun l' hl' => ?_, by simp [dequeueStep, drawCredit]⟩
      obtain rfl := Sum.inl.inj hl'
      simp [dequeueStep, drawCredit]
  | catchupTail head =>
      simp only [dequeueStep]
      refine ⟨fun l' hl' => ?_, by simp [drawCredit]⟩
      obtain rfl := Sum.inl.inj hl'
      split <;> simp [drawCredit]
  | subEmpty =>
      refine ⟨fun l' hl' => (by cases hl'), ?_⟩
      simp only [dequeueStep, drawCredit, List.map_nil, List.sum_nil]
      omega
  | sub =>
      simp only [dequeueStep, drawCredit, List.map_nil, List.sum_nil]
      refine ⟨fun l' hl' => ?_, by omega⟩
      split at hl'
      · cases hl'
      · obtain rfl := Sum.inl.inj hl'
        simp only
        omega

/-- A step of a thread, and what it brings in. -/
theorem step_balance {t : Tid} {i : Input P} {s s' : Ring P} {l l' : Local P} {es : List (Event P)}
    (hl : Looks l) (hstep : (program r).step t i s l = some (s', l', es)) :
    drawCredit l' + max s'.threshold 0
      ≤ (es.map Event.weight).sum + drawCredit l + max s.threshold 0 := by
  have hnonneg := threshold3_nonneg (P := P)
  have hres : step t i s l = (s', l', es) := Option.some.inj hstep
  cases l with
  | idle =>
      obtain ⟨rfl, rfl, rfl⟩ : s = s' ∧ start i.call = l' ∧ [Event.call t i.call] = es := by
        simpa [step] using hres
      cases hcall : i.call with
      | enqueue eidx nonempty =>
          simp [start, drawCredit, Event.weight, Event.isPoll, Event.isEnqueued, Event.isDrawHead]
      | dequeue nonempty =>
          cases nonempty <;>
            simp [start, drawCredit, Event.weight, Event.isPoll, Event.isEnqueued,
              Event.isDrawHead]
  | enqueue eidx nonempty le =>
      obtain ⟨hfree, hthreshold⟩ := enqueue_balance t i.spurious eidx nonempty s le
      simp only [step] at hres
      split at hres
      · rename_i le' hle'
        obtain ⟨rfl, rfl, rfl⟩ := hres
        have hsame := hthreshold.resolve_right fun h => by simp [hle'] at h
        simp [drawCredit, hfree, hsame]
      · obtain ⟨rfl, rfl, rfl⟩ := hres
        have hweight : ([Event.enqueued t].map (Event.weight (P := P))).sum = threshold3 P := by
          simp [Event.weight, Event.isPoll, Event.isEnqueued, Event.isDrawHead]
        rw [List.map_append, List.sum_append, hfree, hweight]
        simp only [drawCredit]
        rcases hthreshold with hsame | ⟨-, hset⟩
        · rw [hsame]
          omega
        · rw [hset]
          omega
  | dequeue nonempty ld =>
      obtain rfl : nonempty = false := hl
      obtain ⟨hgoes, hdone⟩ := dequeue_balance t i.spurious s ld
      simp only [step] at hres
      split at hres
      · rename_i ld' hld'
        obtain ⟨rfl, rfl, rfl⟩ := hres
        exact hgoes ld' hld'
      · obtain ⟨rfl, rfl, rfl⟩ := hres
        have hweight : ∀ o, ([Event.dequeued t o].map (Event.weight (P := P))).sum = 0 :=
          fun o => by
          simp [Event.weight, Event.isPoll, Event.isEnqueued, Event.isDrawHead]
        have hidle : drawCredit (.idle : Local P) = 0 := rfl
        rw [List.map_append, List.sum_append, hweight, hidle]
        omega

/-- **Polling pays.** In every run whose dequeues look at the threshold, at most as many tickets of
the head are drawn as dequeues are called, and `3 * half - 1` more for each enqueue that has
returned and once for the beginning. -/
theorem polls_bounded (hr : Initial P r xs) (h : (program r).Reach Polling c) :
    (c.history.countP Event.isDrawHead : Int) ≤ c.history.countP Event.isPoll
      + threshold3 P * (c.history.countP Event.isEnqueued + 1) := by
  have hthreshold : r.threshold ≤ threshold3 P := by
    have hnonneg := threshold3_nonneg (P := P)
    cases hr with
    | empty =>
        change (-1 : Int) ≤ threshold3 P
        omega
    | full | fill => exact le_refl _
  obtain ⟨threads, -, hle⟩ := Program.Reach.amortized drawCredit (fun s => max s.threshold 0)
    Event.weight rfl (fun hreach _ hstep => step_balance (Reach.looks hreach _) hstep) h
  have hcredit : ∀ l : Local P, 0 ≤ drawCredit l := fun l => by
    unfold drawCredit
    split <;> decide
  have hnonneg' := Program.creditOf_nonneg hcredit threads c.locals
  change Program.creditOf drawCredit threads c.locals + max c.shared.threshold 0
    ≤ (c.history.map Event.weight).sum + max r.threshold 0 at hle
  rw [sum_weight] at hle
  have hnonneg := threshold3_nonneg (P := P)
  rw [Int.mul_add, Int.mul_one]
  omega

/-- Thread 0 puts an index into an empty ring, which sets the threshold; thread 1 takes it, and
draws another ticket when it dequeues again. -/
def polling : List (Tid × Input tiny) :=
  List.replicate 6 (0, { call := .enqueue 1 false })
    ++ List.replicate 8 (1, { call := .dequeue false })

theorem polls_bounded_polling : ∃ c,
    (program (initEmpty (P := tiny) fun _ => 0)).Reach Polling c
      ∧ c.history = [.call 0 (.enqueue 1 false), .drawTail 0 0, .deposit 0 1 0, .setThreshold 0,
        .enqueued 0, .call 1 (.dequeue false), .drawHead 1 0, .take 1 1 0, .dequeued 1 (some 1),
        .call 1 (.dequeue false), .drawHead 1 1]
      ∧ (c.history.countP Event.isDrawHead : Int) ≤ c.history.countP Event.isPoll
        + threshold3 tiny * (c.history.countP Event.isEnqueued + 1) := by
  have hrun : ((program (initEmpty (P := tiny) fun _ => 0)).execIf 2
      (fun _ _ i => decide (i.call ≠ .dequeue true))
        (program (initEmpty (P := tiny) fun _ => 0)).init
      polling).map Config.history
      = some [.call 0 (.enqueue 1 false), .drawTail 0 0, .deposit 0 1 0, .setThreshold 0,
        .enqueued 0, .call 1 (.dequeue false), .drawHead 1 0, .take 1 1 0, .dequeued 1 (some 1),
        .call 1 (.dequeue false), .drawHead 1 1] := by
    decide +kernel
  obtain ⟨c, hexec, heq⟩ := Option.map_eq_some_iff.mp hrun
  have hreach : (program (initEmpty (P := tiny) fun _ => 0)).Reach Polling c :=
    Program.Reach.execIf (fun c t i _ hcheck =>
      (fun _ => of_decide_eq_true hcheck : Polling c t i)) .init (fun _ _ => rfl) hexec
  exact ⟨c, hreach, heq, polls_bounded (.empty _) hreach⟩

end QueueFairness.SCQueue
