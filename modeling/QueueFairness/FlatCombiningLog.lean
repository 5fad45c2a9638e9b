import QueueFairness.FlatCombiningQueue

/-!
# An observer of the flat combining queue

What the log ought to be, computed from the history alone. The observer follows the inner queue
through the effects, keeping for every item the two stamps of its enqueue, and remembers the stamps
last read for each slot. When a dequeue takes the front item, the four stamps of that pair of calls
are the record its caller has to log.
-/

namespace QueueFairness.FlatCombiningQueue

open Interleaving AtomicQueue

variable {α : Type}

structure Observer where
  /-- The invocation and linearization stamps of the items in the queue, oldest first. -/
  items : List (Nat × Nat)
  inv : Tid → Nat
  lin : Tid → Nat
  popped : Tid → Option LogRecord
  /-- The records of all successful dequeues, in the order of their effects. -/
  records : List LogRecord
  log : Tid → List LogRecord

def Observer.init : Observer :=
  { items := [], inv := fun _ => 0, lin := fun _ => 0, popped := fun _ => none, records := [],
    log := fun _ => [] }

/-- Thread `t`'s dequeue has taken the front item. -/
def Observer.pop (o : Observer) (t : Tid) : Observer :=
  match o.items with
  | [] => o
  | x :: rest =>
      let r : LogRecord := ⟨x.1, x.2, o.inv t, o.lin t⟩
      { o with items := rest, popped := Function.update o.popped t (some r),
               records := o.records ++ [r] }

def Observer.see (o : Observer) : Event α → Observer
  | .inv t ts => { o with inv := Function.update o.inv t ts }
  | .lin t ts => { o with lin := Function.update o.lin t ts }
  | .act (.effect t (.enqueue _) _) => { o with items := o.items ++ [(o.inv t, o.lin t)] }
  | .act (.effect t .dequeue (.dequeued true _)) => o.pop t
  | .act _ => o
  | .logged t _ =>
      { o with log := Function.update o.log t (o.log t ++ (o.popped t).toList) }

def observe (history : List (Event α)) : Observer :=
  history.foldl Observer.see .init

/-- The calls, effects and returns of a history. -/
def acts (history : List (Event α)) : List (Act α) :=
  history.filterMap fun
    | .act a => some a
    | _ => none

@[simp]
theorem observe_nil : observe ([] : List (Event α)) = .init := rfl

@[simp]
theorem observe_append_singleton (history : List (Event α)) (e : Event α) :
    observe (history ++ [e]) = (observe history).see e := by
  simp [observe]

@[simp]
theorem acts_nil : acts ([] : List (Event α)) = [] := rfl

@[simp]
theorem acts_append_act (history : List (Event α)) (a : Act α) :
    acts (history ++ [.act a]) = acts history ++ [a] := by
  simp [acts]

@[simp]
theorem acts_append_inv (history : List (Event α)) (t : Tid) (ts : Nat) :
    acts (history ++ [.inv t ts]) = acts history := by
  simp [acts]

@[simp]
theorem acts_append_lin (history : List (Event α)) (i ts : Nat) :
    acts (history ++ [.lin i ts]) = acts history := by
  simp [acts]

@[simp]
theorem acts_append_logged (history : List (Event α)) (t : Tid) (r : LogRecord) :
    acts (history ++ [.logged t r]) = acts history := by
  simp [acts]

/-- No linearization stamp the observer holds is later than `ts`. -/
structure Observer.Before (o : Observer) (ts : Nat) : Prop where
  items : ∀ x ∈ o.items, x.2 ≤ ts
  records : ∀ r ∈ o.records, r.enqLinTs ≤ ts ∧ r.deqLinTs ≤ ts

/-- The stamps are in order: within a record, along the queue, and along the sequence of dequeues.
`clock` bounds them all. -/
structure Observer.Timely (o : Observer) (clock : Nat) : Prop where
  inv : ∀ t, o.inv t ≤ clock
  before : o.Before clock
  items : ∀ x ∈ o.items, x.1 ≤ x.2
  itemsSorted : o.items.Pairwise fun x y => x.2 ≤ y.2
  records : ∀ r ∈ o.records, r.Ordered
  recordsSorted : o.records.Pairwise fun r s => r.enqLinTs ≤ s.enqLinTs ∧ r.deqLinTs ≤ s.deqLinTs
  recordsFirst : ∀ r ∈ o.records, ∀ x ∈ o.items, r.enqLinTs ≤ x.2
  popped : ∀ t r, o.popped t = some r → r ∈ o.records
  log : ∀ t, ∀ r ∈ o.log t, r ∈ o.records

theorem Observer.Before.mono {o : Observer} {ts ts' : Nat} (h : o.Before ts) (hle : ts ≤ ts') :
    o.Before ts' where
  items x hx := (h.items x hx).trans hle
  records r hr := ⟨(h.records r hr).1.trans hle, (h.records r hr).2.trans hle⟩

theorem Observer.timely_init : Observer.init.Timely 0 := by
  constructor <;> simp [Observer.init]
  constructor <;> simp

namespace Observer.Timely

variable {o : Observer} {clock : Nat}

theorem tick (h : o.Timely clock) {ts : Nat} (hle : clock ≤ ts) : o.Timely ts :=
  { h with inv := fun t => (h.inv t).trans hle, before := h.before.mono hle }

theorem see_inv (h : o.Timely clock) (t : Tid) : (o.see (.inv t clock : Event α)).Timely clock := by
  refine { h with inv := fun u => ?_, before := ⟨h.before.items, h.before.records⟩ }
  by_cases hu : u = t
  · simp [see, hu]
  · simpa [see, hu] using h.inv u

theorem see_lin (h : o.Timely clock) (t : Tid) (ts : Nat) :
    (o.see (.lin t ts : Event α)).Timely clock :=
  { h with before := ⟨h.before.items, h.before.records⟩ }

/-- An enqueue takes effect with a stamp no earlier than its invocation and than all stamps before
it. -/
theorem see_enqueue (h : o.Timely clock) (t : Tid) (item : α) (hinv : o.inv t ≤ o.lin t)
    (hbefore : o.Before (o.lin t)) (hle : o.lin t ≤ clock) :
    (o.see (.act (.effect t (.enqueue item) .enqueued))).Timely clock := by
  refine { h with before := ⟨?_, h.before.records⟩, items := ?_, itemsSorted := ?_,
                  recordsFirst := ?_ }
  · intro x hx
    rcases List.mem_append.mp hx with hx | hx
    · exact h.before.items x hx
    · obtain rfl := List.mem_singleton.mp hx
      exact hle
  · intro x hx
    rcases List.mem_append.mp hx with hx | hx
    · exact h.items x hx
    · obtain rfl := List.mem_singleton.mp hx
      exact hinv
  · simp only [see, List.pairwise_append, List.mem_singleton, forall_eq, List.pairwise_singleton,
      true_and]
    exact ⟨h.itemsSorted, fun x hx => hbefore.items x hx⟩
  · intro r hr x hx
    rcases List.mem_append.mp hx with hx | hx
    · exact h.recordsFirst r hr x hx
    · obtain rfl := List.mem_singleton.mp hx
      exact (hbefore.records r hr).1

/-- A dequeue takes the front item with a stamp no earlier than its invocation and than all stamps
before it. -/
theorem pop (h : o.Timely clock) (t : Tid) (hinv : o.inv t ≤ o.lin t)
    (hbefore : o.Before (o.lin t)) (hle : o.lin t ≤ clock) : (o.pop t).Timely clock := by
  unfold Observer.pop
  split
  · exact h
  · rename_i x rest hitems
    have hx : x ∈ o.items := by simp [hitems]
    have hrest : ∀ y ∈ rest, y ∈ o.items := fun y hy => by simp [hitems, hy]
    have hsorted := h.itemsSorted
    rw [hitems, List.pairwise_cons] at hsorted
    refine ⟨h.inv, ⟨fun y hy => h.before.items y (hrest y hy), ?_⟩,
      fun y hy => h.items y (hrest y hy), hsorted.2, ?_, ?_, ?_, ?_, ?_⟩
    · intro r hr
      rcases List.mem_append.mp hr with hr | hr
      · exact h.before.records r hr
      · obtain rfl := List.mem_singleton.mp hr
        exact ⟨h.before.items x hx, hle⟩
    · intro r hr
      rcases List.mem_append.mp hr with hr | hr
      · exact h.records r hr
      · obtain rfl := List.mem_singleton.mp hr
        exact ⟨h.items x hx, hbefore.items x hx, hinv⟩
    · simp only [List.pairwise_append, List.mem_singleton, forall_eq, List.pairwise_singleton,
        true_and]
      exact ⟨h.recordsSorted, fun r hr => ⟨h.recordsFirst r hr x hx, (hbefore.records r hr).2⟩⟩
    · intro r hr y hy
      rcases List.mem_append.mp hr with hr | hr
      · exact h.recordsFirst r hr y (hrest y hy)
      · obtain rfl := List.mem_singleton.mp hr
        exact hsorted.1 y hy
    · intro u r hr
      by_cases hu : u = t
      · subst hu
        obtain rfl : _ = r := by simpa using hr
        simp
      · exact List.mem_append_left _ (h.popped u r (by simpa [hu] using hr))
    · intro u r hr
      exact List.mem_append_left _ (h.log u r hr)

theorem see_logged (h : o.Timely clock) (t : Tid) (r : LogRecord) :
    (o.see (.logged t r : Event α)).Timely clock := by
  refine { h with before := ⟨h.before.items, h.before.records⟩, log := fun u s hs => ?_ }
  by_cases hu : u = t
  · subst hu
    simp only [see, Function.update_self, List.mem_append, Option.mem_toList] at hs
    rcases hs with hs | hs
    · exact h.log u s hs
    · exact h.popped u s hs
  · exact h.log u s (by simpa [see, hu] using hs)

/-- **FIFO order of the stamps.** Of two records, the one whose item was enqueued at the earlier
stamp was not dequeued at a later one. -/
theorem inOrder (h : o.Timely clock) {r s : LogRecord} (hr : r ∈ o.records) (hs : s ∈ o.records)
    (hlt : r.enqLinTs < s.enqLinTs) : r.deqLinTs ≤ s.deqLinTs := by
  obtain ⟨i, hi, rfl⟩ := List.mem_iff_getElem.mp hr
  obtain ⟨j, hj, rfl⟩ := List.mem_iff_getElem.mp hs
  have hsorted := List.pairwise_iff_getElem.mp h.recordsSorted
  rcases Nat.lt_trichotomy i j with hij | hij | hij
  · exact (hsorted i j hi hj hij).2
  · subst hij
    exact le_refl _
  · have := (hsorted j i hj hi hij).1
    omega

end Observer.Timely

end QueueFairness.FlatCombiningQueue
