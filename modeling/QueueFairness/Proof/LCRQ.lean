import Mathlib.Data.List.Nodup
import QueueFairness.Lib.Occurrence
import QueueFairness.Proof.LCRQRings

/-!
# The old ring queue, used by one thread

A dequeue that finds the queue empty takes an index of the last ring all the same, and the item that
is enqueued under that index is left behind: the head has gone past it. The queue is a FIFO list as
long as that does not happen before an enqueue and a later dequeue. If it happens when the last ring
is used up, no index is lost.
-/

namespace QueueFairness.LCRQ

open AtomicQueue (Op Res apply results after after_snoc)
open Occurrence (Occurs occurs_nil occurs_append_cons occurs_snoc)

variable {α : Type} {clock : Nat → Nat} {s : State α} {n m k r i fuel : Nat}

/-- Of the items `vals` that were ever enqueued, the first `m` have been dequeued. -/
structure Contains (s : State α) (vals : List α) (m : Nat) : Prop where
  holds : Holds s vals.length m
  items : s.items.map TimedNode.value = vals
  used : s.tailRing = 0 ∨ 1024 * s.tailRing < vals.length

/-- The head stands at item `m`, or its ring has been emptied for good. -/
def Aligned (s : State α) (m : Nat) : Prop :=
  (s.rings s.headRing).head = (m - 1024 * s.headRing : Nat) ∨ m = 1024 * (s.headRing + 1)

variable {vals : List α}

theorem Contains.enqueue (hc : Contains s vals m) (item : α) (clock : Nat → Nat) (fuel : Nat) :
    ∃ s', call clock (fuel + 2) s (.enqueue item) = some (s', .enqueued)
      ∧ Contains s' (vals ++ [item]) m ∧ s'.headRing = s.headRing
      ∧ (s'.rings s.headRing).head = (s.rings s.headRing).head := by
  have hlength : s.items.length = vals.length := by
    rw [← hc.items, List.length_map]
  let node : TimedNode α := { value := item, enqInvTs := clock s.reads }
  let s₁ := { s.tick with items := s.items ++ [node] }
  have hs₁ : Holds s₁ vals.length m := { hc.holds with }
  obtain ⟨s', hloop, hs', hitems, hused, hheadRing, hhead⟩ :=
    hs₁.enqueueLoop clock (fuel + 1) fuel
  refine ⟨s', ?_, ⟨?_, ?_, ?_⟩, hheadRing, hhead⟩
  · rw [call, LCRQ.enqueue, hlength]
    exact congrArg (Option.map _) hloop
  · rw [List.length_append]
    exact hs'
  · rw [hitems, ← hc.items]
    simp [s₁, node]
  · rw [List.length_append]
    exact .inr (Nat.lt_succ_of_le hused)

theorem exists_item (hitems : s.items.map TimedNode.value = vals) (hlt : k < vals.length) :
    ∃ node, s.items[k]? = some node ∧ node.value = vals[k] := by
  have hk : (s.items.map TimedNode.value)[k]? = some vals[k] := by
    rw [hitems, List.getElem?_eq_getElem hlt]
  rw [List.getElem?_map] at hk
  exact Option.map_eq_some_iff.mp hk

/-! ### Dequeues -/

section Loop

variable {deqInvTs ptr h next : Nat} {s₁ : State α}

/-- The loop ends on a ring whose head stands at an item. -/
theorem dequeueLoop_item (hitems : s.items.map TimedNode.value = vals) (hh : h < 1024)
    (hhead : (s.rings s.headRing).head = h)
    (hval : ((s.rings s.headRing).entries h).val = .valid ptr) (hlt : ptr < vals.length)
    (clock : Nat → Nat) (deqInvTs k fuel : Nat) :
    ∃ records, dequeueLoop clock deqInvTs (k + 1) (fuel + 1) s
      = some ({ s.take clock s.headRing h ptr with records := records }, true, some vals[ptr]) := by
  have hitems := (map_value_take clock s s.headRing h ptr).trans hitems
  obtain ⟨node, hget, hvalue⟩ := exists_item hitems hlt
  refine ⟨(s.take clock s.headRing h ptr).records
    ++ [⟨node.enqInvTs, node.enqLinTs, deqInvTs, node.deqLinTs⟩], ?_⟩
  rw [LCRQ.dequeueLoop, ringDequeue_item hh hhead hval]
  simp only [Option.bind_eq_bind, Option.bind_some, hget, hvalue]
  rfl

/-- The loop goes on to the next ring. -/
theorem dequeueLoop_next (hring : ringDequeue clock s.headRing k s = some (s₁, none))
    (hnext : (s₁.rings s.headRing).next = some next) :
    dequeueLoop clock deqInvTs k (fuel + 1) s
      = dequeueLoop clock deqInvTs k fuel { s₁ with headRing := next } := by
  rw [LCRQ.dequeueLoop, hring]
  simp only [Option.bind_eq_bind, Option.bind_some, hnext]

/-- The loop ends on the last ring. -/
theorem dequeueLoop_last (hring : ringDequeue clock s.headRing k s = some (s₁, none))
    (hnext : (s₁.rings s.headRing).next = none) (hlast : s₁.tailRing = s.headRing) :
    dequeueLoop clock deqInvTs k (fuel + 1) s = some (s₁, false, none) := by
  rw [LCRQ.dequeueLoop, hring]
  simp only [Option.bind_eq_bind, Option.bind_some, hnext, if_pos hlast]
  rfl

theorem call_dequeue {s' : State α} {success : Bool} {out : Option α}
    (hloop : dequeueLoop clock (clock s.reads) fuel fuel s.tick = some (s', success, out)) :
    call clock fuel s .dequeue = some (s', .dequeued success out) := by
  rw [call, LCRQ.dequeue, hloop]
  rfl

end Loop

/-- A dequeue that finds nothing leaves what is queued as it is. -/
theorem Contains.setHead (hc : Contains s vals m) (head : Int) :
    Contains (s.tick.setHead s.headRing head) vals m where
  holds := Holds.setHead (s := s.tick) { hc.holds with } head
  items := hc.items
  used := hc.used

/-- **A ring that gives nothing is left for the next.** -/
theorem Contains.dequeueLoop_advance (hc : Contains s vals m) (hlt : s.headRing < s.tailRing)
    (hnone : 1024 ≤ (s.rings s.headRing).head
      ∨ ((s.rings s.headRing).entries (slot (s.rings s.headRing).head)).val = .empty)
    (hk : 100 ≤ k) (clock : Nat → Nat) (deqInvTs fuel : Nat) :
    LCRQ.dequeueLoop clock deqInvTs k (fuel + 1) s.tick
      = LCRQ.dequeueLoop clock deqInvTs k fuel
        { s.tick.setHead s.headRing (succ64 (s.rings s.headRing).head) with
          headRing := s.headRing + 1 } := by
  refine dequeueLoop_next (ringDequeue_none hk hnone) ?_
  rw [setHead_next]
  exact (hc.holds.next _ hc.holds.head_le).trans (if_neg (Nat.ne_of_lt hlt))

/-- The loop ends on a ring whose head stands at the oldest item. -/
theorem Contains.dequeueLoop (hc : Contains s vals m)
    (hhead : (s.rings s.headRing).head = (m - 1024 * s.headRing : Nat))
    (hring : m < 1024 * (s.headRing + 1)) (hlt : m < vals.length) (clock : Nat → Nat)
    (deqInvTs k fuel : Nat) :
    ∃ s', dequeueLoop clock deqInvTs (k + 1) (fuel + 1) s = some (s', true, some vals[m])
      ∧ Contains s' vals (m + 1) ∧ Aligned s' (m + 1) := by
  have hs := hc.holds
  obtain ⟨h, hm⟩ := Nat.exists_eq_add_of_le hs.behind
  have hh : h < 1024 := by omega
  have hhead : (s.rings s.headRing).head = h := by
    rw [hhead]
    omega
  have hval : ((s.rings s.headRing).entries h).val = .valid m := by
    rw [hs.val _ hs.head_le h hh, valAt, if_pos (by omega), hm]
  obtain ⟨records, hloop⟩ := dequeueLoop_item hc.items hh hhead hval hlt clock
    deqInvTs k fuel
  subst hm
  have hs' := hs.take hh hlt clock
  have hhead' := take_head clock s s.headRing (1024 * s.headRing + h) hh
  refine ⟨_, hloop, ⟨{ hs' with }, (map_value_take ..).trans hc.items, hc.used⟩, .inl ?_⟩
  refine hhead'.trans (congrArg Nat.cast ?_)
  change h + 1 = 1024 * s.headRing + h + 1 - 1024 * s.headRing
  omega

/-- **A dequeue takes the oldest item.** -/
theorem Contains.dequeue_cons (hc : Contains s vals m) (ha : Aligned s m) (hlt : m < vals.length)
    (hfuel : 100 ≤ fuel) (clock : Nat → Nat) :
    ∃ s', call clock fuel s .dequeue = some (s', .dequeued true (some vals[m]))
      ∧ Contains s' vals (m + 1) ∧ Aligned s' (m + 1) := by
  obtain ⟨k, rfl⟩ := Nat.exists_eq_add_of_le' hfuel
  have hs := hc.holds
  have hc₀ : Contains s.tick vals m := ⟨{ hs with }, hc.items, hc.used⟩
  have hahead := hs.ahead
  rcases Nat.lt_or_ge m (1024 * (s.headRing + 1)) with hring | hring
  · have hhead := ha.resolve_right (Nat.ne_of_lt hring)
    obtain ⟨s', hloop, hs'⟩ := hc₀.dequeueLoop hhead hring hlt clock (clock s.reads)
      (k + 99) (k + 99)
    exact ⟨s', call_dequeue hloop, hs'⟩
  · -- The ring has been emptied, and the oldest item is the first of the next one.
    have hend : m = 1024 * (s.headRing + 1) := Nat.le_antisymm hahead hring
    have hroom := hs.room
    have hlt_tail : s.headRing < s.tailRing := by omega
    let s₁ := s.tick.setHead s.headRing (succ64 (s.rings s.headRing).head)
    have hslot := slot_lt (s.rings s.headRing).head
    have hempty := hs.empty hs.head_le hslot (.inr (by omega))
    have hadvance := hc.dequeueLoop_advance hlt_tail (.inr hempty) hfuel clock (clock s.reads)
      (k + 99)
    have hc₁ : Contains s₁ vals m := hc.setHead _
    have hc₂ : Contains { s₁ with headRing := s.headRing + 1 } vals m :=
      ⟨hc₁.holds.advance hend hlt_tail, hc₁.items, hc₁.used⟩
    have hhead : (s₁.rings (s.headRing + 1)).head = (m - 1024 * (s.headRing + 1) : Nat) := by
      rw [hend, Nat.sub_self]
      exact hc₁.holds.heads _ (Nat.lt_succ_self _) hlt_tail
    obtain ⟨s', hloop, hs'⟩ := hc₂.dequeueLoop hhead
      (show m < 1024 * (s.headRing + 1 + 1) by omega) hlt clock (clock s.reads) (k + 99) (k + 98)
    exact ⟨s', call_dequeue (hadvance.trans hloop), hs'⟩

/-- **A dequeue finds nothing on the last ring.** -/
theorem Contains.dequeue_last (hc : Contains s vals m) (hlast : s.headRing = s.tailRing)
    (hnone : 1024 ≤ (s.rings s.headRing).head
      ∨ ((s.rings s.headRing).entries (slot (s.rings s.headRing).head)).val = .empty)
    (hfuel : 100 ≤ fuel) (clock : Nat → Nat) :
    ∃ s', call clock fuel s .dequeue = some (s', .dequeued false none) ∧ Contains s' vals m
      ∧ s'.headRing = s.headRing
      ∧ (s'.rings s.headRing).head = succ64 (s.rings s.headRing).head := by
  obtain ⟨k, rfl⟩ := Nat.exists_eq_add_of_le' hfuel
  let s' := s.tick.setHead s.headRing (succ64 (s.rings s.headRing).head)
  have hring : ringDequeue clock s.headRing (k + 100) s.tick = some (s', none) :=
    ringDequeue_none (by omega) hnone
  have hnext : (s'.rings s.headRing).next = none := by
    rw [setHead_next]
    exact (hc.holds.next _ hc.holds.head_le).trans (if_pos hlast)
  exact ⟨s', call_dequeue (dequeueLoop_last hring hnext hlast.symm), hc.setHead _, rfl,
    setHead_self ..⟩

/-- **A dequeue finds the queue empty.** -/
theorem Contains.dequeue_nil (hc : Contains s vals vals.length) (hfuel : 100 ≤ fuel)
    (clock : Nat → Nat) :
    ∃ s', call clock fuel s .dequeue = some (s', .dequeued false none)
      ∧ Contains s' vals vals.length ∧ s.headRing = s.tailRing ∧ s'.headRing = s.headRing
      ∧ (s'.rings s.headRing).head = succ64 (s.rings s.headRing).head := by
  have hs := hc.holds
  have hlast : s.headRing = s.tailRing := by
    have := hs.ahead
    have := hs.head_le
    have := hc.used
    omega
  have hempty := hs.empty hs.head_le (slot_lt (s.rings s.headRing).head) (by omega)
  obtain ⟨s', hcall, hc', hsame⟩ := hc.dequeue_last hlast (.inr hempty) hfuel clock
  exact ⟨s', hcall, hc', hlast, hsame⟩

/-- The head stands behind slots that are still to be filled, or were filled behind it. -/
structure Ahead (s : State α) (m bound : Nat) : Prop where
  ring : m < 1024 * (s.headRing + 1)
  head : ∃ h : Nat, (s.rings s.headRing).head = h ∧ m < 1024 * s.headRing + h ∧ h ≤ bound

/-- **A dequeue goes past the oldest item.** -/
theorem Contains.dequeue_ahead {bound : Nat} (hc : Contains s vals m) (ha : Ahead s m bound)
    (hfuel : 100 ≤ fuel) (clock : Nat → Nat) :
    ∃ s' res, call clock fuel s .dequeue = some (s', res)
      ∧ (res = .dequeued false none
        ∨ ∃ j, ∃ hj : j < vals.length, j ≠ m ∧ res = .dequeued true (some vals[j])) := by
  have hs := hc.holds
  have hring := ha.ring
  obtain ⟨h, hhead, hpast, -⟩ := ha.head
  obtain ⟨k, rfl⟩ := Nat.exists_eq_add_of_le' hfuel
  rcases Nat.lt_or_ge h 1024 with hh | hh
  · rcases Nat.lt_or_ge (1024 * s.headRing + h) vals.length with hj | hj
    · have hval : ((s.rings s.headRing).entries h).val = .valid (1024 * s.headRing + h) := by
        rw [hs.val _ hs.head_le h hh, valAt, if_pos (by omega)]
      obtain ⟨records, hloop⟩ := dequeueLoop_item (s := s.tick) hc.items hh hhead hval hj
        clock (clock s.reads) (k + 99) (k + 99)
      exact ⟨_, _, call_dequeue hloop, .inr ⟨_, hj, Nat.ne_of_gt hpast, rfl⟩⟩
    · have hlast : s.headRing = s.tailRing := by
        have := hs.full
        have := hs.head_le
        omega
      have hempty : ((s.rings s.headRing).entries (slot (s.rings s.headRing).head)).val
          = .empty := by
        rw [hhead, slot_natCast hh]
        exact hs.empty hs.head_le hh (.inl hj)
      obtain ⟨s', hcall, -⟩ := hc.dequeue_last hlast (.inr hempty) hfuel clock
      exact ⟨s', _, hcall, .inl rfl⟩
  · have hused : 1024 ≤ (s.rings s.headRing).head := by
      rw [hhead]
      omega
    rcases Nat.eq_or_lt_of_le hs.head_le with hlast | hlt_tail
    · obtain ⟨s', hcall, -⟩ := hc.dequeue_last hlast (.inl hused) hfuel clock
      exact ⟨s', _, hcall, .inl rfl⟩
    · -- The items left behind are passed over for the first of the next ring.
      have hj : 1024 * (s.headRing + 1) < vals.length := by
        have := hc.used
        omega
      let s₁ := s.tick.setHead s.headRing (succ64 (s.rings s.headRing).head)
      have hadvance := hc.dequeueLoop_advance hlt_tail (.inl hused) hfuel clock (clock s.reads)
        (k + 99)
      have hc₁ : Contains s₁ vals m := hc.setHead _
      have hval : ((s₁.rings (s.headRing + 1)).entries 0).val
          = .valid (1024 * (s.headRing + 1)) := by
        rw [hc₁.holds.val _ hlt_tail 0 (by decide), valAt, if_pos (by omega)]
        rfl
      obtain ⟨records, hloop⟩ := dequeueLoop_item (s := { s₁ with headRing := s.headRing + 1 })
        (h := 0) hc₁.items (by decide) (hc₁.holds.heads _ (Nat.lt_succ_self _) hlt_tail) hval hj
        clock (clock s.reads) (k + 99) (k + 98)
      exact ⟨_, _, call_dequeue (hadvance.trans hloop), .inr ⟨_, hj, Nat.ne_of_gt hring, rfl⟩⟩

/-! ### Which calls fit -/

/-- The items of the enqueues. -/
def enqueued (calls : List (Op α)) : List α :=
  calls.filterMap fun
    | .enqueue item => some item
    | .dequeue => none

/-- A dequeue made now would find the queue empty, and go past a slot that is still to be filled. -/
def Spoils (calls : List (Op α)) : Prop :=
  after [] calls = [] ∧ (enqueued calls = [] ∨ ¬ ringSize ∣ (enqueued calls).length)

/-- Such a dequeue was made. -/
def Spoiled (calls : List (Op α)) : Prop :=
  Occurs (fun before op => op = .dequeue ∧ Spoils before) calls

/-- An enqueue was made after it. -/
def Disturbed (calls : List (Op α)) : Prop :=
  Occurs (fun before op => op ≠ .dequeue ∧ Spoiled before) calls

/-- The next call is a dequeue, made after both. -/
def Fails (calls : List (Op α)) (op : Op α) : Prop := op = .dequeue ∧ Disturbed calls

/-- **No dequeue that goes past an open slot is followed by an enqueue and then by a dequeue.** -/
def Undisturbed (calls : List (Op α)) : Prop :=
  ¬ Occurs Fails calls

section Decidable

variable [DecidableEq α] (calls : List (Op α))

instance : Decidable (Spoils calls) := inferInstanceAs (Decidable (_ ∧ _))

instance : Decidable (Spoiled calls) := inferInstanceAs (Decidable (Occurs _ _))

instance : Decidable (Disturbed calls) := inferInstanceAs (Decidable (Occurs _ _))

instance (op : Op α) : Decidable (Fails calls op) := inferInstanceAs (Decidable (_ ∧ _))

instance : Decidable (Undisturbed calls) := inferInstanceAs (Decidable (¬ _))

end Decidable

example : Undisturbed [.enqueue 1, .dequeue, .dequeue, .dequeue, .enqueue 2] := by decide

example : ¬ Undisturbed [.dequeue, .enqueue 7, .dequeue] := by decide

/-! ### One call after another -/

variable {calls ops : List (Op α)} {item : α}

theorem enqueued_enqueue : enqueued (calls ++ [.enqueue item]) = enqueued calls ++ [item] := by
  simp [enqueued]

theorem enqueued_dequeue : enqueued (calls ++ [.dequeue]) = enqueued calls := by
  simp [enqueued]

theorem length_enqueued_le (calls : List (Op α)) : (enqueued calls).length ≤ calls.length :=
  List.length_filterMap_le ..

theorem spoiled_enqueue : Spoiled (calls ++ [.enqueue item]) ↔ Spoiled calls := by
  simp [Spoiled, occurs_snoc]

theorem spoiled_dequeue : Spoiled (calls ++ [.dequeue]) ↔ Spoiled calls ∨ Spoils calls := by
  simp [Spoiled, occurs_snoc]

theorem disturbed_enqueue :
    Disturbed (calls ++ [.enqueue item]) ↔ Disturbed calls ∨ Spoiled calls := by
  simp [Disturbed, occurs_snoc]

theorem disturbed_dequeue : Disturbed (calls ++ [.dequeue]) ↔ Disturbed calls := by
  simp [Disturbed, occurs_snoc]

/-- The state after `calls`, of whose items `m` have been dequeued. -/
structure Tracks (s : State α) (calls : List (Op α)) (m : Nat) : Prop where
  contains : Contains s (enqueued calls) m
  queue : after [] calls = (enqueued calls).drop m
  aligned : ¬ Spoiled calls → Aligned s m
  ahead : Spoiled calls → calls.length < 2 ^ 63 → Ahead s m calls.length
  disturbed : Disturbed calls ↔ Spoiled calls ∧ m < (enqueued calls).length

theorem tracks_init : Tracks (State.init : State α) [] 0 where
  contains := {
    holds := {
      taken := Nat.le_refl _
      newRing := rfl
      full := Nat.le_refl _
      room := Nat.zero_le _
      tail := rfl
      next := fun _ hr => (if_pos (Nat.le_zero.mp hr)).symm
      head_le := Nat.le_refl _
      behind := Nat.le_refl _
      ahead := Nat.zero_le _
      heads := fun _ _ _ => rfl
      val := fun _ _ _ _ => (if_neg (fun h => Nat.not_lt_zero _ h.2)).symm
      idx := fun _ _ _ => rfl }
    items := rfl
    used := .inl rfl }
  queue := rfl
  aligned _ := .inl rfl
  ahead h := absurd h occurs_nil
  disturbed := ⟨fun h => absurd h occurs_nil, fun h => absurd h.1 occurs_nil⟩

theorem Tracks.enqueue (ht : Tracks s calls m) (item : α) (hfuel : 2 ≤ fuel) (clock : Nat → Nat) :
    ∃ s', call clock fuel s (.enqueue item) = some (s', .enqueued)
      ∧ Tracks s' (calls ++ [.enqueue item]) m := by
  obtain ⟨fuel, rfl⟩ := Nat.exists_eq_add_of_le' hfuel
  obtain ⟨s', hcall, hc, hheadRing, hhead⟩ := ht.contains.enqueue item clock fuel
  have htaken := ht.contains.holds.taken
  refine ⟨s', hcall, ?_, ?_, ?_, ?_, ?_⟩
  · rw [enqueued_enqueue]
    exact hc
  · rw [after_snoc, enqueued_enqueue, List.drop_append_of_le_length htaken, ht.queue]
    rfl
  · rw [spoiled_enqueue]
    intro hs
    unfold Aligned
    rw [hheadRing, hhead]
    exact ht.aligned hs
  · rw [spoiled_enqueue, List.length_append]
    intro hs hlt
    obtain ⟨hring, h, heq, hpast, hle⟩ := ht.ahead hs (by omega)
    refine ⟨?_, h, ?_, ?_, by omega⟩
    · rw [hheadRing]
      exact hring
    · rw [hheadRing, hhead, heq]
    · rw [hheadRing]
      exact hpast
  · rw [disturbed_enqueue, spoiled_enqueue, ht.disturbed, enqueued_enqueue, List.length_append]
    constructor
    · rintro (⟨hs, hlt⟩ | hs)
      · exact ⟨hs, Nat.lt_succ_of_lt hlt⟩
      · exact ⟨hs, Nat.lt_succ_of_le htaken⟩
    · exact fun h => .inr h.1

/-- On an empty queue, a slot is lost unless the last ring is used up. -/
theorem Contains.spoils_iff (hc : Contains s (enqueued calls) (enqueued calls).length)
    (hlast : s.headRing = s.tailRing) (hafter : after [] calls = []) :
    Spoils calls ↔ (enqueued calls).length ≠ 1024 * (s.headRing + 1) := by
  have hfull := hc.holds.full
  have hroom := hc.holds.room
  have hused := hc.used
  rw [Spoils, ← List.length_eq_zero_iff (l := enqueued calls), and_iff_right hafter, hlast]
  unfold ringSize
  omega

theorem Tracks.queue_cons (ht : Tracks s calls m) (hlt : m < (enqueued calls).length) :
    after [] calls = (enqueued calls)[m] :: (enqueued calls).drop (m + 1) := by
  rw [ht.queue, List.drop_eq_getElem_cons hlt]

theorem Tracks.dequeue_cons (ht : Tracks s calls m) (hd : ¬ Disturbed calls)
    (hlt : m < (enqueued calls).length) (hfuel : 100 ≤ fuel) (clock : Nat → Nat) :
    ∃ s', call clock fuel s .dequeue = some (s', .dequeued true (some (enqueued calls)[m]))
      ∧ Tracks s' (calls ++ [.dequeue]) (m + 1) := by
  have hs : ¬ Spoiled calls := fun hs => hd (ht.disturbed.mpr ⟨hs, hlt⟩)
  have hafter := ht.queue_cons hlt
  have hspoils : ¬ Spoils calls := fun h => by
    rw [Spoils, hafter] at h
    exact List.cons_ne_nil _ _ h.1
  have hs' : ¬ Spoiled (calls ++ [.dequeue]) := by
    rw [spoiled_dequeue]
    exact not_or_intro hs hspoils
  obtain ⟨s', hcall, hc, ha⟩ := ht.contains.dequeue_cons (ht.aligned hs) hlt hfuel clock
  refine ⟨s', hcall, ?_, ?_, fun _ => ha, fun h => absurd h hs', ?_⟩
  · rw [enqueued_dequeue]
    exact hc
  · rw [after_snoc, hafter, enqueued_dequeue]
    rfl
  · rw [disturbed_dequeue]
    exact ⟨fun h => absurd h hd, fun h => absurd h.1 hs'⟩

theorem Tracks.dequeue_nil (ht : Tracks s calls (enqueued calls).length) (hd : ¬ Disturbed calls)
    (hfuel : 100 ≤ fuel) (clock : Nat → Nat) :
    ∃ s', call clock fuel s .dequeue = some (s', .dequeued false none)
      ∧ Tracks s' (calls ++ [.dequeue]) (enqueued calls).length := by
  have hc := ht.contains
  have hafter : after [] calls = [] := by
    rw [ht.queue, List.drop_length]
  obtain ⟨s', hcall, hc', hlast, hheadRing, hhead⟩ := hc.dequeue_nil hfuel clock
  refine ⟨s', hcall, ?_, ?_, ?_, ?_, ?_⟩
  · rw [enqueued_dequeue]
    exact hc'
  · rw [after_snoc, hafter, enqueued_dequeue, List.drop_length]
    rfl
  · rw [spoiled_dequeue, hc.spoils_iff hlast hafter, not_or, not_not]
    intro hs
    right
    rw [hheadRing]
    exact hs.2
  · rw [spoiled_dequeue, hc.spoils_iff hlast hafter, List.length_append, List.length_singleton]
    intro hs hlength
    have hsucc : ∀ {h : Nat}, (s.rings s.headRing).head = h → h ≤ calls.length →
        (s'.rings s.headRing).head = (h + 1 : Nat) := fun heq hle => by
      rw [hhead, heq]
      exact succ64_natCast (by omega)
    by_cases hs₀ : Spoiled calls
    · obtain ⟨hring, h, heq, hpast, hle⟩ := ht.ahead hs₀ (by omega)
      exact ⟨hheadRing ▸ hring, h + 1, hheadRing ▸ hsucc heq hle, by omega, Nat.succ_le_succ hle⟩
    · -- The head was where it should be, and goes one too far.
      have hring := hs.resolve_left hs₀
      have heq := (ht.aligned hs₀).resolve_right hring
      have hle := length_enqueued_le calls
      have hahead := hc.holds.ahead
      exact ⟨by omega, _, hheadRing ▸ hsucc heq (by omega), by omega, by omega⟩
  · rw [disturbed_dequeue, enqueued_dequeue]
    exact ⟨fun h => absurd h hd, fun h => absurd h.2 (Nat.lt_irrefl _)⟩

/-- **A dequeue does what is asked of it**, unless an enqueue was made after a slot was lost. -/
theorem Tracks.dequeue (ht : Tracks s calls m) (hd : ¬ Disturbed calls) (hfuel : 100 ≤ fuel)
    (clock : Nat → Nat) :
    ∃ s' m', call clock fuel s .dequeue = some (s', (apply .dequeue (after [] calls)).1)
      ∧ Tracks s' (calls ++ [.dequeue]) m' := by
  rcases Nat.lt_or_ge m (enqueued calls).length with hlt | hge
  · obtain ⟨s', hcall, ht'⟩ := ht.dequeue_cons hd hlt hfuel clock
    refine ⟨s', m + 1, ?_, ht'⟩
    rw [ht.queue_cons hlt]
    exact hcall
  · obtain rfl : m = (enqueued calls).length := Nat.le_antisymm ht.contains.holds.taken hge
    obtain ⟨s', hcall, ht'⟩ := ht.dequeue_nil hd hfuel clock
    refine ⟨s', _, ?_, ht'⟩
    rw [ht.queue, List.drop_length]
    exact hcall

/-- **A dequeue goes wrong** when an enqueue was made after a slot was lost. -/
theorem Tracks.dequeue_ne (ht : Tracks s calls m) (hd : Disturbed calls)
    (hlength : calls.length < 2 ^ 63) (hnodup : (enqueued calls).Nodup) (hfuel : 100 ≤ fuel)
    (clock : Nat → Nat) :
    ∃ s' res, call clock fuel s .dequeue = some (s', res)
      ∧ res ≠ (apply .dequeue (after [] calls)).1 := by
  obtain ⟨hs, hlt⟩ := ht.disturbed.mp hd
  obtain ⟨s', res, hcall, hres⟩ := ht.contains.dequeue_ahead (ht.ahead hs hlength) hfuel clock
  refine ⟨s', res, hcall, ?_⟩
  rw [ht.queue_cons hlt]
  rcases hres with rfl | ⟨j, hj, hne, rfl⟩
  · exact nofun
  · rintro heq
    have hitem : (enqueued calls)[j] = (enqueued calls)[m] :=
      Option.some.inj (Res.dequeued.inj heq).2
    exact hne ((List.Nodup.getElem_inj_iff hnodup).mp hitem)

theorem Tracks.step {op : Op α} (ht : Tracks s calls m) (hop : ¬ Fails calls op)
    (hfuel : 100 ≤ fuel) (clock : Nat → Nat) :
    ∃ s' m', call clock fuel s op = some (s', (apply op (after [] calls)).1)
      ∧ Tracks s' (calls ++ [op]) m' := by
  cases op with
  | enqueue item =>
      obtain ⟨s', hcall, ht'⟩ := ht.enqueue item (Nat.le_trans (by decide) hfuel) clock
      exact ⟨s', m, hcall, ht'⟩
  | dequeue => exact ht.dequeue (fun hd => hop ⟨rfl, hd⟩) hfuel clock

theorem run_cons_eq_some {op : Op α} {s' : State α} {res : Res α} {rest : List (Res α)} :
    run clock fuel (op :: ops) s = some (s', res :: rest)
      ↔ ∃ s₁, call clock fuel s op = some (s₁, res) ∧ run clock fuel ops s₁ = some (s', rest) := by
  constructor
  · intro h
    obtain ⟨⟨s₁, _⟩, hcall, h⟩ := Option.bind_eq_some_iff.mp h
    obtain ⟨⟨_, _⟩, hrun, h⟩ := Option.bind_eq_some_iff.mp h
    cases h
    exact ⟨s₁, hcall, hrun⟩
  · rintro ⟨s₁, hcall, hrun⟩
    rw [run, hcall]
    simp only [Option.bind_eq_bind, Option.bind_some, hrun]
    rfl

/-- **Calls made one after another**, from a state where others have been made. -/
theorem Tracks.answers (ht : Tracks s calls m) (hfuel : 100 ≤ fuel)
    (hops : ¬ Occurs (fun before => Fails (calls ++ before)) ops) :
    ∃ s', run clock fuel ops s = some (s', results (after [] calls) ops) := by
  induction ops generalizing s calls m with
  | nil => exact ⟨s, rfl⟩
  | cons op ops ih =>
      rw [occurs_append_cons, not_or] at hops
      obtain ⟨s₁, m', hcall, ht'⟩ := ht.step hops.1 hfuel clock
      obtain ⟨s', hrun⟩ := ih ht' hops.2
      rw [after_snoc] at hrun
      exact ⟨s', run_cons_eq_some.mpr ⟨s₁, hcall, hrun⟩⟩

theorem Tracks.not_answers (ht : Tracks s calls m) (hfuel : 100 ≤ fuel)
    (hlength : (calls ++ ops).length < 2 ^ 63) (hnodup : (enqueued (calls ++ ops)).Nodup)
    (hops : Occurs (fun before => Fails (calls ++ before)) ops) (s' : State α) :
    run clock fuel ops s ≠ some (s', results (after [] calls) ops) := by
  induction ops generalizing s calls m with
  | nil => exact absurd hops occurs_nil
  | cons op ops ih =>
      intro hrun
      obtain ⟨s₁, hcall, hrun⟩ := run_cons_eq_some.mp hrun
      by_cases hop : Fails calls op
      · obtain ⟨rfl, hd⟩ := hop
        have hnodup : (enqueued calls).Nodup := by
          rw [enqueued, List.filterMap_append] at hnodup
          exact List.Nodup.of_append_left hnodup
        rw [List.length_append] at hlength
        obtain ⟨s₂, res, hcall₂, hne⟩ := ht.dequeue_ne hd (by omega) hnodup hfuel clock
        rw [hcall] at hcall₂
        exact hne (Prod.mk.inj (Option.some.inj hcall₂)).2.symm
      · obtain ⟨s₂, m', hcall₂, ht'⟩ := ht.step hop hfuel clock
        rw [hcall] at hcall₂
        obtain ⟨rfl, -⟩ := Prod.mk.inj (Option.some.inj hcall₂)
        rw [occurs_append_cons] at hops
        rw [List.append_cons] at hlength hnodup
        rw [← after_snoc] at hrun
        exact ih ht' hlength hnodup (hops.resolve_left hop) hrun

/-- Calls made one after another all return, and as those of a FIFO list do. -/
def ActsAsFifo (clock : Nat → Nat) (calls : List (Op α)) : Prop :=
  ∃ least, ∀ fuel ≥ least, ∃ s, run clock fuel calls State.init = some (s, results [] calls)

theorem actsAsFifo_of_undisturbed (h : Undisturbed calls) : ActsAsFifo clock calls :=
  ⟨100, fun _ hfuel => tracks_init.answers hfuel h⟩

theorem undisturbed_of_actsAsFifo (hlength : calls.length < 2 ^ 63)
    (hnodup : (enqueued calls).Nodup) (h : ActsAsFifo clock calls) : Undisturbed calls := by
  intro hops
  obtain ⟨least, hruns⟩ := h
  obtain ⟨s, hrun⟩ := hruns (max least 100) (Nat.le_max_left ..)
  exact tracks_init.not_answers (Nat.le_max_right ..) hlength hnodup hops s hrun

/-- **The queue, used by one thread, is a FIFO list as long as it is left undisturbed**; and if the
items can be told apart and no index has come round, only then. -/
theorem actsAsFifo (clock : Nat → Nat) (calls : List (Op α)) :
    (Undisturbed calls → ActsAsFifo clock calls)
      ∧ (calls.length < 2 ^ 63 → (enqueued calls).Nodup → ActsAsFifo clock calls →
        Undisturbed calls) :=
  ⟨actsAsFifo_of_undisturbed, undisturbed_of_actsAsFifo⟩

theorem actsAsFifo_two :
    ActsAsFifo (fun n => n) [.enqueue 1, .enqueue 2, .dequeue, .dequeue, .dequeue] :=
  (actsAsFifo _ _).1 (by decide)

/-- An item is enqueued behind the head. -/
theorem not_actsAsFifo : ¬ ActsAsFifo (fun n => n) [.dequeue, .enqueue 7, .dequeue] := by
  intro h
  have hundisturbed := undisturbed_of_actsAsFifo (by decide) (by decide) h
  revert hundisturbed
  decide

end QueueFairness.LCRQ
