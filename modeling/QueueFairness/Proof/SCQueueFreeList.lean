import Mathlib.Algebra.BigOperators.Group.Finset.Piecewise
import Mathlib.Algebra.Order.BigOperators.Group.Finset
import QueueFairness.Proof.SCQueue

/-!
# The scalable circular queue as a free list

A ring that is full at first holds every index below `half` once. When every thread puts back only
what it has taken, an index has one holder at a time, and none while it is in the ring.
-/

namespace QueueFairness.SCQueue

open Interleaving

variable {P : Params} {r : Ring P} {c : Config (Ring P) (Local P) (Event P)} {t u : Tid} {a : Nat}

/-- Who has taken which index. -/
def takenOf : Event P → Option (Tid × Nat)
  | .take t a _ => some (t, a.toNat)
  | _ => none

/-- Who has called for which index to be put in. -/
def releasedOf : Event P → Option (Tid × Nat)
  | .call t (.enqueue a _) => some (t, a.toNat)
  | _ => none

/-- Who has put which index in. -/
def putOf : Event P → Option (Tid × Nat)
  | .deposit t a _ => some (t, a.toNat)
  | _ => none

/-- How often thread `t` appears with the index `a`. -/
def tally (of : Event P → Option (Tid × Nat)) (h : List (Event P)) (t : Tid) (a : Nat) : Nat :=
  (h.filterMap of).count (t, a)

/-- Thread `t` has taken the index and not released it since. -/
def HasIndex (h : List (Event P)) (t : Tid) (a : Nat) : Prop :=
  tally releasedOf h t a < tally takenOf h t a

/-- Every thread puts back only what it has, and the tickets leave a word its sign. -/
structure PutsBack (c : Config (Ring P) (Local P) (Event P)) (t : Tid) (i : Input P) : Prop where
  head : c.shared.head.toNat < bound P
  tail : c.shared.tail.toNat < bound P
  has : ∀ {eidx nonempty}, c.locals t = .idle → i.call = .enqueue eidx nonempty →
    HasIndex c.history t eidx.toNat

theorem tally_append (of : Event P → Option (Tid × Nat)) (h es : List (Event P)) (t : Tid)
    (a : Nat) : tally of (h ++ es) t a = tally of h t a + tally of es t a := by
  rw [tally, List.filterMap_append, List.count_append, tally, tally]

@[simp] theorem tally_nil (of : Event P → Option (Tid × Nat)) (t : Tid) (a : Nat) :
    tally of [] t a = 0 := rfl

@[simp] theorem tally_singleton (of : Event P → Option (Tid × Nat)) (e : Event P) (t : Tid)
    (a : Nat) : tally of [e] t a = if of e = some (t, a) then 1 else 0 := by
  cases he : of e with
  | none => simp [tally, he]
  | some p => simp [tally, he, List.count_singleton]

/-- The whole is what the threads have, added up. -/
theorem count_eq_sum {l : List (Tid × Nat)} {threads : Finset Tid}
    (hthreads : ∀ p ∈ l, p.1 ∈ threads) (a : Nat) :
    (l.map Prod.snd).count a = ∑ t ∈ threads, l.count (t, a) := by
  induction l with
  | nil => simp
  | cons p l ih =>
      obtain ⟨u, b⟩ := p
      have hu : u ∈ threads := hthreads _ List.mem_cons_self
      have hrest := ih fun p hp => hthreads p (List.mem_cons_of_mem _ hp)
      have hone : ∀ t, ((u, b) :: l).count (t, a)
          = l.count (t, a) + if u = t then if b = a then 1 else 0 else 0 := fun t => by
        rw [List.count_cons]
        by_cases hut : u = t <;> by_cases hba : b = a <;> simp [hut, hba]
      rw [List.map_cons, List.count_cons, hrest, Finset.sum_congr rfl fun t _ => hone t,
        Finset.sum_add_distrib, Finset.sum_ite_eq, if_pos hu]
      by_cases hba : b = a <;> simp [hba]

/-! ### Each thread for itself -/

/-- Thread `t` is about to put in the index `a`. -/
def pending (a : Nat) : Local P → Nat
  | .enqueue eidx _ l =>
      match l with
      | .loadThreshold | .storeThreshold => 0
      | _ => if (eidx ^^^ (n P - 1)).toNat = a then 1 else 0
  | _ => 0

/-- The thread an event is about. -/
def Event.thread : Event P → Tid
  | .call t _ | .drawTail t _ | .drawHead t _ | .deposit t _ _ | .take t _ _ | .leave t _
  | .setThreshold t | .enqueued t | .dequeued t _ => t

theorem pending_retry (a : Nat) (eidx : P.Atomic) (nonempty : Bool) (tail entry : P.Atomic) :
    pending a (.enqueue eidx nonempty (.retry tail entry))
      = if (eidx ^^^ (n P - 1)).toNat = a then 1 else 0 := by
  rw [Enq.retry]
  by_cases hcmp : cmp (ecycle entry) (cycleOf tail) < 0
  · rw [if_pos hcmp]
    by_cases hsafe : entry = ecycle entry
    · rw [if_pos hsafe]
      rfl
    · rw [if_neg hsafe]
      by_cases hmarked : entry = ecycle entry ^^^ n P
      · rw [if_pos hmarked]
        rfl
      · rw [if_neg hmarked]
        rfl
  · rw [if_neg hcmp]
    rfl

/-- A step of `lfring_enqueue`. -/
theorem enqueue_tally (t : Tid) (spurious : Bool) (eidx : P.Atomic) (nonempty : Bool) (s : Ring P)
    (l : Enq P) (a : Nat) :
    let res := enqueueStep t spurious eidx nonempty s l
    (∀ e ∈ res.2.2, e.thread = t) ∧ tally releasedOf res.2.2 t a = 0
      ∧ tally putOf res.2.2 t a + (res.2.1.elim (fun l' => pending a (.enqueue eidx nonempty l'))
        fun _ => 0) = pending a (.enqueue eidx nonempty l) := by
  cases l with
  | fetchAdd => simp [enqueueStep, Event.thread, releasedOf, putOf, pending]
  | loadEntry tail =>
      simp only [enqueueStep, Sum.elim_inl, pending_retry]
      simp [pending]
  | loadHead tail entry =>
      simp only [enqueueStep]
      split <;> simp [pending]
  | cas tail entry =>
      simp only [enqueueStep]
      split
      · have hput : tally putOf [.deposit t (eidx ^^^ (n P - 1)) tail] t a
            = if (eidx ^^^ (n P - 1)).toNat = a then 1 else 0 := by
          simp [putOf]
        rw [hput]
        cases nonempty <;> simp [Event.thread, releasedOf, pending]
      · simp only [Sum.elim_inl, pending_retry]
        simp [pending]
  | loadThreshold =>
      simp only [enqueueStep]
      split <;> simp [pending]
  | storeThreshold => simp [enqueueStep, Event.thread, releasedOf, putOf, pending]

theorem goOn_tally (t : Tid) (nonempty : Bool) (head : P.Atomic) (o : Option (Deq P)) (a : Nat) :
    let es := (Deq.goOn t nonempty head o).2
    (∀ e ∈ es, e.thread = t) ∧ tally releasedOf es t a = 0 ∧ tally putOf es t a = 0 := by
  cases o <;> simp [Deq.goOn, Event.thread, releasedOf, putOf]

theorem dequeue_tally (t : Tid) (spurious nonempty : Bool) (s : Ring P) (l : Deq P) (a : Nat) :
    let es := (dequeueStep t spurious nonempty s l).2.2
    (∀ e ∈ es, e.thread = t) ∧ tally releasedOf es t a = 0 ∧ tally putOf es t a = 0 := by
  cases l with
  | loadEntry head attempt => exact goOn_tally ..
  | cas head entry entryNew attempt =>
      simp only [dequeueStep]
      split <;> exact goOn_tally ..
  | catchup tail head =>
      simp only [dequeueStep]
      split <;> simp
  | _ => simp [dequeueStep, Event.thread, releasedOf, putOf]

/-- A step of a thread is one of its own, and what is put in was pending. -/
theorem step_tally (t : Tid) (i : Input P) (s : Ring P) (l : Local P) (a : Nat) :
    let res := step t i s l
    (∀ e ∈ res.2.2, e.thread = t)
      ∧ tally putOf res.2.2 t a + pending a res.2.1
        = tally releasedOf res.2.2 t a + pending a l := by
  cases l with
  | idle =>
      cases hcall : i.call with
      | enqueue eidx nonempty =>
          simp only [step, start, hcall, pending, flip_flip]
          simp [Event.thread, releasedOf, putOf]
      | dequeue nonempty =>
          simp [step, start, hcall, Event.thread, releasedOf, putOf, pending]
  | enqueue eidx nonempty le =>
      obtain ⟨hthread, hreleased, hput⟩ := enqueue_tally t i.spurious eidx nonempty s le a
      simp only [step]
      split
      · rename_i le' hle'
        rw [hle', Sum.elim_inl] at hput
        exact ⟨hthread, by rw [hreleased, Nat.zero_add, hput]⟩
      · rename_i hdone
        rw [hdone, Sum.elim_inr] at hput
        have hlast : tally putOf [(Event.enqueued t : Event P)] t a = 0
            ∧ tally releasedOf [(Event.enqueued t : Event P)] t a = 0 := by
          simp [putOf, releasedOf]
        refine ⟨fun e he => ?_, ?_⟩
        · rcases List.mem_append.mp he with he | he
          · exact hthread e he
          · rw [List.mem_singleton.mp he]
            rfl
        · rw [tally_append, tally_append, hreleased, hlast.1, hlast.2, ← hput]
          simp [pending]
  | dequeue nonempty ld =>
      obtain ⟨hthread, hreleased, hput⟩ := dequeue_tally t i.spurious nonempty s ld a
      simp only [step]
      split
      · exact ⟨hthread, by rw [hreleased, hput]; rfl⟩
      · refine ⟨fun e he => ?_, ?_⟩
        · rcases List.mem_append.mp he with he | he
          · exact hthread e he
          · rw [List.mem_singleton.mp he]
            rfl
        · rw [tally_append, tally_append, hreleased, hput]
          rfl

/-- The events of other threads do not count. -/
theorem tally_eq_zero {of : Event P → Option (Tid × Nat)}
    (hof : ∀ e t a, of e = some (t, a) → e.thread = t) {es : List (Event P)}
    (hes : ∀ e ∈ es, e.thread = u) (hne : t ≠ u) (a : Nat) : tally of es t a = 0 := by
  refine List.count_eq_zero.mpr fun hmem => ?_
  obtain ⟨e, he, heq⟩ := List.mem_filterMap.mp hmem
  exact hne ((hof e t a heq).symm.trans (hes e he))

theorem thread_of_putOf (e : Event P) (t : Tid) (a : Nat) (h : putOf e = some (t, a)) :
    e.thread = t := by
  cases e <;> simp_all [putOf, Event.thread]

theorem thread_of_releasedOf (e : Event P) (t : Tid) (a : Nat) (h : releasedOf e = some (t, a)) :
    e.thread = t := by
  cases e with
  | call u call => cases call <;> simp_all [releasedOf, Event.thread]
  | _ => cases h

theorem thread_of_takenOf (e : Event P) (t : Tid) (a : Nat) (h : takenOf e = some (t, a)) :
    e.thread = t := by
  cases e <;> simp_all [takenOf, Event.thread]

/-! ### All threads together -/

/-- What has been put in, and what is about to be, has been released. -/
theorem Reach.put_eq {ok : Config (Ring P) (Local P) (Event P) → Tid → Input P → Prop}
    (h : (program r).Reach ok c) (t : Tid) (a : Nat) :
    tally putOf c.history t a + pending a (c.locals t) = tally releasedOf c.history t a := by
  induction h with
  | init => rfl
  | @step c _ u i _ _ hnext ih =>
      obtain ⟨g, l, es, hstep, rfl⟩ := Program.next_eq_some hnext
      have hres : SCQueue.step u i c.shared (c.locals u) = (g, l, es) := Option.some.inj hstep
      have hstep := fun a => step_tally u i c.shared (c.locals u) a
      rw [hres] at hstep
      rw [tally_append, tally_append]
      by_cases htu : t = u
      · subst htu
        have heq := (hstep a).2
        simp only [Function.update_self] at heq ⊢
        omega
      · rw [tally_eq_zero thread_of_putOf (hstep a).1 htu,
          tally_eq_zero thread_of_releasedOf (hstep a).1 htu]
        simpa [htu] using ih

/-- Only a call releases. -/
theorem step_released (t : Tid) (i : Input P) (s : Ring P) (l : Local P) (a : Nat) :
    tally releasedOf (step t i s l).2.2 t a = 0
      ∨ tally releasedOf (step t i s l).2.2 t a = 1 ∧ l = .idle
        ∧ ∃ eidx nonempty, i.call = .enqueue eidx nonempty ∧ eidx.toNat = a := by
  cases l with
  | idle =>
      cases hcall : i.call with
      | dequeue nonempty => exact .inl (by simp [step, hcall, releasedOf])
      | enqueue eidx nonempty =>
          by_cases ha : eidx.toNat = a
          · exact .inr ⟨by simp [step, hcall, releasedOf, ha], rfl, eidx, nonempty, rfl, ha⟩
          · exact .inl (by simp [step, hcall, releasedOf, ha])
  | enqueue eidx nonempty le =>
      have hreleased := (enqueue_tally t i.spurious eidx nonempty s le a).2.1
      left
      simp only [step]
      split
      · exact hreleased
      · rw [tally_append, hreleased, tally_singleton]
        rfl
  | dequeue nonempty ld =>
      have hreleased := (dequeue_tally t i.spurious nonempty s ld a).2.1
      left
      simp only [step]
      split
      · exact hreleased
      · rw [tally_append, hreleased, tally_singleton]
        rfl

/-- Nothing is released that was not taken. -/
theorem Reach.released_le (h : (program r).Reach PutsBack c) (t : Tid) (a : Nat) :
    tally releasedOf c.history t a ≤ tally takenOf c.history t a := by
  induction h with
  | init => exact le_refl _
  | @step c _ u i _ hok hnext ih =>
      obtain ⟨g, l, es, hstep, rfl⟩ := Program.next_eq_some hnext
      have hres : SCQueue.step u i c.shared (c.locals u) = (g, l, es) := Option.some.inj hstep
      rw [tally_append, tally_append]
      by_cases htu : t = u
      · subst htu
        have hreleased := step_released t i c.shared (c.locals t) a
        simp only [hres] at hreleased
        rcases hreleased with hzero | ⟨hone, hidle, eidx, nonempty, hcall, rfl⟩
        · omega
        · have hhas :
              tally releasedOf c.history t eidx.toNat < tally takenOf c.history t eidx.toNat :=
            hok.has hidle hcall
          omega
      · have hthread := (step_tally u i c.shared (c.locals u) a).1
        rw [hres] at hthread
        rw [tally_eq_zero thread_of_releasedOf hthread htu]
        omega

/-- What a thread has of an index or is about to put in. -/
def share (c : Config (Ring P) (Local P) (Event P)) (a : Nat) (t : Tid) : Nat :=
  tally takenOf c.history t a - tally releasedOf c.history t a + pending a (c.locals t)

def threadsOf (h : List (Event P)) : Finset Tid := (h.map Event.thread).toFinset

theorem tally_eq_sum {of : Event P → Option (Tid × Nat)}
    (hof : ∀ e t a, of e = some (t, a) → e.thread = t) (h : List (Event P)) (a : Nat) :
    ((h.filterMap of).map Prod.snd).count a = ∑ t ∈ threadsOf h, tally of h t a := by
  refine count_eq_sum (fun p hp => ?_) a
  obtain ⟨e, he, heq⟩ := List.mem_filterMap.mp hp
  exact List.mem_toFinset.mpr (List.mem_map.mpr ⟨e, he, hof e p.1 p.2 heq⟩)

/-- How often the ring holds the index. -/
def inRing (s : Ring P) (a : Nat) : Nat := ((contents s).map Prod.snd).count a

theorem map_numbered (first : Nat) (xs : List Nat) : (numbered first xs).map Prod.snd = xs := by
  refine List.ext_getElem (by simp [numbered]) fun i _ _ => ?_
  simp [numbered]

/-- **The books balance.** What the ring held of an index at first is what it holds now and what the
threads have of it. -/
theorem Reach.balance {xs : List Nat} (hr : Initial P r xs) (hrange : (program r).Reach InRange c)
    (h : (program r).Reach PutsBack c) (a : Nat) :
    xs.count a = ∑ t ∈ threadsOf c.history, share c a t + inRing c.shared a := by
  have haccount := congrArg (fun m : Multiset (Nat × Nat) => (m.map Prod.snd).count a)
    (Reach.account hr hrange)
  have hputs : (c.history.filterMap depositOf).map Prod.snd
      = (c.history.filterMap putOf).map Prod.snd := by
    rw [List.map_filterMap, List.map_filterMap]
    refine List.filterMap_congr fun e _ => ?_
    cases e <;> rfl
  have htakes : (c.history.filterMap takeOf).map Prod.snd
      = (c.history.filterMap takenOf).map Prod.snd := by
    rw [List.map_filterMap, List.map_filterMap]
    refine List.filterMap_congr fun e _ => ?_
    cases e <;> rfl
  simp only [Multiset.map_add, Multiset.map_coe, Multiset.count_add, Multiset.coe_count,
    map_numbered, hputs, htakes, tally_eq_sum thread_of_putOf, tally_eq_sum thread_of_takenOf]
    at haccount
  have hshare : ∑ t ∈ threadsOf c.history, share c a t + ∑ t ∈ threadsOf c.history,
      tally putOf c.history t a = ∑ t ∈ threadsOf c.history, tally takenOf c.history t a := by
    rw [← Finset.sum_add_distrib]
    refine Finset.sum_congr rfl fun t _ => ?_
    have hput := Reach.put_eq h t a
    have hle := Reach.released_le h t a
    rw [share]
    omega
  rw [inRing]
  omega

/-! ### A full ring -/

/-- The indices of a full ring. -/
def indices (P : Params) : List Nat :=
  (List.range (half P).toNat).map fun i => (rawMap P (.ofNat _ i) P.order (half P)).toNat

/-- A full ring holds every index below `half` once. -/
theorem count_indices (a : Nat) : (indices P).count a = if a < (half P).toNat then 1 else 0 := by
  have horder : P.order < P.width := by have := P.order_lt; omega
  have hlt : ∀ b ∈ indices P, b < (half P).toNat := fun b hb => by
    obtain ⟨i, -, rfl⟩ := List.mem_map.mp hb
    rw [toNat_half]
    exact rawMap_lt _ P.min_le horder
  have hnodup : (indices P).Nodup := by
    refine List.Nodup.map_on (fun i hi j hj heq => ?_) List.nodup_range
    have hmod := (rawMap_eq_iff P.min_le horder).mp (BitVec.eq_of_toNat_eq heq)
    have hsmall :
        ∀ m ∈ List.range (half P).toNat, (BitVec.ofNat P.width m).toNat % 2 ^ P.order = m :=
      fun m hm => by
        have hm : m < 2 ^ P.order := toNat_half (P := P) ▸ List.mem_range.mp hm
        have hle : 2 ^ P.order ≤ slots P := Nat.pow_le_pow_right (by decide) (Nat.le_succ _)
        rw [toNat_ofNat (le_trans (le_of_lt hm) hle), Nat.mod_eq_of_lt hm]
    rwa [hsmall i hi, hsmall j hj] at hmod
  have hall : (indices P).toFinset = Finset.range (half P).toNat := by
    refine Finset.eq_of_subset_of_card_le (fun b hb => ?_) ?_
    · exact Finset.mem_range.mpr (hlt b (List.mem_toFinset.mp hb))
    · rw [List.toFinset_card_of_nodup hnodup, Finset.card_range, indices, List.length_map,
        List.length_range]
  have hmem : a ∈ indices P ↔ a < (half P).toNat := by
    rw [← List.mem_toFinset, hall, Finset.mem_range]
  rw [hnodup.count]
  exact if_congr hmem rfl rfl

/-- A thread that is not in the history has nothing. -/
theorem share_eq_zero {ok : Config (Ring P) (Local P) (Event P) → Tid → Input P → Prop}
    (h : (program r).Reach ok c) (ht : t ∉ threadsOf c.history) : share c a t = 0 := by
  have hnone : ∀ {of : Event P → Option (Tid × Nat)},
      (∀ e t a, of e = some (t, a) → e.thread = t) → tally of c.history t a = 0 := fun hof => by
    refine List.count_eq_zero.mpr fun hmem => ht ?_
    obtain ⟨e, he, heq⟩ := List.mem_filterMap.mp hmem
    exact List.mem_toFinset.mpr (List.mem_map.mpr ⟨e, he, hof e t a heq⟩)
  have hput := Reach.put_eq h t a
  rw [hnone thread_of_releasedOf] at hput
  rw [share, hnone thread_of_takenOf]
  omega

/-- The call of thread `t` is about to put in the index. -/
def PutsIn (c : Config (Ring P) (Local P) (Event P)) (t : Tid) (a : Nat) : Prop :=
  0 < pending a (c.locals t)

/-- The index is in the ring. -/
def InRing (s : Ring P) (a : Nat) : Prop := ∃ k, (k, a) ∈ contents s

theorem inRing_pos {s : Ring P} : 0 < inRing s a ↔ InRing s a := by
  rw [inRing, Multiset.count_pos, Multiset.mem_map]
  exact ⟨fun ⟨p, hp, heq⟩ => ⟨p.1, heq ▸ hp⟩, fun ⟨k, hk⟩ => ⟨_, hk, rfl⟩⟩

/-- A thread has its share of an index in hand or on its way in. -/
theorem share_pos : 0 < share c a t ↔ HasIndex c.history t a ∨ PutsIn c t a := by
  rw [share, HasIndex, PutsIn]
  omega

section Full

variable {array : Nat → P.Atomic}

/-- What becomes of an index that a full ring held. -/
theorem Reach.full_balance (hrange : (program (initFull array)).Reach InRange c)
    (h : (program (initFull array)).Reach PutsBack c) (a : Nat) :
    ∑ t ∈ threadsOf c.history, share c a t + inRing c.shared a
      = if a < (half P).toNat then 1 else 0 := by
  rw [← count_indices, ← Reach.balance (.full array) hrange h]
  rfl

/-- An index that someone has is below `half`, and so one that an entry can hold. -/
theorem Reach.lt_half (hrange : (program (initFull array)).Reach InRange c)
    (h : (program (initFull array)).Reach PutsBack c) (hpos : 0 < share c a t) :
    a < (half P).toNat := by
  have hmem : t ∈ threadsOf c.history := by
    by_contra ht
    rw [share_eq_zero h ht] at hpos
    exact lt_irrefl _ hpos
  have hle := Finset.single_le_sum (f := share c a) (fun _ _ => Nat.zero_le _) hmem
  have hbalance := Reach.full_balance hrange h a
  by_contra hge
  rw [if_neg hge] at hbalance
  omega

/-- Clients that put back what they have keep to the range. -/
theorem Reach.inRange (h : (program (initFull array)).Reach PutsBack c) :
    (program (initFull array)).Reach InRange c := by
  induction h with
  | init => exact .init
  | @step c _ t i hreach hok hnext ih =>
      refine .step ih ⟨hok.head, hok.tail, fun {eidx nonempty} hidle hcall => ?_⟩ hnext
      have hlt := Reach.lt_half ih hreach (share_pos.mpr (.inl (hok.has hidle hcall)))
      have hslots : slots P = 2 ^ P.order + 2 ^ P.order := by rw [slots, Nat.pow_succ, Nat.mul_two]
      have hpos : 0 < 2 ^ P.order := Nat.two_pow_pos _
      rw [toNat_half] at hlt
      omega

/-- **A free list.** In every run from a full ring whose threads put back only what they have taken,
every index below `half`, and no other, is in the ring, on its way in, or in the hands of a thread;
it is in one of these places only, and never with two threads. -/
theorem free_list (h : (program (initFull array)).Reach PutsBack c) (a : Nat) :
    (a < (half P).toNat ↔
        InRing c.shared a ∨ ∃ t, HasIndex c.history t a ∨ PutsIn c t a)
      ∧ (InRing c.shared a → ∀ t, ¬ HasIndex c.history t a ∧ ¬ PutsIn c t a)
      ∧ (∀ t u, HasIndex c.history t a ∨ PutsIn c t a → HasIndex c.history u a ∨ PutsIn c u a →
        t = u)
      ∧ ∀ t, ¬ (HasIndex c.history t a ∧ PutsIn c t a) := by
  have hbalance := Reach.full_balance (Reach.inRange h) h a
  have hmem : ∀ {t}, 0 < share c a t → t ∈ threadsOf c.history := fun {t} hpos => by
    by_contra ht
    rw [share_eq_zero h ht] at hpos
    exact lt_irrefl _ hpos
  have hle : ∀ t, share c a t + inRing c.shared a ≤ 1 := fun t => by
    rcases Nat.eq_zero_or_pos (share c a t) with hzero | hpos
    · split at hbalance <;> omega
    · have hsum := Finset.single_le_sum (f := share c a) (fun _ _ => Nat.zero_le _) (hmem hpos)
      split at hbalance <;> omega
  refine ⟨⟨fun hlt => ?_, fun hwhere => ?_⟩, fun hin t => ?_, fun t u ht hu => ?_, fun t ht => ?_⟩
  · rw [if_pos hlt] at hbalance
    rcases Nat.eq_zero_or_pos (inRing c.shared a) with hzero | hpos
    · rw [hzero, Nat.add_zero] at hbalance
      obtain ⟨t, -, ht⟩ := Finset.exists_ne_zero_of_sum_ne_zero
        (f := share c a) (by rw [hbalance]; exact Nat.one_ne_zero)
      exact .inr ⟨t, share_pos.mp (Nat.pos_of_ne_zero ht)⟩
    · exact .inl (inRing_pos.mp hpos)
  · rcases hwhere with hin | ⟨t, ht⟩
    · by_contra hge
      rw [if_neg hge] at hbalance
      have hpos := inRing_pos.mpr hin
      omega
    · exact Reach.lt_half (Reach.inRange h) h (share_pos.mpr ht)
  · have hpos := inRing_pos.mpr hin
    have hzero : ¬ 0 < share c a t := by
      have := hle t
      omega
    exact not_or.mp fun ht => hzero (share_pos.mpr ht)
  · by_contra hne
    have hpair := Finset.sum_le_sum_of_subset (f := share c a) (s := {t, u})
      (t := threadsOf c.history) fun v hv => by
        rcases Finset.mem_insert.mp hv with rfl | hv
        · exact hmem (share_pos.mpr ht)
        · exact Finset.mem_singleton.mp hv ▸ hmem (share_pos.mpr hu)
    rw [Finset.sum_pair hne] at hpair
    have htpos := share_pos.mpr ht
    have hupos := share_pos.mpr hu
    split at hbalance <;> omega
  · have hone := hle t
    rw [share] at hone
    obtain ⟨hhas, hput⟩ := ht
    rw [HasIndex] at hhas
    rw [PutsIn] at hput
    omega

end Full

/-! The ring of `tiny` in use as a free list: thread 1 takes the index 0, thread 0 the index 1, and
thread 1 puts its own back. -/

def putsBack (c : Config (Ring tiny) (Local tiny) (Event tiny)) (t : Tid) (i : Input tiny) : Bool :=
  decide (c.shared.head.toNat < bound tiny) && decide (c.shared.tail.toNat < bound tiny)
    && match i.call with
      | .enqueue eidx _ => decide (c.locals t ≠ .idle
          ∨ tally releasedOf c.history t eidx.toNat < tally takenOf c.history t eidx.toNat)
      | .dequeue _ => true

theorem PutsBack.of_check {c : Config (Ring tiny) (Local tiny) (Event tiny)} {i : Input tiny}
    (h : putsBack c t i = true) : PutsBack c t i := by
  rw [putsBack, Bool.and_eq_true, Bool.and_eq_true, decide_eq_true_iff, decide_eq_true_iff] at h
  refine ⟨h.1.1, h.1.2, fun hidle hcall => ?_⟩
  have hhas := h.2
  rw [hcall] at hhas
  exact (of_decide_eq_true hhas).resolve_left (not_not.mpr hidle)

def turns : List (Tid × Input tiny) :=
  List.replicate 5 (1, { call := .dequeue false })
    ++ List.replicate 5 (0, { call := .dequeue false })
    ++ List.replicate 3 (1, { call := .enqueue 0 true })

theorem free_list_turns : ∃ c,
    (program (initFull (P := tiny) fun _ => 0)).Reach PutsBack c
      ∧ PutsIn c 1 0 ∧ HasIndex c.history 0 1
      ∧ (0 < (half tiny).toNat ↔
        InRing c.shared 0 ∨ ∃ t, HasIndex c.history t 0 ∨ PutsIn c t 0) := by
  have hrun : ((program (initFull (P := tiny) fun _ => 0)).execIf 2 putsBack
      (program (initFull (P := tiny) fun _ => 0)).init turns).map
      (fun c => (pending 0 (c.locals 1), tally releasedOf c.history 0 1,
        tally takenOf c.history 0 1)) = some (1, 0, 1) := by
    decide +kernel
  obtain ⟨c, hexec, heq⟩ := Option.map_eq_some_iff.mp hrun
  obtain ⟨hpending, hrest⟩ := Prod.mk.inj heq
  obtain ⟨hreleased, htaken⟩ := Prod.mk.inj hrest
  have hreach : (program (initFull (P := tiny) fun _ => 0)).Reach PutsBack c :=
    Program.Reach.execIf (fun _ _ _ _ hcheck => .of_check hcheck) .init (fun _ _ => rfl) hexec
  refine ⟨c, hreach, ?_, ?_, (free_list hreach 0).1⟩
  · rw [PutsIn, hpending]
    exact Nat.one_pos
  · rw [HasIndex, hreleased, htaken]
    exact Nat.one_pos

end QueueFairness.SCQueue
