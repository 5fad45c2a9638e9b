import QueueFairness.Proof.FlatCombiningInvariant

/-!
# The steps of the flat combining queue

One lemma for each thing a step can do to the shared state: the global invariant survives it, and it
stays within what the other threads rely on. A step of a thread on its own slot and a step of the
holder of the lock on a published slot are the two shapes the second part takes.
-/

namespace QueueFairness.FlatCombiningQueue

open Interleaving AtomicQueue

variable {α : Type}

namespace Shared

variable (g : Shared α) (i : Nat) (o : Operation α)

@[simp] theorem setOperation_q : (g.setOperation i o).q = g.q := rfl
@[simp] theorem setOperation_lock : (g.setOperation i o).lock = g.lock := rfl
@[simp] theorem setOperation_clock : (g.setOperation i o).clock = g.clock := rfl
@[simp] theorem setOperation_log : (g.setOperation i o).log = g.log := rfl

@[simp]
theorem setOperation_self : (g.setOperation i o).operations i = o := by
  simp [setOperation]

@[simp]
theorem setOperation_of_ne {j : Nat} (hne : j ≠ i) :
    (g.setOperation i o).operations j = g.operations j := by
  simp [setOperation, hne]

end Shared

/-- What a step of thread `t` outside the lock leaves alone: everything but its own slot, its own
phase and stamps, and the clock. -/
structure OwnerStep (t : Tid) (w w' : W α) : Prop where
  opcode : codeAt w t = .done
  slots : ∀ i, i ≠ t → w'.shared.operations i = w.shared.operations i
    ∧ w'.ghost.abs.phase i = w.ghost.abs.phase i ∧ (obs w').inv i = (obs w).inv i
  popped : (obs w').popped = (obs w).popped
  lin : (obs w').lin = (obs w).lin
  items : (obs w').items = (obs w).items
  records : (obs w').records = (obs w).records
  q : w'.shared.q = w.shared.q
  served : w'.ghost.served = w.ghost.served
  lock : ∀ u, u ≠ t → (w'.shared.lock = some u ↔ w.shared.lock = some u)
  clock : w.shared.clock ≤ w'.shared.clock

theorem OwnerStep.rely {t u : Tid} {w w' : W α} (h : OwnerStep t w w') (hu : u ≠ t) :
    Rely u w w' where
  lock := h.lock u hu
  inv := (h.slots u hu).2.2
  own := fun _ => ⟨(h.slots u hu).1, (h.slots u hu).2.1, by rw [h.popped]⟩
  published := by
    intro hbusy op hphase
    have hcode : codeAt w' u = codeAt w u := by rw [codeAt, (h.slots u hu).1, codeAt]
    refine ⟨by rw [PhaseOf, (h.slots u hu).2.1]; exact hphase, fun hdone => ?_⟩
    exact absurd (hcode ▸ hdone) hbusy
  holder := by
    intro _
    refine ⟨h.q, h.served, fun i hbusy => ?_, h.lin, h.items, h.records, h.clock⟩
    have hi : i ≠ t := by
      rintro rfl
      exact hbusy h.opcode
    exact ⟨(h.slots i hi).1, (h.slots i hi).2.1, (h.slots i hi).2.2, by rw [h.popped]⟩

/-- What a step of the holder `t` of the lock at the published slot `i` leaves alone: every other
slot. At slot `i` the call stays what it is, and is answered when the opcode goes back to `Done`. -/
structure CombinerStep (t : Tid) (i : Nat) (w w' : W α) : Prop where
  held : w.shared.lock = some t
  lock : w'.shared.lock = w.shared.lock
  busy : codeAt w i ≠ .done
  slots : ∀ j, j ≠ i → w'.shared.operations j = w.shared.operations j
    ∧ w'.ghost.abs.phase j = w.ghost.abs.phase j ∧ (obs w').popped j = (obs w).popped j
  inv : (obs w').inv = (obs w).inv
  published : ∀ op, PhaseOf w i op → Waiting w' i op

theorem CombinerStep.rely {t u : Tid} {i : Nat} {w w' : W α} (h : CombinerStep t i w w')
    (hu : u ≠ t) : Rely u w w' where
  lock := by rw [h.lock]
  inv := by rw [h.inv]
  own := by
    intro hdone
    have hi : u ≠ i := by
      rintro rfl
      exact h.busy hdone
    exact h.slots u hi
  published := by
    intro hbusy op hphase
    by_cases hi : u = i
    · subst hi
      exact h.published op hphase
    · have hcode : codeAt w' u = codeAt w u := by rw [codeAt, (h.slots u hi).1, codeAt]
      refine ⟨by rw [PhaseOf, (h.slots u hi).2.1]; exact hphase, fun hdone => ?_⟩
      exact absurd (hcode ▸ hdone) hbusy
  holder := by
    intro hlock
    rw [h.held] at hlock
    exact absurd (Option.some.inj hlock).symm hu

/-- The combiner's own call is one of those it may serve. -/
theorem CombinerStep.waiting {t u : Tid} {i : Nat} {w w' : W α} (h : CombinerStep t i w w')
    {op : Op α} (hw : Waiting w u op) : Waiting w' u op := by
  by_cases hi : u = i
  · subst hi
    exact h.published op hw.phase
  · obtain ⟨hslot, hphase, hpopped⟩ := h.slots u hi
    refine ⟨by rw [PhaseOf, hphase]; exact hw.phase, fun hdone => ?_⟩
    have hans := hw.answered (by rw [codeAt, hslot] at hdone; exact hdone)
    unfold Answered
    rw [hslot, hphase, hpopped]
    exact hans

theorem CombinerStep.done_of_ne {t u : Tid} {i : Nat} {w w' : W α} (h : CombinerStep t i w w')
    (hi : u ≠ i) (hdone : codeAt w u = .done) : codeAt w' u = .done := by
  rw [codeAt, (h.slots u hi).1]
  exact hdone

/-! ### Steps of a thread on its own slot -/

section Owner

variable {x : Ghost α} {g : Shared α} {h : List (Event α)} {t : Tid}

/-- A call or a return: the atomic queue takes the same step. -/
theorem glob_phase {a : Act α} {p : Phase α} (hw : Glob ⟨x, g, h⟩)
    (hdone : (g.operations t).opcode = .done) (ha : ∀ o : Observer, o.see (.act a) = o)
    (hstep : Step x.abs a (x.abs.setPhase t p)) :
    Glob ⟨{ x with abs := x.abs.setPhase t p }, g, h ++ [.act a]⟩ where
  run := by simpa using hw.run.snoc hstep
  items := hw.items
  stamps := by simpa [obs, ha] using hw.stamps
  log u := by simpa [obs, ha] using hw.log u
  timely := by simpa [obs, ha] using hw.timely
  unlocked := hw.unlocked
  served := hw.served
  slots i hbusy hserved := by
    have hi : i ≠ t := by
      rintro rfl
      exact hbusy hdone
    simpa [obs, ha, codeAt, hi] using hw.slots i hbusy hserved

theorem ownerStep_phase {a : Act α} {p : Phase α} (hdone : (g.operations t).opcode = .done)
    (ha : ∀ o : Observer, o.see (.act a) = o) :
    OwnerStep t ⟨x, g, h⟩ ⟨{ x with abs := x.abs.setPhase t p }, g, h ++ [.act a]⟩ where
  opcode := hdone
  slots i hi := by simp [obs, ha, hi]
  popped := by simp [obs, ha]
  lin := by simp [obs, ha]
  items := by simp [obs, ha]
  records := by simp [obs, ha]
  q := rfl
  served := rfl
  lock _ _ := Iff.rfl
  clock := le_refl _

theorem glob_inv {ts : Nat} (hw : Glob ⟨x, g, h⟩) (hdone : (g.operations t).opcode = .done)
    (hts : g.clock ≤ ts) : Glob ⟨x, { g with clock := ts }, h ++ [.inv t ts]⟩ where
  run := by simpa using hw.run
  items := hw.items
  stamps := by simpa [obs, Observer.see] using hw.stamps
  log u := by simpa [obs, Observer.see] using hw.log u
  timely := by
    simp only [obs, observe_append_singleton]
    exact (hw.timely.tick hts).see_inv t
  unlocked := hw.unlocked
  served := hw.served
  slots i hbusy hserved := by
    have hi : i ≠ t := by
      rintro rfl
      exact hbusy hdone
    simpa [obs, Observer.see, codeAt, hi] using hw.slots i hbusy hserved

theorem ownerStep_inv {ts : Nat} (hdone : (g.operations t).opcode = .done) (hts : g.clock ≤ ts) :
    OwnerStep t ⟨x, g, h⟩ ⟨x, { g with clock := ts }, h ++ [.inv t ts]⟩ where
  opcode := hdone
  slots i hi := by simp [obs, Observer.see, hi]
  popped := by simp [obs, Observer.see]
  lin := by simp [obs, Observer.see]
  items := by simp [obs, Observer.see]
  records := by simp [obs, Observer.see]
  q := rfl
  served := rfl
  lock _ _ := Iff.rfl
  clock := hts

theorem glob_own {o : Operation α} (hw : Glob ⟨x, g, h⟩)
    (hdone : (g.operations t).opcode = .done) (ho : o.opcode = .done) :
    Glob ⟨x, g.setOperation t o, h⟩ where
  run := hw.run
  items := hw.items
  stamps := hw.stamps
  log := hw.log
  timely := hw.timely
  unlocked := hw.unlocked
  served i hserved := by
    have hi : i ≠ t := by
      rintro rfl
      exact hw.served i hserved hdone
    simpa [codeAt, hi] using hw.served i hserved
  slots i hbusy hserved := by
    have hi : i ≠ t := by
      rintro rfl
      simp [codeAt, ho] at hbusy
    simp only [codeAt, ne_eq, hi, not_false_eq_true, Shared.setOperation_of_ne] at hbusy ⊢
    exact hw.slots i hbusy hserved

theorem glob_publish {op : Op α} {o : Operation α} (hw : Glob ⟨x, g, h⟩)
    (hdone : (g.operations t).opcode = .done) (ho : o.opcode = opcodeOf op)
    (hphase : x.abs.phase t = .called op) (hreq : Request o ((observe h).inv t) op) :
    Glob ⟨x, g.setOperation t o, h⟩ where
  run := hw.run
  items := hw.items
  stamps := hw.stamps
  log := hw.log
  timely := hw.timely
  unlocked := hw.unlocked
  served i hserved := by
    have hi : i ≠ t := by
      rintro rfl
      exact hw.served i hserved hdone
    simpa [codeAt, hi] using hw.served i hserved
  slots i hbusy hserved := by
    by_cases hi : i = t
    · subst hi
      exact ⟨op, by simpa [codeAt] using ho, hphase, by simpa [obs] using hreq⟩
    · simp only [codeAt, ne_eq, hi, not_false_eq_true, Shared.setOperation_of_ne] at hbusy ⊢
      exact hw.slots i hbusy hserved

theorem ownerStep_own {o : Operation α} (hdone : (g.operations t).opcode = .done) :
    OwnerStep t ⟨x, g, h⟩ ⟨x, g.setOperation t o, h⟩ where
  opcode := hdone
  slots i hi := by simp [obs, hi]
  popped := rfl
  lin := rfl
  items := rfl
  records := rfl
  q := rfl
  served := rfl
  lock _ _ := Iff.rfl
  clock := le_refl _

theorem glob_logged {r : LogRecord} (hw : Glob ⟨x, g, h⟩)
    (hpopped : (observe h).popped t = some r) :
    Glob ⟨x, { g with log := Function.update g.log t (g.log t ++ [r]) }, h ++ [.logged t r]⟩ where
  run := by simpa using hw.run
  items := hw.items
  stamps := by simpa [obs, Observer.see] using hw.stamps
  log u := by
    by_cases hu : u = t
    · subst hu
      have := hw.log u
      simp_all [obs, Observer.see]
    · simpa [obs, Observer.see, hu] using hw.log u
  timely := by
    simp only [obs, observe_append_singleton]
    exact hw.timely.see_logged t r
  unlocked := hw.unlocked
  served := hw.served
  slots i hbusy hserved := by simpa [obs, Observer.see, codeAt] using hw.slots i hbusy hserved

theorem ownerStep_logged {r : LogRecord} (hdone : (g.operations t).opcode = .done) :
    OwnerStep t ⟨x, g, h⟩
      ⟨x, { g with log := Function.update g.log t (g.log t ++ [r]) }, h ++ [.logged t r]⟩ where
  opcode := hdone
  slots i hi := by simp [obs, Observer.see]
  popped := by simp [obs, Observer.see]
  lin := by simp [obs, Observer.see]
  items := by simp [obs, Observer.see]
  records := by simp [obs, Observer.see]
  q := rfl
  served := rfl
  lock _ _ := Iff.rfl
  clock := le_refl _

end Owner

/-! ### Taking and releasing the lock -/

section Lock

variable {x : Ghost α} {g : Shared α} {h : List (Event α)} {t : Tid}

theorem glob_lock {l : Option Tid} (hw : Glob ⟨x, g, h⟩) (hserved : x.served = none) :
    Glob ⟨x, { g with lock := l }, h⟩ :=
  { hw with unlocked := fun _ => hserved }

theorem rely_lock {l : Option Tid} {u : Tid}
    (hl : l = some u ↔ g.lock = some u) :
    Rely u ⟨x, g, h⟩ ⟨x, { g with lock := l }, h⟩ where
  lock := hl
  inv := rfl
  own _ := ⟨rfl, rfl, rfl⟩
  published hbusy _ hphase := ⟨hphase, fun hdone => absurd hdone hbusy⟩
  holder _ := ⟨rfl, rfl, fun _ _ => ⟨rfl, rfl, rfl, rfl⟩, rfl, rfl, rfl, le_refl _⟩

/-- Releasing the lock first is within what the others rely on. -/
theorem Rely.trans_lock {l : Option Tid} {u : Tid} {w' : W α}
    (hr : Rely u ⟨x, { g with lock := l }, h⟩ w') (hl : l ≠ some u ∧ g.lock ≠ some u) :
    Rely u ⟨x, g, h⟩ w' where
  lock := by
    rw [hr.lock]
    simp [hl.1, hl.2]
  inv := hr.inv
  own := hr.own
  published := hr.published
  holder hlock := absurd hlock hl.2

end Lock

/-! ### Steps of the combiner at a published slot -/

section Combiner

variable {x : Ghost α} {g : Shared α} {h : List (Event α)} {t : Tid} {i : Nat}

theorem glob_lin {ts : Nat} (hw : Glob ⟨x, g, h⟩) (hts : g.clock ≤ ts) :
    Glob ⟨x, { g with clock := ts }, h ++ [.lin i ts]⟩ where
  run := by simpa using hw.run
  items := hw.items
  stamps := by simpa [obs, Observer.see] using hw.stamps
  log u := by simpa [obs, Observer.see] using hw.log u
  timely := by
    simp only [obs, observe_append_singleton]
    exact (hw.timely.tick hts).see_lin i ts
  unlocked := hw.unlocked
  served := hw.served
  slots j hbusy hserved := by simpa [obs, Observer.see, codeAt] using hw.slots j hbusy hserved

theorem combinerStep_lin {ts : Nat} (hlock : g.lock = some t)
    (hbusy : (g.operations i).opcode ≠ .done) :
    CombinerStep t i ⟨x, g, h⟩ ⟨x, { g with clock := ts }, h ++ [.lin i ts]⟩ where
  held := hlock
  lock := rfl
  busy := hbusy
  slots j _ := by simp [obs, Observer.see]
  inv := by simp [obs, Observer.see]
  published _ hphase := ⟨hphase, fun hdone => absurd hdone hbusy⟩

/-- A stamp just read is later than all stamps in use. -/
theorem stamp_lin {ts : Nat} (hw : Glob ⟨x, g, h⟩) (hts : g.clock ≤ ts) :
    Stamp ⟨x, { g with clock := ts }, h ++ [.lin i ts]⟩ i ts where
  lin := by simp [obs, Observer.see]
  inv := by
    have hinv : (observe h).inv i ≤ g.clock := hw.timely.inv i
    simpa [obs, Observer.see] using hinv.trans hts
  before := by
    have hbefore := hw.timely.before.mono hts
    simp only [obs, observe_append_singleton]
    exact ⟨hbefore.items, hbefore.records⟩
  clock := le_refl _

/-- The effect of an operation: `q` is the inner queue after it. -/
theorem glob_effect {op : Op α} (res : Res α) (q : List (FCNode α)) (hw : Glob ⟨x, g, h⟩)
    (hlock : g.lock = some t) (hbusy : (g.operations i).opcode ≠ .done)
    (hserved : x.served = none) (hcalled : x.abs.phase i = .called op)
    (happly : apply op (g.q.map FCNode.value) = (res, q.map FCNode.value))
    (hstamps : ((observe h).see (.act (.effect i op res))).items
      = q.map fun n => (n.enqInvTs, n.enqLinTs))
    (htimely : ((observe h).see (.act (.effect i op res))).Timely g.clock)
    (hinv : ((observe h).see (.act (.effect i op res))).inv = (observe h).inv)
    (hlog : ((observe h).see (.act (.effect i op res))).log = (observe h).log) :
    Glob ⟨{ abs := ({ x.abs with items := q.map FCNode.value }.setPhase i (.done op res)),
            served := some i },
      { g with q := q }, h ++ [.act (.effect i op res)]⟩ where
  run := by
    simp only [acts_append_act]
    exact hw.run.snoc (.effect hcalled (by rw [hw.items]; exact happly))
  items := by simp
  stamps := by simpa only [obs, observe_append_singleton] using hstamps
  log u := by
    simp only [obs, observe_append_singleton, hlog]
    exact hw.log u
  timely := by simpa only [obs, observe_append_singleton] using htimely
  unlocked hfree := by simp [hlock] at hfree
  served j hj := by
    obtain rfl : i = j := by simpa using hj
    exact hbusy
  slots j hj hne := by
    have hji : j ≠ i := by
      rintro rfl
      simp at hne
    simp only [obs, observe_append_singleton, hinv, ne_eq, hji, not_false_eq_true,
      AtomicQueue.State.setPhase_of_ne]
    exact hw.slots j hj (by simp [hserved])

theorem combinerStep_effect {op : Op α} (res : Res α) (q : List (FCNode α))
    (hlock : g.lock = some t) (hbusy : (g.operations i).opcode ≠ .done)
    (hcalled : x.abs.phase i = .called op)
    (hinv : ((observe h).see (.act (.effect i op res))).inv = (observe h).inv)
    (hpopped : ∀ j, j ≠ i →
      ((observe h).see (.act (.effect i op res))).popped j = (observe h).popped j) :
    CombinerStep t i ⟨x, g, h⟩
      ⟨{ abs := ({ x.abs with items := q.map FCNode.value }.setPhase i (.done op res)),
         served := some i },
        { g with q := q }, h ++ [.act (.effect i op res)]⟩ where
  held := hlock
  lock := rfl
  busy := hbusy
  slots j hj := ⟨rfl, by simp [hj], by simpa [obs] using hpopped j hj⟩
  inv := by simpa only [obs, observe_append_singleton] using hinv
  published op' hphase := by
    refine ⟨?_, fun hdone => absurd hdone hbusy⟩
    obtain rfl : op = op' := by
      simp only [PhaseOf, hcalled, reduceCtorEq, exists_false, or_false] at hphase
      simpa using hphase
    exact Or.inr ⟨res, by simp⟩

/-- The combiner writes its reply into the slot it has served. -/
theorem glob_store {o : Operation α} (hw : Glob ⟨x, g, h⟩) (hserved : x.served = some i)
    (hbusy : (g.operations i).opcode ≠ .done) (ho : o.opcode = (g.operations i).opcode) :
    Glob ⟨x, g.setOperation i o, h⟩ where
  run := hw.run
  items := hw.items
  stamps := hw.stamps
  log := hw.log
  timely := hw.timely
  unlocked := hw.unlocked
  served j hj := by
    obtain rfl : i = j := by simpa [hserved] using hj
    simpa [codeAt, ho] using hbusy
  slots j hj hne := by
    have hji : j ≠ i := by
      rintro rfl
      exact hne hserved
    simp only [codeAt, ne_eq, hji, not_false_eq_true, Shared.setOperation_of_ne] at hj ⊢
    exact hw.slots j hj hne

theorem combinerStep_store {o : Operation α} (hlock : g.lock = some t)
    (hbusy : (g.operations i).opcode ≠ .done) (ho : o.opcode = (g.operations i).opcode) :
    CombinerStep t i ⟨x, g, h⟩ ⟨x, g.setOperation i o, h⟩ where
  held := hlock
  lock := rfl
  busy := hbusy
  slots j hj := by simp [obs, hj]
  inv := rfl
  published _ hphase := ⟨hphase, fun hdone => absurd (by simpa [codeAt, ho] using hdone) hbusy⟩

/-- The combiner gives the slot back. -/
theorem glob_done (hw : Glob ⟨x, g, h⟩) (hserved : x.served = some i) :
    Glob ⟨{ x with served := none }, g.setOpcode i .done, h⟩ where
  run := hw.run
  items := hw.items
  stamps := hw.stamps
  log := hw.log
  timely := hw.timely
  unlocked _ := rfl
  served _ hj := by simp at hj
  slots j hj _ := by
    have hji : j ≠ i := by
      rintro rfl
      simp [codeAt, Shared.setOpcode] at hj
    simp only [codeAt, Shared.setOpcode, ne_eq, hji, not_false_eq_true,
      Shared.setOperation_of_ne] at hj ⊢
    exact hw.slots j hj (by simp [hserved, Ne.symm hji])

theorem Reply.setOpcode {o : Operation α} {popped : Option LogRecord} {op : Op α} {res : Res α}
    {c : Opcode} (hr : Reply o popped op res) : Reply { o with opcode := c } popped op res := by
  cases op with
  | enqueue item => trivial
  | dequeue => exact hr

theorem combinerStep_done {op : Op α} {res : Res α} (hlock : g.lock = some t)
    (hserved : Served ⟨x, g, h⟩ i op res)
    (hreply : Reply (g.operations i) ((observe h).popped i) op res) :
    CombinerStep t i ⟨x, g, h⟩ ⟨{ x with served := none }, g.setOpcode i .done, h⟩ where
  held := hlock
  lock := rfl
  busy := hserved.busy
  slots j hj := by simp [obs, Shared.setOpcode, hj]
  inv := rfl
  published op' hphase := by
    have hdone : x.abs.phase i = .done op res := hserved.phase
    obtain rfl : op = op' := by
      simp only [PhaseOf, hdone, reduceCtorEq, false_or] at hphase
      obtain ⟨_, hres⟩ := hphase
      exact (Phase.done.inj hres).1
    refine ⟨Or.inr ⟨res, hdone⟩, fun _ => ⟨res, hdone, ?_⟩⟩
    simpa [Shared.setOpcode, obs] using hreply.setOpcode

end Combiner

end QueueFairness.FlatCombiningQueue
