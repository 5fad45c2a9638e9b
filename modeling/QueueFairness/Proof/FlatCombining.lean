import QueueFairness.Proof.FlatCombiningStep

/-!
# The flat combining queue is an atomic queue, and logs as one

The invariant holds along every run, so the history is a run of the atomic FIFO queue, and the logs
are the ones the observer computes from it.
-/

namespace QueueFairness.FlatCombiningQueue

open Interleaving AtomicQueue

variable {α : Type}

section Scan

variable {numThreads : Nat} {x : Ghost α} {g : Shared α} {h : List (Event α)} {t : Tid}
  {op : Op α} {scan scan' : Scan α} {w w' : W α} {i : Nat}

/-- What a step of thread `t` from `w` has to achieve. -/
def Preserved (numThreads : Nat) (t : Tid) (w : W α) (g : Shared α) (l : Local α)
    (es : List (Event α)) : Prop :=
  ∃ x, Glob ⟨x, g, w.history ++ es⟩ ∧ Loc numThreads ⟨x, g, w.history ++ es⟩ t l
    ∧ ∀ u, u ≠ t → Rely u w ⟨x, g, w.history ++ es⟩

theorem Rely.refl (w : W α) (t : Tid) : Rely t w w where
  lock := Iff.rfl
  inv := rfl
  own _ := ⟨rfl, rfl, rfl⟩
  published hbusy _ hphase := ⟨hphase, fun hdone => absurd hdone hbusy⟩
  holder _ := ⟨rfl, rfl, fun _ _ => ⟨rfl, rfl, rfl, rfl⟩, rfl, rfl, rfl, le_refl _⟩

/-- A step that writes nothing. -/
theorem preserved_read {l : Local α} (hw : Glob ⟨x, g, h⟩) (hl : Loc numThreads ⟨x, g, h⟩ t l) :
    Preserved numThreads t ⟨x, g, h⟩ g l [] := by
  rw [Preserved, List.append_nil]
  exact ⟨x, hw, hl, fun u _ => Rely.refl _ u⟩

theorem Scan.index_at_le (numThreads i : Nat) :
    (Scan.at numThreads i : Scan α).index numThreads ≤ i := by
  unfold Scan.at
  split
  · exact le_refl _
  · simpa [Scan.index] using by omega

theorem scanLoc_at : ScanLoc w (.at numThreads i) ↔ w.ghost.served = none := by
  unfold Scan.at
  split <;> rfl

theorem index_lt_of_past (hpast : t < i → codeAt w t = .done) (hdone : codeAt w i = .done)
    (hlt : t < (Scan.at numThreads (i + 1) : Scan α).index numThreads) : codeAt w t = .done := by
  have hle := Scan.index_at_le (α := α) numThreads (i + 1)
  rcases Nat.lt_or_ge t i with hti | hti
  · exact hpast hti
  · obtain rfl : i = t := Nat.le_antisymm hti (Nat.le_of_lt_succ (hlt.trans_le hle))
    exact hdone

/-- The combiner stays at its slot. -/
theorem CombinerStep.loc (hc : CombinerStep t i w w')
    (hl : Loc numThreads w t (.combine op scan)) (hi : scan.index numThreads = i)
    (hi' : scan'.index numThreads = i) (hscan : ScanLoc w' scan') :
    Loc numThreads w' t (.combine op scan') := by
  obtain ⟨ht, hlock, hwait, hpast, -⟩ := hl
  refine ⟨ht, hc.lock.trans hlock, hc.waiting hwait, fun hlt => ?_, hscan⟩
  rw [hi'] at hlt
  exact hc.done_of_ne (Nat.ne_of_lt hlt) (hpast (by rw [hi]; exact hlt))

/-- The combiner moves on without touching the shared state. -/
theorem loc_of_scanLoc (hl : Loc numThreads w t (.combine op scan))
    (hi : scan'.index numThreads = scan.index numThreads) (hscan : ScanLoc w scan') :
    Loc numThreads w t (.combine op scan') := by
  obtain ⟨ht, hlock, hwait, hpast, -⟩ := hl
  exact ⟨ht, hlock, hwait, by rw [hi]; exact hpast, hscan⟩

/-- The request the combiner finds in an unserved slot. -/
theorem Glob.request {w : W α} (hw : Glob w) {c : Opcode} (hu : Unserved w i c) (hc : c ≠ .done) :
    ∃ op, c = opcodeOf op ∧ w.ghost.abs.phase i = .called op
      ∧ Request (w.shared.operations i) ((obs w).inv i) op := by
  obtain ⟨op, hcode, hphase, hreq⟩ := hw.slots i (hu.busy hc) (by simp [hu.served])
  exact ⟨op, hu.opcode ▸ hcode, hphase, hreq⟩

theorem Glob.request_enqueue {w : W α} (hw : Glob w) (hu : Unserved w i .enqueue) :
    w.ghost.abs.phase i = .called (.enqueue (nodeAt w i).value)
      ∧ (nodeAt w i).enqInvTs = (obs w).inv i := by
  obtain ⟨op, hcode, hphase, hreq⟩ := hw.request hu (by decide)
  cases op with
  | enqueue item =>
      obtain ⟨rfl, hinv⟩ := hreq
      exact ⟨hphase, hinv⟩
  | dequeue => cases hcode

theorem Glob.request_dequeue {w : W α} (hw : Glob w) (hu : Unserved w i .dequeue) :
    w.ghost.abs.phase i = .called .dequeue ∧ (nodeAt w i).deqInvTs = (obs w).inv i := by
  obtain ⟨op, hcode, hphase, hreq⟩ := hw.request hu (by decide)
  cases op with
  | enqueue item => cases hcode
  | dequeue => exact ⟨hphase, hreq⟩

/-- `q_.push(n)` is the effect of the enqueue in slot `i`. -/
theorem push_preserves {n : FCNode α} (hw : Glob ⟨x, g, h⟩)
    (hl : Loc numThreads ⟨x, g, h⟩ t (.combine op (.push i n))) :
    Preserved numThreads t ⟨x, g, h⟩ { g with q := g.q ++ [n] } (.combine op (.storeDone i))
      [.act (.effect i (.enqueue n.value) .enqueued)] := by
  have hl' := hl
  obtain ⟨-, hlock, -, -, hu, hvalue, henqInv, hstamp⟩ := hl'
  obtain ⟨hphase, hinv⟩ := hw.request_enqueue hu
  rw [← hvalue] at hphase
  rw [← henqInv] at hinv
  have hlin : (observe h).lin i = n.enqLinTs := hstamp.lin
  have hbusy := hu.busy (by decide)
  have hc : CombinerStep t i ⟨x, g, h⟩ _ :=
    combinerStep_effect .enqueued (g.q ++ [n]) hlock hbusy hphase rfl fun _ _ => rfl
  refine ⟨_, glob_effect _ (g.q ++ [n]) hw hlock hbusy hu.served hphase ?_ ?_ ?_ rfl rfl,
    hc.loc hl rfl rfl ?_, fun u hne => hc.rely hne⟩
  · simp [apply]
  · have hstamps : (observe h).items = _ := hw.stamps
    have hinv' : (observe h).inv i = n.enqInvTs := hinv.symm
    simp [Observer.see, hstamps, hlin, hinv']
  · refine hw.timely.see_enqueue i _ ?_ ?_ ?_
    · simpa [obs, hlin] using hstamp.inv
    · simpa [obs, hlin] using hstamp.before
    · simpa [obs, hlin] using hstamp.clock
  · exact ⟨.enqueue n.value, .enqueued, ⟨hu.opcode, rfl, by simp⟩, trivial⟩

/-- Finding `q_` empty is the effect of the dequeue in slot `i`. -/
theorem empty_preserves (hw : Glob ⟨x, g, h⟩) (hq : g.q = [])
    (hl : Loc numThreads ⟨x, g, h⟩ t (.combine op (.testEmpty i))) :
    Preserved numThreads t ⟨x, g, h⟩ g (.combine op (.storeSuccess i false))
      [.act (.effect i .dequeue (.dequeued false none))] := by
  have hl' := hl
  obtain ⟨-, hlock, -, -, hu⟩ := hl'
  obtain ⟨hphase, -⟩ := hw.request_dequeue hu
  have hbusy := hu.busy (by decide)
  have hg : g = { g with q := [] } := by rw [← hq]
  have hc : CombinerStep t i ⟨x, g, h⟩ _ :=
    combinerStep_effect (.dequeued false none) [] hlock hbusy hphase rfl
      fun _ _ => rfl
  rw [← hg] at hc
  have hglob := glob_effect (.dequeued false none) [] hw hlock hbusy hu.served hphase
    (by simp [hq, apply]) (by simpa [Observer.see, obs, hq] using hw.stamps) hw.timely rfl rfl
  rw [← hg] at hglob
  refine ⟨_, hglob, hc.loc hl rfl rfl ?_, fun u hne => hc.rely hne⟩
  exact ⟨.dequeued false none, ⟨hu.opcode, rfl, by simp⟩, rfl⟩

/-- `q_.pop()` is the effect of the dequeue in slot `i`. -/
theorem pop_preserves {n : FCNode α} {deqLinTs : Nat} (hw : Glob ⟨x, g, h⟩)
    (hl : Loc numThreads ⟨x, g, h⟩ t (.combine op (.pop i n deqLinTs))) :
    Preserved numThreads t ⟨x, g, h⟩ { g with q := g.q.tail }
      (.combine op (.storeValue i n deqLinTs))
      [.act (.effect i .dequeue (.dequeued true (some n.value)))] := by
  set e : Event α := .act (.effect i .dequeue (.dequeued true (some n.value)))
  have hl' := hl
  obtain ⟨-, hlock, -, -, hu, hhead, hstamp⟩ := hl'
  obtain ⟨hphase, hdeqInv⟩ := hw.request_dequeue hu
  have hbusy := hu.busy (by decide)
  obtain ⟨rest, hq⟩ : ∃ rest, g.q = n :: rest := List.head?_eq_some_iff.mp hhead
  have hlin : (observe h).lin i = deqLinTs := hstamp.lin
  have hstamps : (observe h).items = (n.enqInvTs, n.enqLinTs)
      :: rest.map fun m => (m.enqInvTs, m.enqLinTs) := by
    simpa [obs, hq] using hw.stamps
  have hsee : (observe h).see e = (observe h).pop i := rfl
  have hpop : (observe h).pop i = { observe h with
      items := rest.map fun m => (m.enqInvTs, m.enqLinTs)
      popped := Function.update (observe h).popped i
        (some ⟨n.enqInvTs, n.enqLinTs, (observe h).inv i, deqLinTs⟩)
      records := (observe h).records
        ++ [⟨n.enqInvTs, n.enqLinTs, (observe h).inv i, deqLinTs⟩] } := by
    simp [Observer.pop, hstamps, hlin]
  have htail : g.q.tail = rest := by simp [hq]
  rw [htail]
  have hc : CombinerStep t i ⟨x, g, h⟩ _ :=
    combinerStep_effect (.dequeued true (some n.value)) rest hlock hbusy hphase
      (by rw [hsee, hpop]) fun j hj => by rw [hsee, hpop]; simp [hj]
  refine ⟨_, glob_effect _ rest hw hlock hbusy hu.served hphase ?_ ?_ ?_ ?_ ?_,
    hc.loc hl rfl rfl ⟨⟨hu.opcode, rfl, by simp⟩, ?_⟩, fun u hne => hc.rely hne⟩
  · simp [apply, hq]
  · rw [hsee, hpop]
  · rw [hsee]
    refine hw.timely.pop i ?_ ?_ ?_
    · simpa [obs, hlin] using hstamp.inv
    · simpa [obs, hlin] using hstamp.before
    · simpa [obs, hlin] using hstamp.clock
  · rw [hsee, hpop]
  · rw [hsee, hpop]
  · have hdeq : (nodeAt ⟨x, g, h⟩ i).deqInvTs = (observe h).inv i := hdeqInv
    simp only [obs, observe_append_singleton]
    change ((observe h).see e).popped i = _
    rw [hsee, hpop]
    simp only [Function.update_self, ← hdeq]
    rfl

/-- The combiner writes to the slot it has served, whose opcode stays. -/
theorem store_preserves {o : Operation α} {op' : Op α} {res : Res α} (hw : Glob ⟨x, g, h⟩)
    (hl : Loc numThreads ⟨x, g, h⟩ t (.combine op scan)) (hserved : Served ⟨x, g, h⟩ i op' res)
    (ho : o.opcode = (g.operations i).opcode) (hi : scan.index numThreads = i)
    (hi' : scan'.index numThreads = i)
    (hscan : Served ⟨x, g.setOperation i o, h⟩ i op' res →
      ScanLoc ⟨x, g.setOperation i o, h⟩ scan') :
    Preserved numThreads t ⟨x, g, h⟩ (g.setOperation i o) (.combine op scan') [] := by
  rw [Preserved, List.append_nil]
  have hc := combinerStep_store (x := x) (h := h) hl.2.1 hserved.busy ho
  have hserved' : Served ⟨x, g.setOperation i o, h⟩ i op' res := by
    refine ⟨?_, hserved.served, hserved.phase⟩
    rw [codeAt, Shared.setOperation_self, ho]
    exact hserved.opcode
  exact ⟨x, glob_store hw hserved.served hserved.busy ho, hc.loc hl hi hi' (hscan hserved'),
    fun u hne => hc.rely hne⟩

/-- The combiner reads the clock for slot `i`. -/
theorem lin_preserves {ts : Nat} {c : Opcode} (hw : Glob ⟨x, g, h⟩)
    (hl : Loc numThreads ⟨x, g, h⟩ t (.combine op scan)) (hts : g.clock ≤ ts)
    (hu : Unserved ⟨x, g, h⟩ i c) (hc : c ≠ .done) (hi : scan.index numThreads = i)
    (hi' : scan'.index numThreads = i)
    (hscan : Unserved ⟨x, { g with clock := ts }, h ++ [.lin i ts]⟩ i c →
      ScanLoc ⟨x, { g with clock := ts }, h ++ [.lin i ts]⟩ scan') :
    Preserved numThreads t ⟨x, g, h⟩ { g with clock := ts } (.combine op scan') [.lin i ts] := by
  have hstep : CombinerStep t i ⟨x, g, h⟩ ⟨x, { g with clock := ts }, h ++ [.lin i ts]⟩ :=
    combinerStep_lin hl.2.1 (hu.busy hc)
  exact ⟨x, glob_lin hw hts, hstep.loc hl hi hi' (hscan ⟨hu.opcode, hu.served⟩),
    fun u hne => hstep.rely hne⟩

/-- The opcode `Done` is stored: the call in slot `i` may return. -/
theorem done_preserves (hw : Glob ⟨x, g, h⟩)
    (hl : Loc numThreads ⟨x, g, h⟩ t (.combine op (.storeDone i))) :
    Preserved numThreads t ⟨x, g, h⟩ (g.setOpcode i .done)
      (.combine op (.at numThreads (i + 1))) [] := by
  obtain ⟨ht, hlock, hwait, hpast, op', res, hserved, hreply⟩ := hl
  have hc := combinerStep_done hlock hserved hreply
  rw [Preserved, List.append_nil]
  refine ⟨_, glob_done hw hserved.served, ⟨ht, hlock, hc.waiting hwait, ?_,
    scanLoc_at.mpr rfl⟩, fun u hne => hc.rely hne⟩
  refine index_lt_of_past (fun hlt => ?_) (by simp [codeAt, Shared.setOpcode])
  exact hc.done_of_ne (Nat.ne_of_lt hlt) (hpast hlt)

/-- The combiner looks at slot `i`, and passes it if there is nothing to do. -/
theorem loadOpcode_preserves {ts : Nat} (hw : Glob ⟨x, g, h⟩)
    (hl : Loc numThreads ⟨x, g, h⟩ t (.combine op (.loadOpcode i))) :
    Leads (fun g' scan' => Preserved numThreads t ⟨x, g, h⟩ g' (.combine op scan'))
      (scanStep numThreads ts g (.loadOpcode i)) := by
  obtain ⟨ht, hlock, hwait, hpast, hscan⟩ := id hl
  simp only [scanStep]
  split <;> rename_i hcode <;> refine .into <| preserved_read hw ?_
  · exact loc_of_scanLoc hl rfl ⟨hcode, hscan⟩
  · exact loc_of_scanLoc hl rfl ⟨hcode, hscan⟩
  · exact ⟨ht, hlock, hwait, index_lt_of_past hpast hcode, scanLoc_at.mpr hscan⟩

/-- **A step of the combiner** keeps the invariants. -/
theorem scan_preserves {ts : Nat} (hw : Glob ⟨x, g, h⟩)
    (hl : Loc numThreads ⟨x, g, h⟩ t (.combine op scan)) :
    Leads (fun g' scan' => Preserved numThreads t ⟨x, g, h⟩ g' (.combine op scan'))
      (scanStep numThreads ts g scan) := by
  have hscan := hl.2.2.2.2
  cases scan with
  | loadOpcode i => exact loadOpcode_preserves hw hl
  | copyValue i => exact .into <| preserved_read hw <| loc_of_scanLoc hl rfl ⟨hscan, rfl⟩
  | copyEnqInv i v =>
      exact .into <| preserved_read hw <| loc_of_scanLoc hl rfl ⟨hscan.1, hscan.2, rfl⟩
  | copyRest i v enqInvTs =>
      exact .into <| preserved_read hw <| loc_of_scanLoc hl rfl ⟨hscan.1, hscan.2.1, hscan.2.2⟩
  | nowEnqLin i n =>
      obtain ⟨hu, hvalue, hinv⟩ := hscan
      exact .ite (fun hts => .into <| lin_preserves hw hl hts hu (by decide) rfl rfl fun hu' =>
        ⟨hu', hvalue, hinv, stamp_lin hw hts⟩) fun _ => .nowhere
  | push i n => exact .into <| push_preserves hw hl
  | testEmpty i =>
      simp only [scanStep]
      split <;> rename_i hq
      · exact .into <| empty_preserves hw hq hl
      · exact .into <| preserved_read hw <| loc_of_scanLoc hl rfl ⟨hscan, by simp [hq]⟩
  | front i =>
      simp only [scanStep]
      split
      · exact .nowhere
      · rename_i n rest hq
        exact .into <| preserved_read hw <| loc_of_scanLoc hl rfl ⟨hscan.1, by simp [hq]⟩
  | nowDeqLin i n =>
      obtain ⟨hu, hhead⟩ := hscan
      exact .ite (fun hts => .into <| lin_preserves hw hl hts hu (by decide) rfl rfl fun hu' =>
        ⟨hu', hhead, stamp_lin hw hts⟩) fun _ => .nowhere
  | pop i n deqLinTs => exact .into <| pop_preserves hw hl
  | storeValue i n deqLinTs | storeEnqInv i n deqLinTs | storeEnqLin i n deqLinTs =>
      obtain ⟨hserved, hpopped⟩ := hscan
      refine .into <| store_preserves hw hl hserved rfl rfl rfl fun hserved' => ⟨?_, ?_⟩
      · simpa [nodeAt] using hserved'
      · simpa [nodeAt, obs] using hpopped
  | storeDeqLin i deqLinTs =>
      obtain ⟨hserved, hpopped⟩ := hscan
      refine .into <| store_preserves hw hl hserved rfl rfl rfl fun hserved' => ⟨_, hserved', ?_⟩
      simpa [Reply, FCNode.record, nodeAt, obs] using hpopped
  | storeSuccess i success =>
      obtain ⟨res, hserved, hreply⟩ := hscan
      refine .into <| store_preserves hw hl hserved rfl rfl rfl fun hserved' =>
        ⟨.dequeue, res, hserved', ?_⟩
      simpa [obs] using hreply
  | storeDone i => exact .into <| done_preserves hw hl
  | unlock => exact .nowhere

end Scan

section Step

variable {numThreads : Nat} {x : Ghost α} {g : Shared α} {h : List (Event α)} {t : Tid}

/-- Leaving the wait loop: the operation has been applied and its reply is in the slot. -/
theorem afterApply_preserves (numThreads : Nat) {op : Op α} (hw : Glob ⟨x, g, h⟩)
    (hlock : g.lock ≠ some t) (hdone : (g.operations t).opcode = .done)
    (hwait : Waiting ⟨x, g, h⟩ t op) :
    Preserved numThreads t ⟨x, g, h⟩ g (afterApply t op).1 (afterApply t op).2 := by
  have hans := hwait.answered hdone
  cases op with
  | enqueue item =>
      obtain ⟨res, hphase, -⟩ := hans
      obtain rfl := hw.run.res_of_enqueue hphase
      exact ⟨_, glob_phase hw hdone (fun _ => rfl) (.ret hphase), ⟨hlock, hdone, by simp⟩,
        fun u hu => (ownerStep_phase hdone fun _ => rfl).rely hu⟩
  | dequeue => exact preserved_read hw ⟨hlock, hdone, hans⟩

/-- A write of thread `t` to its own slot while the opcode is `Done`. -/
theorem own_preserves {o : Operation α} {p : Phase α} {l' : Local α} (hw : Glob ⟨x, g, h⟩)
    (hp : Private ⟨x, g, h⟩ t p) (ho : o.opcode = .done)
    (hl' : Private ⟨x, g.setOperation t o, h⟩ t p →
      Loc numThreads ⟨x, g.setOperation t o, h⟩ t l') :
    Preserved numThreads t ⟨x, g, h⟩ (g.setOperation t o) l' [] := by
  rw [Preserved, List.append_nil]
  exact ⟨x, glob_own hw hp.opcode ho, hl' ⟨hp.lock, by simp [codeAt, ho], hp.phase⟩,
    fun _ hu => (ownerStep_own hp.opcode).rely hu⟩

/-- The request is complete and its opcode stored: from here on anyone may apply it. -/
theorem publish_preserves {op : Op α} (hw : Glob ⟨x, g, h⟩) (ht : t < numThreads)
    (hp : Private ⟨x, g, h⟩ t (.called op))
    (hreq : Request (g.operations t) ((observe h).inv t) op) :
    Preserved numThreads t ⟨x, g, h⟩ (g.setOpcode t (opcodeOf op)) (.tryLock op) [] := by
  rw [Preserved, List.append_nil]
  have hreq' : Request { g.operations t with opcode := opcodeOf op } ((observe h).inv t) op := by
    cases op <;> exact hreq
  refine ⟨x, glob_publish hw hp.opcode rfl hp.phase hreq', ⟨ht, hp.lock, Or.inl hp.phase, ?_⟩,
    fun _ hu => (ownerStep_own hp.opcode).rely hu⟩
  intro hdone
  simp [codeAt, Shared.setOpcode, opcodeOf_ne_done] at hdone

variable [Inhabited α]

theorem step_combine {i : Input α} {op : Op α} {scan : Scan α} (hscan : scan ≠ .unlock) :
    step numThreads t i g (.combine op scan)
      = (scanStep numThreads i.ts g scan).map fun r => (r.1, .combine op r.2.1, r.2.2) := by
  cases scan with
  | unlock => exact absurd rfl hscan
  | _ => rfl

section States

variable {i : Input α} (hw : Glob ⟨x, g, h⟩)

include hw

theorem nowInv_preserves {op : Op α} (hl : Loc numThreads ⟨x, g, h⟩ t (.nowInv op)) :
    Leads (Preserved numThreads t ⟨x, g, h⟩) (step numThreads t i g (.nowInv op)) := by
  obtain ⟨ht, hp⟩ := hl
  refine .ite (fun hts => ?_) fun _ => .nowhere
  cases op <;>
    exact .into ⟨x, glob_inv hw hp.opcode hts,
      ⟨ht, ⟨hp.lock, hp.opcode, hp.phase⟩, by simp [obs, Observer.see]⟩,
      fun u hu => (ownerStep_inv hp.opcode hts).rely hu⟩

/-- The thread that gets the lock becomes the combiner. -/
theorem tryLock_preserves {op : Op α} (hl : Loc numThreads ⟨x, g, h⟩ t (.tryLock op)) :
    Leads (Preserved numThreads t ⟨x, g, h⟩) (step numThreads t i g (.tryLock op)) := by
  obtain ⟨ht, hlock, hwait⟩ := hl
  refine .ite (fun hfree => .into ?_) fun _ => .into <| preserved_read hw ⟨ht, hlock, hwait⟩
  have hserved := hw.unlocked hfree.1
  rw [Preserved, List.append_nil]
  refine ⟨x, glob_lock hw hserved, ⟨ht, rfl, ⟨hwait.phase, hwait.answered⟩, fun hlt => ?_,
    scanLoc_at.mpr hserved⟩, fun u hu => rely_lock ?_⟩
  · have hlt' := hlt.trans_le (Scan.index_at_le (α := α) numThreads 0)
    exact absurd hlt' (Nat.not_lt_zero t)
  · simp [hfree.1, Ne.symm hu]

theorem loadDone_preserves {op : Op α} (hl : Loc numThreads ⟨x, g, h⟩ t (.loadDone op)) :
    Leads (Preserved numThreads t ⟨x, g, h⟩) (step numThreads t i g (.loadDone op)) := by
  obtain ⟨ht, hlock, hwait⟩ := hl
  refine .ite (fun hdone => .into ?_) fun _ => .into <| preserved_read hw ⟨ht, hlock, hwait⟩
  exact afterApply_preserves numThreads hw hlock hdone hwait

/-- The combiner has passed its own slot, so its own call has been applied as well. -/
theorem unlock_preserves {op : Op α} (hl : Loc numThreads ⟨x, g, h⟩ t (.combine op .unlock)) :
    Leads (Preserved numThreads t ⟨x, g, h⟩) (step numThreads t i g (.combine op .unlock)) := by
  obtain ⟨ht, hlock, hwait, hpast, hserved⟩ := hl
  have hunlocked : Glob ⟨x, { g with lock := none }, h⟩ := glob_lock hw hserved
  have hwait' : Waiting ⟨x, { g with lock := none }, h⟩ t op := ⟨hwait.phase, hwait.answered⟩
  obtain ⟨x', hglob, hloc, hrely⟩ :=
    afterApply_preserves numThreads hunlocked (by simp) (hpast ht) hwait'
  refine .into ⟨x', hglob, hloc, fun u hu => (hrely u hu).trans_lock ?_⟩
  have hlock' : g.lock = some t := hlock
  simp [hlock', Ne.symm hu]

theorem readSuccess_preserves (hl : Loc numThreads ⟨x, g, h⟩ t .readSuccess) :
    Leads (Preserved numThreads t ⟨x, g, h⟩) (step numThreads t i g .readSuccess) := by
  obtain ⟨hlock, hdone, res, hphase, hreply⟩ := hl
  refine .ite (fun hsuccess => .into <| preserved_read hw ?_) fun hsuccess =>
    .into <| preserved_read hw ?_
  · obtain ⟨v, rfl⟩ : ∃ v, res = .dequeued true (some v) := by
      unfold Reply at hreply
      split at hreply <;> simp_all
    obtain ⟨-, rfl, hpopped⟩ := hreply
    exact ⟨hlock, hdone, hphase, hsuccess, hpopped⟩
  · have hsuccess' : (g.operations t).success = false := by simpa using hsuccess
    obtain rfl : res = .dequeued false none := by
      unfold Reply at hreply
      split at hreply <;> simp_all
    exact ⟨hlock, hdone, by rw [hsuccess']; exact hphase⟩

theorem logRecord_preserves {out : α} {enqInvTs enqLinTs deqInvTs : Nat}
    (hl : Loc numThreads ⟨x, g, h⟩ t (.logRecord out enqInvTs enqLinTs deqInvTs)) :
    Leads (Preserved numThreads t ⟨x, g, h⟩)
      (step numThreads t i g (.logRecord out enqInvTs enqLinTs deqInvTs)) := by
  obtain ⟨htaken, rfl, rfl, rfl, rfl⟩ := hl
  refine .into ⟨x, glob_logged hw htaken.popped, ⟨htaken.lock, htaken.opcode, ?_⟩,
    fun u hu => (ownerStep_logged htaken.opcode).rely hu⟩
  have hsuccess := htaken.success
  have hphase := htaken.phase
  simp_all

end States

/-- **A step of the queue** keeps the invariants. -/
theorem step_preserves {i : Input α} {l l' : Local α} {g' : Shared α} {es : List (Event α)}
    (hw : Glob ⟨x, g, h⟩) (hl : Loc numThreads ⟨x, g, h⟩ t l)
    (hstep : step numThreads t i g l = some (g', l', es)) :
    Preserved numThreads t ⟨x, g, h⟩ g' l' es := by
  suffices hleads : Leads (Preserved numThreads t ⟨x, g, h⟩) (step numThreads t i g l) from
    hleads.of_some hstep
  cases l with
  | idle =>
      refine .ite (fun ht => .map fun op _ => ?_) fun _ => .nowhere
      exact ⟨_, glob_phase hw hl.opcode (fun _ => rfl) (.call hl.phase),
        ⟨ht, hl.lock, hl.opcode, by simp⟩,
        fun u hu => (ownerStep_phase hl.opcode fun _ => rfl).rely hu⟩
  | nowInv op => exact nowInv_preserves hw hl
  | storeEnqInv item enqInvTs =>
      obtain ⟨ht, hp, hinv⟩ := hl
      exact .into <| own_preserves hw hp hp.opcode fun hp' =>
        ⟨ht, hp', by simpa [nodeAt, obs] using hinv⟩
  | storeItem item =>
      obtain ⟨ht, hp, hinv⟩ := hl
      exact .into <| own_preserves hw hp hp.opcode fun hp' =>
        ⟨ht, hp', by simpa [Request, nodeAt, obs] using hinv⟩
  | publishEnqueue item | publishDequeue => exact .into <| publish_preserves hw hl.1 hl.2.1 hl.2.2
  | clearValue deqInvTs | clearSuccess deqInvTs =>
      exact .into <| own_preserves hw hl.2.1 hl.2.1.opcode fun hp' => ⟨hl.1, hp', hl.2.2⟩
  | storeDeqInv deqInvTs =>
      obtain ⟨ht, hp, hinv⟩ := hl
      exact .into <| own_preserves hw hp hp.opcode fun hp' =>
        ⟨ht, hp', by simpa [Request, obs] using hinv⟩
  | tryLock op => exact tryLock_preserves hw hl
  | loadDone op => exact loadDone_preserves hw hl
  | combine op scan =>
      cases scan with
      | unlock => exact unlock_preserves hw hl
      | _ =>
          rw [step_combine (by simp)]
          exact .lift (scan_preserves hw hl)
  | readSuccess => exact readSuccess_preserves hw hl
  | readValue => exact .into <| preserved_read hw ⟨hl, rfl⟩
  | readEnqInv out => exact .into <| preserved_read hw ⟨hl.1, hl.2, rfl⟩
  | readEnqLin out enqInvTs => exact .into <| preserved_read hw ⟨hl.1, hl.2.1, hl.2.2, rfl⟩
  | readDeqInv out enqInvTs enqLinTs =>
      exact .into <| preserved_read hw ⟨hl.1, hl.2.1, hl.2.2.1, hl.2.2.2, rfl⟩
  | logRecord out enqInvTs enqLinTs deqInvTs => exact logRecord_preserves hw hl
  | returnSuccess out =>
      exact .into ⟨_, glob_phase hw hl.opcode (fun _ => rfl) (.ret hl.phase),
        ⟨hl.lock, hl.opcode, by simp⟩, fun u hu => (ownerStep_phase hl.opcode fun _ => rfl).rely hu⟩

/-- The invariants as a rely-guarantee proof. -/
def relyGuarantee (α : Type) [Inhabited α] (numThreads : Nat) :
    RelyGuarantee (program α numThreads) (fun _ _ _ => True) (Ghost α) where
  glob := Glob
  loc := Loc numThreads
  rely := Rely
  init := by
    refine ⟨⟨.init, none⟩, ?_, fun t => ⟨by simp [program], rfl, rfl⟩⟩
    refine ⟨.nil, rfl, rfl, fun _ => rfl, Observer.timely_init, fun _ => rfl, ?_, ?_⟩
    · simp
    · simp [codeAt, program]
  stable := Rely.loc
  step _ hw hl hstep := step_preserves hw (hl _) hstep

end Step

section Results

variable [Inhabited α] {numThreads : Nat} {c : Config (Shared α) (Local α) (Event α)}

/-- **Linearizability.** The calls, effects and returns of every run are a run of the atomic FIFO
queue whose list is the inner queue: its effects in order are a legal sequential history, and every
return gives the result of the one effect its call has had. -/
theorem refines_atomicQueue (h : (program α numThreads).Reachable c) :
    (∃ s, AtomicQueue.Run (acts c.history) s ∧ s.items = c.shared.q.map FCNode.value)
      ∧ Sequential [] (effects (acts c.history)) (c.shared.q.map FCNode.value)
      ∧ ∀ before t res after, acts c.history = before ++ .ret t res :: after →
          ∃ op, DoneAt before t op res := by
  obtain ⟨x, hw, -⟩ := (relyGuarantee α numThreads).holds h
  have hrun : AtomicQueue.Run (acts c.history) x.abs := hw.run
  have hitems : x.abs.items = c.shared.q.map FCNode.value := hw.items
  refine ⟨⟨x.abs, hrun, hitems⟩, hitems ▸ hrun.sequential, fun before t res after hacts => ?_⟩
  rw [hacts, List.append_cons] at hrun
  obtain ⟨s, hs⟩ := hrun.of_append
  exact hs.doneAt_of_ret

/-- Thread 1 applies the operations of both threads, first the enqueues of 7 and 8 and then the two
dequeues, while thread 0 waits. -/
def combinedSchedule : List (Tid × Input Nat) :=
  List.replicate 5 (0, { op := some (.enqueue 7), ts := 1 })
    ++ List.replicate 5 (1, { op := some (.enqueue 8), ts := 2 })
    ++ List.replicate 16 (1, { ts := 3 })
    ++ List.replicate 2 (0, { fail := true })
    ++ List.replicate 6 (0, { op := some .dequeue, ts := 4 })
    ++ List.replicate 6 (1, { op := some .dequeue, ts := 5 })
    ++ List.replicate 12 (1, { ts := 6 })
    ++ List.replicate 19 (1, { ts := 7 })
    ++ List.replicate 9 (0, { fail := true })

/-- What the two threads do. -/
def combinedActs : List (Act Nat) :=
  [.call 0 (.enqueue 7), .call 1 (.enqueue 8), .effect 0 (.enqueue 7) .enqueued,
    .effect 1 (.enqueue 8) .enqueued, .ret 1 .enqueued, .ret 0 .enqueued, .call 0 .dequeue,
    .call 1 .dequeue, .effect 0 .dequeue (.dequeued true (some 7)),
    .effect 1 .dequeue (.dequeued true (some 8)), .ret 1 (.dequeued true (some 8)),
    .ret 0 (.dequeued true (some 7))]

theorem refines_atomicQueue_combined :
    ∃ c, (program Nat 2).exec (program Nat 2).init combinedSchedule = some c
      ∧ acts c.history = combinedActs
      ∧ (∃ s, AtomicQueue.Run (acts c.history) s ∧ s.items = c.shared.q.map FCNode.value)
      ∧ Sequential [] (effects (acts c.history)) (c.shared.q.map FCNode.value)
      ∧ ∀ before t res after, acts c.history = before ++ .ret t res :: after →
          ∃ op, DoneAt before t op res := by
  have hrun : ((program Nat 2).exec (program Nat 2).init combinedSchedule).map
      (fun c => acts c.history) = some combinedActs := by
    decide +kernel
  obtain ⟨c, hexec, hacts⟩ := Option.map_eq_some_iff.mp hrun
  exact ⟨c, hexec, hacts, refines_atomicQueue (.exec (fun _ _ _ => trivial) .init hexec)⟩

/-- **The log is faithful and in FIFO order.** Every thread has logged exactly the records the
observer computes from the history; each is ordered, and any two of them, from whichever threads,
leave the queue in the order they entered it. -/
theorem log_faithful (h : (program α numThreads).Reachable c) :
    (∀ t, c.shared.log t = (observe c.history).log t)
      ∧ (∀ t, ∀ r ∈ c.shared.log t, r.Ordered)
      ∧ ∀ t u, ∀ r ∈ c.shared.log t, ∀ s ∈ c.shared.log u,
          r.enqLinTs < s.enqLinTs → r.deqLinTs ≤ s.deqLinTs := by
  obtain ⟨x, hw, -⟩ := (relyGuarantee α numThreads).holds h
  have hlog : ∀ t, c.shared.log t = (observe c.history).log t := hw.log
  have htimely : (observe c.history).Timely c.shared.clock := hw.timely
  have hmem : ∀ t, ∀ r ∈ c.shared.log t, r ∈ (observe c.history).records := by
    intro t r hr
    rw [hlog] at hr
    exact htimely.log t r hr
  exact ⟨hlog, fun t r hr => htimely.records r (hmem t r hr),
    fun t u r hr s hs => htimely.inOrder (hmem t r hr) (hmem u s hs)⟩

theorem log_faithful_combined :
    ∃ c, (program Nat 2).exec (program Nat 2).init combinedSchedule = some c
      ∧ (c.shared.log 0, c.shared.log 1) = ([⟨1, 3, 4, 6⟩], [⟨2, 3, 5, 7⟩])
      ∧ (∀ t, c.shared.log t = (observe c.history).log t)
      ∧ (∀ t, ∀ r ∈ c.shared.log t, r.Ordered)
      ∧ ∀ t u, ∀ r ∈ c.shared.log t, ∀ s ∈ c.shared.log u,
          r.enqLinTs < s.enqLinTs → r.deqLinTs ≤ s.deqLinTs := by
  have hrun : ((program Nat 2).exec (program Nat 2).init combinedSchedule).map
      (fun c => (c.shared.log 0, c.shared.log 1))
      = some ([⟨1, 3, 4, 6⟩], [⟨2, 3, 5, 7⟩]) := by
    decide +kernel
  obtain ⟨c, hexec, hlog⟩ := Option.map_eq_some_iff.mp hrun
  exact ⟨c, hexec, hlog, log_faithful (.exec (fun _ _ _ => trivial) .init hexec)⟩

end Results

end QueueFairness.FlatCombiningQueue
