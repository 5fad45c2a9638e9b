import QueueFairness.Proof.FlatCombining

/-!
# How often a published operation is overtaken

A slot whose opcode has been stored waits for a scan to reach it. The scan in progress may have
passed it already, and then the next one, of whichever thread, comes to it from the left. Either way
no other slot is served twice before it: what the scans may still apply first is the distance from
where the scan stands to the slot, around the array.
-/

namespace QueueFairness.FlatCombiningQueue

open Interleaving AtomicQueue

variable {α : Type}

/-- The thread's next step stores its opcode. -/
def Local.Publishes : Local α → Prop
  | .publishEnqueue _ | .publishDequeue => True
  | _ => False

/-- The thread has stored its opcode and not yet seen that its operation was applied. -/
def Local.Waits : Local α → Prop
  | .tryLock _ | .loadDone _ | .combine _ _ => True
  | _ => False

/-- The slot whose operation an event applies to the inner queue. -/
def appliedSlot : Event α → Option Nat
  | .act (.effect i _ _) => some i
  | _ => none

/-- How many operations of slots other than `t` are applied. -/
def overtakes (t : Tid) (es : List (Event α)) : Nat :=
  es.countP fun e => (appliedSlot e).any (· ≠ t)

/-- The slot whose operation the scan has applied, until it moves on to the next. -/
def Scan.applied : Scan α → Option Nat
  | .storeValue i _ _ | .storeEnqInv i _ _ | .storeEnqLin i _ _ | .storeDeqLin i _
  | .storeSuccess i _ | .storeDone i => some i
  | _ => none

/-- The first slot whose operation the scan may still apply. -/
def Scan.ahead (numThreads : Nat) (scan : Scan α) : Nat :=
  scan.applied.elim (scan.index numThreads) (· + 1)

/-- How many slots are served before slot `t` by a scan that goes on at slot `a`, and by the next
one if the first has passed slot `t`. -/
def distance (numThreads t a : Nat) : Nat :=
  if a ≤ t then t - a else numThreads - a + t

section Distance

variable {numThreads t a : Nat}

theorem distance_zero : distance numThreads t 0 = t := rfl

theorem distance_end (ht : t < numThreads) : distance numThreads t numThreads = t := by
  unfold distance
  split <;> omega

theorem distance_le (ht : t < numThreads) : distance numThreads t a ≤ numThreads - 1 := by
  unfold distance
  split <;> omega

theorem distance_succ (ha : a < numThreads) (hne : a ≠ t) :
    distance numThreads t (a + 1) + 1 = distance numThreads t a := by
  unfold distance
  split <;> split <;> omega

end Distance

theorem overtakes_append (t : Tid) (es fs : List (Event α)) :
    overtakes t (es ++ fs) = overtakes t es + overtakes t fs :=
  List.countP_append

theorem overtakes_eq_zero {t : Tid} {es : List (Event α)} (h : ∀ e ∈ es, appliedSlot e = none) :
    overtakes t es = 0 :=
  List.countP_eq_zero.mpr fun e he => by simp [h e he]

/-! ### What a step does to the scan -/

/-- The moves of a scan: within a slot, the application of an operation, past a slot that is
`Done`, and past one it has served. -/
inductive ScanMove (numThreads : Nat) (g g' : Shared α) (scan scan' : Scan α)
    (es : List (Event α)) : Prop
  | within (hindex : scan'.index numThreads = scan.index numThreads)
      (happlied : scan'.applied = scan.applied)
      (hopcode : ∀ j, (g'.operations j).opcode = (g.operations j).opcode)
      (hes : ∀ e ∈ es, appliedSlot e = none)
  | apply (i : Nat) (op : Op α) (res : Res α) (hindex : scan.index numThreads = i)
      (hindex' : scan'.index numThreads = i) (hpending : scan.applied = none)
      (happlied : scan'.applied = some i)
      (hopcode : ∀ j, (g'.operations j).opcode = (g.operations j).opcode)
      (hes : es = [.act (.effect i op res)])
  | skip (i : Nat) (hscan : scan = .loadOpcode i) (hdone : (g.operations i).opcode = .done)
      (hscan' : scan' = .at numThreads (i + 1)) (hg : g' = g) (hes : es = [])
  | finish (i : Nat) (hscan : scan = .storeDone i) (hscan' : scan' = .at numThreads (i + 1))
      (hg : g' = g.setOpcode i .done) (hes : es = [])

theorem Shared.setOperation_opcode {g : Shared α} {i : Nat} {o : Operation α}
    (ho : o.opcode = (g.operations i).opcode) (j : Nat) :
    ((g.setOperation i o).operations j).opcode = (g.operations j).opcode := by
  by_cases hj : j = i
  · subst hj
    simpa using ho
  · simp [hj]

theorem scanStep_moves {numThreads ts : Nat} {g g' : Shared α} {scan scan' : Scan α}
    {es : List (Event α)} (hstep : scanStep numThreads ts g scan = some (g', scan', es)) :
    ScanMove numThreads g g' scan scan' es := by
  cases scan with
  | loadOpcode i =>
      simp only [scanStep] at hstep
      split at hstep <;> rename_i hopcode <;> cases hstep
      · exact .within rfl rfl (fun _ => rfl) (by simp)
      · exact .within rfl rfl (fun _ => rfl) (by simp)
      · exact .skip i rfl hopcode rfl rfl rfl
  | nowEnqLin i n | nowDeqLin i n =>
      simp only [scanStep, Option.ite_none_right_eq_some] at hstep
      obtain ⟨-, hstep⟩ := hstep
      cases hstep
      exact .within rfl rfl (fun _ => rfl) (by simp [appliedSlot])
  | push i n =>
      cases hstep
      exact .apply i _ _ rfl rfl rfl rfl (fun _ => rfl) rfl
  | testEmpty i =>
      simp only [scanStep] at hstep
      split at hstep <;> cases hstep
      · exact .apply i _ _ rfl rfl rfl rfl (fun _ => rfl) rfl
      · exact .within rfl rfl (fun _ => rfl) (by simp)
  | front i =>
      simp only [scanStep] at hstep
      split at hstep <;> cases hstep
      exact .within rfl rfl (fun _ => rfl) (by simp)
  | pop i n ts =>
      cases hstep
      exact .apply i _ _ rfl rfl rfl rfl (fun _ => rfl) rfl
  | copyValue i | copyEnqInv i v | copyRest i v ts =>
      cases hstep
      exact .within rfl rfl (fun _ => rfl) (by simp)
  | storeValue i n ts | storeEnqInv i n ts | storeEnqLin i n ts | storeDeqLin i ts
  | storeSuccess i b =>
      cases hstep
      exact .within rfl rfl (Shared.setOperation_opcode rfl) (by simp)
  | storeDone i =>
      cases hstep
      exact .finish i rfl rfl rfl rfl
  | unlock => cases hstep

/-- A scan that is not at its end is at a slot of the array. -/
def Local.Within (numThreads : Nat) : Local α → Prop
  | .combine _ scan => scan = .unlock ∨ scan.index numThreads < numThreads
  | _ => True

theorem Scan.within_at (numThreads i : Nat) :
    (Scan.at numThreads i : Scan α) = .unlock
      ∨ (Scan.at numThreads i : Scan α).index numThreads < numThreads := by
  unfold Scan.at
  split
  · exact .inr ‹_›
  · exact .inl rfl

theorem Scan.ahead_at {numThreads i : Nat} (hi : i ≤ numThreads) :
    (Scan.at numThreads i : Scan α).ahead numThreads = i := by
  unfold Scan.at
  split
  · rfl
  · exact (Nat.le_antisymm hi (Nat.not_lt.mp ‹_›)).symm

theorem Scan.applied_at (numThreads i : Nat) : (Scan.at numThreads i : Scan α).applied = none := by
  unfold Scan.at
  split <;> rfl

theorem ScanMove.stays_within {numThreads : Nat} {g g' : Shared α} {scan scan' : Scan α}
    {es : List (Event α)} (h : ScanMove numThreads g g' scan scan' es)
    (hscan : scan = .unlock ∨ scan.index numThreads < numThreads)
    (hunlock : scan ≠ .unlock) :
    scan' = .unlock ∨ scan'.index numThreads < numThreads := by
  have hlt := hscan.resolve_left hunlock
  cases h with
  | within hindex => exact .inr (hindex ▸ hlt)
  | apply i op res hindex hindex' => exact .inr (hindex'.trans hindex.symm ▸ hlt)
  | skip i _ _ hscan' => exact hscan' ▸ Scan.within_at numThreads (i + 1)
  | finish i _ hscan' => exact hscan' ▸ Scan.within_at numThreads (i + 1)

/-- The moves of a thread: on its own slot, taking the lock, scanning, and releasing the lock. -/
inductive Move (numThreads : Nat) (u : Tid) (g g' : Shared α) (l l' : Local α)
    (es : List (Event α)) : Prop
  | own (hscan : ∀ op scan, l' ≠ .combine op scan) (hlock : g'.lock = g.lock)
      (hopcode : ∀ j, j ≠ u → (g'.operations j).opcode = (g.operations j).opcode)
      (hwaits : l.Waits → (g.operations u).opcode ≠ .done → l'.Waits ∧ g' = g)
      (hes : ∀ e ∈ es, appliedSlot e = none)
  | acquire (op : Op α) (hl : l = .tryLock op) (hfree : g.lock = none)
      (hl' : l' = .combine op (.at numThreads 0)) (hg : g' = { g with lock := some u })
      (hes : es = [])
  | scan (op : Op α) (scan scan' : Scan α) (hl : l = .combine op scan) (hunlock : scan ≠ .unlock)
      (hl' : l' = .combine op scan') (hlock : g'.lock = g.lock)
      (hscan : ScanMove numThreads g g' scan scan' es)
  | release (op : Op α) (hl : l = .combine op .unlock) (hl' : ∀ op scan, l' ≠ .combine op scan)
      (hg : g' = { g with lock := none }) (hes : ∀ e ∈ es, appliedSlot e = none)

theorem scanStep_lock {numThreads ts : Nat} {g g' : Shared α} {scan scan' : Scan α}
    {es : List (Event α)} (hstep : scanStep numThreads ts g scan = some (g', scan', es)) :
    g'.lock = g.lock := by
  cases scan <;> simp only [scanStep] at hstep <;> (try split at hstep) <;> cases hstep <;> rfl

theorem afterApply_quiet {u : Tid} {op : Op α} {l : Local α} {es : List (Event α)}
    (h : afterApply u op = (l, es)) :
    (∀ op' scan, l ≠ .combine op' scan) ∧ ∀ e ∈ es, appliedSlot e = none := by
  cases op <;> cases h <;> simp [appliedSlot]

variable [Inhabited α] {numThreads : Nat}

theorem step_moves {u : Tid} {i : Input α} {g g' : Shared α} {l l' : Local α}
    {es : List (Event α)} (hstep : step numThreads u i g l = some (g', l', es)) :
    Move numThreads u g g' l l' es := by
  cases l with
  | idle =>
      simp only [step, Option.ite_none_right_eq_some, Option.map_eq_some_iff] at hstep
      obtain ⟨-, op, -, hstep⟩ := hstep
      cases hstep
      exact .own (by simp) rfl (fun _ _ => rfl) (by simp [Local.Waits]) (by simp [appliedSlot])
  | nowInv op =>
      simp only [step, Option.ite_none_right_eq_some] at hstep
      obtain ⟨-, hstep⟩ := hstep
      cases op <;> cases hstep <;>
        exact .own (by simp) rfl (fun _ _ => rfl) (by simp [Local.Waits]) (by simp [appliedSlot])
  | storeEnqInv item ts | storeItem item | publishEnqueue item | clearValue ts | clearSuccess ts
  | storeDeqInv ts | publishDequeue =>
      cases hstep
      exact .own (by simp) rfl
        (fun j hj => by simp [Shared.setNode, Shared.setOpcode, Shared.setSuccess, hj])
        (by simp [Local.Waits]) (by simp)
  | tryLock op =>
      simp only [step] at hstep
      split at hstep <;> rename_i hlock <;> cases hstep
      · exact .acquire op rfl hlock.1 rfl rfl rfl
      · exact .own (by simp) rfl (fun _ _ => rfl) (fun _ _ => ⟨trivial, rfl⟩) (by simp)
  | loadDone op =>
      simp only [step] at hstep
      split at hstep <;> rename_i hdone
      · obtain ⟨rfl, hafter⟩ : g = g' ∧ afterApply u op = (l', es) := by simpa using hstep
        obtain ⟨hl', hes⟩ := afterApply_quiet hafter
        exact .own hl' rfl (fun _ _ => rfl) (fun _ hbusy => absurd hdone hbusy) hes
      · cases hstep
        exact .own (by simp) rfl (fun _ _ => rfl) (fun _ _ => ⟨trivial, rfl⟩) (by simp)
  | combine op scan =>
      by_cases hunlock : scan = .unlock
      · subst hunlock
        obtain ⟨rfl, hafter⟩ : { g with lock := none } = g' ∧ afterApply u op = (l', es) := by
          simpa [step] using hstep
        obtain ⟨hl', hes⟩ := afterApply_quiet hafter
        exact .release op rfl hl' rfl hes
      · rw [step_combine hunlock, Option.map_eq_some_iff] at hstep
        obtain ⟨⟨h, scan', fs⟩, hscan, hstep⟩ := hstep
        cases hstep
        exact .scan op scan scan' rfl hunlock rfl (scanStep_lock hscan) (scanStep_moves hscan)
  | readSuccess =>
      simp only [step] at hstep
      split at hstep <;> cases hstep <;>
        exact .own (by simp) rfl (fun _ _ => rfl) (by simp [Local.Waits]) (by simp)
  | readValue | readEnqInv out | readEnqLin out ei | readDeqInv out ei el
  | logRecord out ei el di | returnSuccess out =>
      cases hstep
      exact .own (by simp) rfl (fun _ _ => rfl) (by simp [Local.Waits]) (by simp [appliedSlot])

/-! ### Waiting to be applied -/

/-- Slot `t` waits to be applied, and at most `k` operations of other slots come first. -/
structure Pending (numThreads : Nat) (t : Tid) (k : Nat)
    (c : Config (Shared α) (Local α) (Event α)) : Prop where
  waits : (c.locals t).Waits
  opcode : (c.shared.operations t).opcode ≠ .done
  free : c.shared.lock = none → t ≤ k
  scan : ∀ u op scan, c.locals u = .combine op scan →
    scan.applied ≠ some t ∧ distance numThreads t (scan.ahead numThreads) ≤ k

variable {c : Config (Shared α) (Local α) (Event α)} {t u : Tid}

def withinInvariant (α : Type) [Inhabited α] (numThreads : Nat) :
    RelyGuarantee (program α numThreads) (fun _ _ _ => True) Unit where
  glob _ := True
  loc _ _ l := l.Within numThreads
  rely _ _ _ := True
  init := ⟨(), trivial, fun _ => trivial⟩
  stable _ hl := hl
  step {x c u i g l es} _ _ hl hstep := by
    refine ⟨(), trivial, ?_, fun _ _ => trivial⟩
    have hold := hl u
    cases step_moves hstep with
    | own hscan =>
        cases l with
        | combine op scan => exact absurd rfl (hscan op scan)
        | _ => trivial
    | acquire op _ _ hl' => exact hl' ▸ Scan.within_at numThreads 0
    | scan op scan scan' hlu hunlock hl' _ hscan =>
        rw [hlu] at hold
        exact hl' ▸ hscan.stays_within hold hunlock
    | release op _ hl' =>
        cases l with
        | combine op scan => exact absurd rfl (hl' op scan)
        | _ => trivial

/-- Where the holder of the lock stands in a reachable configuration. -/
structure Holds (numThreads : Nat) (c : Config (Shared α) (Local α) (Event α)) (u : Tid)
    (scan : Scan α) : Prop where
  lock : c.shared.lock = some u
  within : scan = .unlock ∨ scan.index numThreads < numThreads
  ended : scan = .unlock → (c.shared.operations u).opcode = .done
  applied : ∀ i, scan.applied = some i → (c.shared.operations i).opcode ≠ .done

theorem holds_of_combine (hreach : (program α numThreads).Reachable c) {op : Op α} {scan : Scan α}
    (hl : c.locals u = .combine op scan) : Holds numThreads c u scan := by
  obtain ⟨x, -, hloc⟩ := (relyGuarantee α numThreads).holds hreach
  obtain ⟨_, -, hwithin⟩ := (withinInvariant α numThreads).holds hreach
  have hloc : Loc numThreads ⟨x, c.shared, c.history⟩ u (.combine op scan) := hl ▸ hloc u
  have hwithin : (Local.combine op scan).Within numThreads := hl ▸ hwithin u
  obtain ⟨hu, hlock, -, hpast, hscan⟩ := hloc
  refine ⟨hlock, hwithin, fun hend => hpast ?_, fun i happlied => ?_⟩
  · rw [hend]
    exact hu
  · cases scan with
    | storeValue _ _ _ | storeEnqInv _ _ _ | storeEnqLin _ _ _ | storeDeqLin _ _ =>
        obtain rfl := Option.some.inj happlied
        exact hscan.1.busy
    | storeSuccess _ _ =>
        obtain rfl := Option.some.inj happlied
        obtain ⟨res, hserved, -⟩ := hscan
        exact hserved.busy
    | storeDone _ =>
        obtain rfl := Option.some.inj happlied
        obtain ⟨op', res, hserved, -⟩ := hscan
        exact hserved.busy
    | _ => cases happlied

theorem publish_done (hreach : (program α numThreads).Reachable c)
    (hpublish : (c.locals t).Publishes) :
    t < numThreads ∧ (c.shared.operations t).opcode = .done := by
  obtain ⟨x, -, hloc⟩ := (relyGuarantee α numThreads).holds hreach
  have hloc : Loc numThreads ⟨x, c.shared, c.history⟩ t (c.locals t) := hloc t
  cases hl : c.locals t <;> rw [hl] at hpublish hloc
  case publishEnqueue item => exact ⟨hloc.1, hloc.2.1.opcode⟩
  case publishDequeue => exact ⟨hloc.1, hloc.2.1.opcode⟩
  all_goals exact hpublish.elim

/-- A slot that has just been published waits for at most all the others. -/
theorem pending_publish {i : Input α} {c' : Config (Shared α) (Local α) (Event α)}
    (hreach : (program α numThreads).Reachable c) (hpublish : (c.locals t).Publishes)
    (hnext : (program α numThreads).next c t i = some c') :
    Pending numThreads t (numThreads - 1) c' := by
  obtain ⟨ht, hdone⟩ := publish_done hreach hpublish
  obtain ⟨g, l, es, hstep, rfl⟩ := Program.next_eq_some hnext
  obtain ⟨hwaits, hbusy, hscan, hlock⟩ : l.Waits ∧ (g.operations t).opcode ≠ .done
      ∧ (∀ op scan, l ≠ .combine op scan) ∧ g.lock = c.shared.lock := by
    have hstep : step numThreads t i c.shared (c.locals t) = some (g, l, es) := hstep
    cases hl : c.locals t <;> rw [hl] at hpublish hstep
    case publishEnqueue item =>
      cases hstep
      exact ⟨trivial, by simp [Shared.setOpcode], by simp, rfl⟩
    case publishDequeue =>
      cases hstep
      exact ⟨trivial, by simp [Shared.setOpcode], by simp, rfl⟩
    all_goals exact hpublish.elim
  refine ⟨by simpa using hwaits, hbusy, fun _ => Nat.le_sub_one_of_lt ht, fun v op scan hv => ?_⟩
  have hvt : v ≠ t := by
    rintro rfl
    exact hscan op scan (by simpa using hv)
  have hholds := holds_of_combine hreach (u := v) (by simpa [hvt] using hv)
  exact ⟨fun happlied => hholds.applied t happlied hdone, distance_le ht⟩

theorem Pending.step {k : Nat} {i : Input α} {g : Shared α} {l : Local α} {es : List (Event α)}
    (hp : Pending numThreads t k c) (hreach : (program α numThreads).Reachable c)
    (ht : t < numThreads) (hstep : step numThreads u i c.shared (c.locals u) = some (g, l, es))
    (hes : ∀ op res, .act (.effect t op res) ∉ es) :
    ∃ k', overtakes t es + k' = k
      ∧ Pending numThreads t k' ⟨g, Function.update c.locals u l, c.history ++ es⟩ := by
  have halone : ∀ v, c.shared.lock = some u ∨ c.shared.lock = none → v ≠ u →
      ∀ op scan, c.locals v ≠ .combine op scan := by
    intro v hlock hv op scan hl
    rcases hlock with hlock | hlock <;> rw [(holds_of_combine hreach hl).lock] at hlock
    · exact hv (Option.some.inj hlock)
    · cases hlock
  cases step_moves hstep with
  | own hscan hlock hopcode hwaits hquiet =>
      refine ⟨k, by simp [overtakes_eq_zero hquiet], ?_, ?_, ?_, fun v op scan hv => ?_⟩
      · by_cases htu : t = u
        · subst htu
          simpa using (hwaits hp.waits hp.opcode).1
        · simpa [htu] using hp.waits
      · by_cases htu : t = u
        · subst htu
          simpa [(hwaits hp.waits hp.opcode).2] using hp.opcode
        · simpa [hopcode t htu] using hp.opcode
      · simpa [hlock] using hp.free
      · have hvu : v ≠ u := by
          rintro rfl
          exact hscan op scan (by simpa using hv)
        exact hp.scan v op scan (by simpa [hvu] using hv)
  | acquire op hl hfree hl' hg hnil =>
      subst hl' hg hnil
      refine ⟨k, by simp [overtakes], ?_, hp.opcode, by simp, fun v op' scan hv => ?_⟩
      · by_cases htu : t = u
        · subst htu
          simp [Local.Waits]
        · simpa [htu] using hp.waits
      · by_cases hvu : v = u
        · subst hvu
          obtain ⟨rfl, rfl⟩ : op = op' ∧ Scan.at numThreads 0 = scan := by simpa using hv
          rw [Scan.applied_at, Scan.ahead_at (Nat.zero_le _), distance_zero]
          exact ⟨by simp, hp.free hfree⟩
        · exact absurd (by simpa [hvu] using hv) (halone v (.inr hfree) hvu op' scan)
  | scan op scan scan' hl hunlock hl' hlock hmove =>
      subst hl'
      have hholds := holds_of_combine hreach hl
      have hlt := hholds.within.resolve_left hunlock
      obtain ⟨happlied, hdistance⟩ := hp.scan u op scan hl
      obtain ⟨k', hk', hopcode, happlied', hdistance'⟩ : ∃ k', overtakes t es + k' = k
          ∧ (g.operations t).opcode ≠ .done ∧ scan'.applied ≠ some t
          ∧ distance numThreads t (scan'.ahead numThreads) ≤ k' := by
        cases hmove with
        | within hindex heq hopcode hquiet =>
            refine
              ⟨k, by simp [overtakes_eq_zero hquiet], hopcode t ▸ hp.opcode, heq ▸ happlied, ?_⟩
            rwa [Scan.ahead, heq, hindex]
        | apply j op' res hindex hindex' hnone heq hopcode hsingle =>
            subst hsingle
            have hjt : j ≠ t := by
              rintro rfl
              exact hes op' res (by simp)
            rw [Scan.ahead, hnone, Option.elim_none, hindex] at hdistance
            have hsucc : distance numThreads t (j + 1) + 1 = distance numThreads t j :=
              distance_succ (hindex ▸ hlt) hjt
            refine ⟨k - 1, ?_, hopcode t ▸ hp.opcode, by simpa [heq] using hjt, ?_⟩
            · simp [overtakes, appliedSlot, hjt]
              omega
            · rw [Scan.ahead, heq, Option.elim_some]
              omega
        | skip j hscan hdone hscan' hg hnil =>
            subst hscan hscan' hg hnil
            have hjt : j ≠ t := by
              rintro rfl
              exact hp.opcode hdone
            have hj : j < numThreads := hlt
            have hsucc := distance_succ hj hjt
            refine ⟨k, by simp [overtakes], hp.opcode, by simp [Scan.applied_at], ?_⟩
            have hold : distance numThreads t j ≤ k := hdistance
            rw [Scan.ahead_at (i := j + 1) hj]
            omega
        | finish j hscan hscan' hg hnil =>
            subst hscan hscan' hg hnil
            have hjt : t ≠ j := by
              rintro rfl
              exact happlied rfl
            have hj : j < numThreads := hlt
            refine ⟨k, by simp [overtakes], by simpa [Shared.setOpcode, hjt] using hp.opcode,
              by simp [Scan.applied_at], ?_⟩
            rw [Scan.ahead_at (i := j + 1) hj]
            exact hdistance
      refine ⟨k', hk', ?_, hopcode, fun hfree => ?_, fun v op' scan'' hv => ?_⟩
      · by_cases htu : t = u
        · subst htu
          simp [Local.Waits]
        · simpa [htu] using hp.waits
      · rw [hlock, hholds.lock] at hfree
        cases hfree
      · by_cases hvu : v = u
        · subst hvu
          obtain ⟨-, rfl⟩ : op = op' ∧ scan' = scan'' := by simpa using hv
          exact ⟨happlied', hdistance'⟩
        · exact absurd (by simpa [hvu] using hv) (halone v (.inl hholds.lock) hvu op' scan'')
  | release op hl hl' hg hquiet =>
      subst hg
      have hholds := holds_of_combine hreach hl
      have htu : t ≠ u := by
        rintro rfl
        exact hp.opcode (hholds.ended rfl)
      refine ⟨k, by simp [overtakes_eq_zero hquiet], by simpa [htu] using hp.waits, hp.opcode,
        fun _ => ?_, fun v op' scan hv => ?_⟩
      · have hdistance := (hp.scan u op .unlock hl).2
        rwa [show (Scan.unlock : Scan α).ahead numThreads = numThreads from rfl,
          distance_end ht] at hdistance
      · by_cases hvu : v = u
        · subst hvu
          exact absurd (by simpa using hv) (hl' op' scan)
        · exact absurd (by simpa [hvu] using hv) (halone v (.inl hholds.lock) hvu op' scan)

theorem Pending.exec {k : Nat} (hp : Pending numThreads t k c)
    (hreach : (program α numThreads).Reachable c) (ht : t < numThreads)
    {sched : List (Tid × Input α)} {c' : Config (Shared α) (Local α) (Event α)}
    (hexec : (program α numThreads).exec c sched = some c') {es : List (Event α)}
    (hhistory : c'.history = c.history ++ es) (hes : ∀ op res, .act (.effect t op res) ∉ es) :
    overtakes t es ≤ k := by
  induction sched generalizing c es k with
  | nil =>
      obtain rfl : c = c' := by simpa [Program.exec] using hexec
      obtain rfl : es = [] := by simpa using hhistory
      exact Nat.zero_le k
  | cons head rest ih =>
      obtain ⟨u, i⟩ := head
      obtain ⟨d, hnext, hrest⟩ := Option.bind_eq_some_iff.mp hexec
      have hreach' : (program α numThreads).Reachable d := hreach.step trivial hnext
      obtain ⟨g, l, fs, hstep, rfl⟩ := Program.next_eq_some hnext
      obtain ⟨gs, hgs⟩ := Program.exec_history hrest
      obtain rfl : es = fs ++ gs := by
        rw [hgs, List.append_assoc] at hhistory
        exact (List.append_cancel_left hhistory).symm
      obtain ⟨k', hk', hp'⟩ := hp.step hreach ht hstep
        fun op res hmem => hes op res (List.mem_append_left _ hmem)
      have hle := ih hp' hreach' hrest hgs
        fun op res hmem => hes op res (List.mem_append_right _ hmem)
      rw [overtakes_append]
      omega

/-- **Overtaking is bounded.** From the step that stores the opcode of slot `t` until its operation
is applied, at most `numThreads - 1` operations of other slots are applied. -/
theorem overtakes_le (hreach : (program α numThreads).Reachable c)
    (hpublish : (c.locals t).Publishes) {i : Input α}
    {c₁ c₂ : Config (Shared α) (Local α) (Event α)}
    (hnext : (program α numThreads).next c t i = some c₁) {sched : List (Tid × Input α)}
    (hexec : (program α numThreads).exec c₁ sched = some c₂) {es : List (Event α)}
    (hhistory : c₂.history = c₁.history ++ es)
    (hpending : ∀ op res, .act (.effect t op res) ∉ es) :
    overtakes t es ≤ numThreads - 1 :=
  (pending_publish hreach hpublish hnext).exec (hreach.step trivial hnext)
    (publish_done hreach hpublish).1 hexec hhistory hpending

/-- Thread 1 publishes its call and scans past slot 0, which thread 0 is about to publish. -/
def passedSchedule : List (Tid × Input Nat) :=
  List.replicate 4 (0, { op := some (.enqueue 7) })
    ++ List.replicate 7 (1, { op := some (.enqueue 8) })

/-- The scan goes on to apply slot 1 first. -/
theorem overtakes_le_passed :
    ∃ c c₁ c₂ es, (program Nat 2).Reachable c ∧ (c.locals 0).Publishes
      ∧ (program Nat 2).next c 0 {} = some c₁
      ∧ (program Nat 2).exec c₁ (List.replicate 6 (1, {})) = some c₂
      ∧ c₂.history = c₁.history ++ es ∧ overtakes 0 es = 1 ∧ overtakes 0 es ≤ 2 - 1 := by
  have hrun : ((program Nat 2).exec (program Nat 2).init passedSchedule).bind (fun c =>
      ((program Nat 2).next c 0 {}).bind fun c₁ =>
      ((program Nat 2).exec c₁ (List.replicate 6 (1, {}))).map fun c₂ =>
      (match c.locals 0 with | .publishEnqueue _ => true | _ => false,
        c₂.history == c₁.history ++ [.lin 1 0, .act (.effect 1 (.enqueue 8) .enqueued)]))
      = some (true, true) := by
    decide
  obtain ⟨c, hexec, hrun⟩ := Option.bind_eq_some_iff.mp hrun
  obtain ⟨c₁, hnext, hrun⟩ := Option.bind_eq_some_iff.mp hrun
  obtain ⟨c₂, hexec₂, heq⟩ := Option.map_eq_some_iff.mp hrun
  obtain ⟨hl, hhistory⟩ := Prod.mk.inj heq
  have hreach : (program Nat 2).Reachable c := .exec (fun _ _ _ => trivial) .init hexec
  have hpublish : (c.locals 0).Publishes := by
    split at hl
    · simp_all [Local.Publishes]
    · cases hl
  exact ⟨c, c₁, c₂, _, hreach, hpublish, hnext, hexec₂, by simpa using hhistory, by decide,
    overtakes_le hreach hpublish hnext hexec₂ (by simpa using hhistory) (by simp)⟩

end QueueFairness.FlatCombiningQueue
