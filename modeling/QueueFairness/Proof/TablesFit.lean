import QueueFairness.Proof.DriverRuns
import QueueFairness.Proof.FAAArrayDrain
import QueueFairness.Proof.LPRQueueSequential

/-!
# The threads that the tables have room for

The tables of hazard pointers have rows for 128 threads, and nothing keeps the driver from starting
more. It does harm when one of them comes to call a queue that has such a table. For that the
program has to get to a run on 129 threads, the operations of which make up at least one call a
thread, and the runs before have to come to their ends. When there are no operations, the queue is
still filled and destroyed: the destructor of the array queue then goes through the rows of all
threads.
-/

namespace QueueFairness.BenchmarkDriver

open Interleaving HazardPointers Workloads
open Args
  (Options allQueues parseArgs parseArgs_spec queuesOf trialsOf opsOf threadsOf threadsOf_lt)

variable {S : Shuffle} {O : Outcomes S} {opts : Options} {q w : String} {T k n a m : Nat} {t : Tid}
  {r : Run}

/-- What thread `t` of a run gets at is in the arrays, and its row is one of those that retiring
threads look at. -/
structure RunFits (S : Shuffle) (O : Outcomes S) (opts : Options) (r : Run) (t : Tid) : Prop where
  lprq : r.qname = "lprq" → ∀ c, (makeLPRQueue r.numThreads).Reach (r.OnRing S O opts) c →
    ∀ a ∈ (c.locals t).tableAccesses t, a.InBounds ∧ t < LinkedRingQueue.defaultMaxThreads
  faa : r.qname = "faa" → ∀ c, (makeFAAArrayQueue r.numThreads).Reach (r.OnArray S O opts) c →
    ∀ a ∈ (c.locals t).tableAccesses t, a.InBounds ∧ t < r.numThreads

/-- Every thread that is started on one of the two queues fits the tables. -/
def TablesFit (S : Shuffle) (O : Outcomes S) (prog : String) (args : List String) : Prop :=
  ∀ opts, Args.parseArgs prog args = .ok opts → ∀ r, ComesTo S O opts r (runs opts) →
    ∀ t < r.numThreads, RunFits S O opts r t

/-! ### Threads that fit -/

/-- The first 128 threads have their rows, and the ring queue looks at no others. -/
theorem fits_ring (ht : t < hpMaxThreads) :
    ∀ c, (makeLPRQueue r.numThreads).Reach (r.OnRing S O opts) c →
      ∀ a ∈ (c.locals t).tableAccesses t, a.InBounds ∧ t < LinkedRingQueue.defaultMaxThreads :=
  fun _ hc a ha =>
    ⟨LinkedRingQueue.Reach.tableAccesses_inBounds hc (Nat.le_refl 128) ht a ha, ht⟩

/-- The threads of a run on 128 at most fit. -/
theorem fits_of_le (hT : r.numThreads ≤ 128) (ht : t < r.numThreads) : RunFits S O opts r t where
  lprq _ := fits_ring (Nat.lt_of_lt_of_le ht hT)
  faa _ _ hc a ha :=
    ⟨FAAArrayQueue.Reach.tableAccesses_inBounds hc hT (Nat.lt_of_lt_of_le ht hT) a ha, ht⟩

/-- A thread that makes no call does not come to the tables. -/
theorem fits_of_no_calls (hcalls : (r.script S opts t).filterMap id = [])
    (hnever : t = 0 → ¬ r.Finishes S O opts) : RunFits S O opts r t := by
  have hnone : ∀ {made busy found call}, ¬ (r.MayCall S opts made busy t call
      ∨ r.MayDrain S O opts made busy found t call) := by
    rintro made busy found call (⟨hcall, -⟩ | ⟨h0, -, hfinishes, -⟩)
    · rw [hcalls] at hcall
      cases hcall
    · exact hnever h0 hfinishes
  constructor
  · intro _ c hc a ha
    have hidle : c.locals t = .idle := by
      refine hc.thread (K := (· = .idle)) rfl fun {d i g l es} hok hstep hl => ?_
      rw [hl] at hstep
      obtain ⟨op, hop, -⟩ := Option.map_eq_some_iff.mp hstep
      obtain ⟨call, -, hmay⟩ := hok hl op hop
      exact absurd hmay hnone
    rw [hidle] at ha
    cases ha
  · intro _ c hc a ha
    have hidle : c.locals t = .idle := by
      refine hc.thread (K := (· = .idle)) rfl fun {d i g l es} hok hstep hl => ?_
      rw [hl] at hstep
      obtain ⟨op, hop, -⟩ := Option.map_eq_some_iff.mp hstep
      exact absurd (hok hl op hop) hnone
    rw [hidle] at ha
    cases ha

/-- When no thread makes a call, the destructor retires nothing. -/
theorem fits_of_unfilled (hcalls : ∀ u, (r.script S opts u).filterMap id = [])
    (hT : 0 < r.numThreads) : RunFits S O opts r 0 where
  lprq _ := fits_ring (by decide)
  faa _ c hc a ha := by
    refine ⟨(FAAArrayQueue.Reach.draws (fun {c t i op} hok hidle hop => ?_) hc).inBounds a ha, hT⟩
    rcases hok hidle op hop with ⟨hcall, -⟩ | ⟨h0, hdequeue, -⟩
    · rw [hcalls] at hcall
      cases hcall
    · cases op with
      | enqueue => cases hdequeue
      | dequeue => exact ⟨h0, rfl⟩

/-- A thread that has no share of the calls fits, unless the array queue was filled. -/
theorem fits_of_no_share (hops : opts.ops = n) (hfits : T * n < 2 ^ 31)
    (hshare : callsMade (workloadOf w) n T = 0) (hq : q = "faa" → w = "enqueueheavy") (ht : t < T) :
    RunFits S O opts ⟨q, w, T, k⟩ t := by
  have hnone : ∀ u, (u ≠ 0 ∨ w = "enqueueheavy") →
      (Run.script S opts ⟨q, w, T, k⟩ u).filterMap id = [] := by
    intro u hu
    rcases Nat.lt_or_ge u T with hlt | hge
    · obtain ⟨a, m, ops, hscript, hparts⟩ :=
        script_eq (S := S) (q := q) (w := w) (k := k) hops hfits hlt
      obtain ⟨rfl, rfl⟩ := hu.elim hparts.first hparts.heavy
      obtain rfl : ops = [] := List.length_eq_zero_iff.mp (hparts.length.trans hshare)
      rw [hscript, calls_scriptOf]
      rfl
    · rw [Run.script, if_neg (Nat.not_lt.mpr hge)]
      rfl
  by_cases h0 : t = 0
  · subst h0
    refine ⟨fun _ => fits_ring (by decide), fun hname => ?_⟩
    exact (fits_of_unfilled (fun u => hnone u (.inr (hq hname))) ht).faa hname
  · exact fits_of_no_calls (hnone t (.inl h0)) fun h => absurd h h0

/-- One operation a thread, for the enqueues of two in three, is less than an enqueue for each. -/
theorem callsMade_one (hT : 2 ≤ T) : callsMade (workloadOf "enqueueheavy") 1 T = 0 := by
  change (T * 1 * 67 + 50) / 100 / T + (T * 1 - (T * 1 * 67 + 50) / 100) / T = 0
  rw [Nat.div_eq_of_lt (by omega), Nat.div_eq_of_lt (by omega)]

theorem callsMade_pos (hn : 2 ≤ n) (hT : 0 < T) :
    0 < callsMade (workloadOf "enqueueheavy") n T := by
  have hleast := le_div_add_div hT (Nat.add_sub_of_le (enqueues_le .enqueueHeavy (T * n)))
  have hcalls : callsMade (workloadOf "enqueueheavy") n T = enqueues .enqueueHeavy (T * n) / T
      + (T * n - enqueues .enqueueHeavy (T * n)) / T := rfl
  omega

/-! ### Threads that do not -/

/-- A step inside a call makes no other. -/
theorem ringCaller_of_busy {σ κe κd : Type} {R : SegmentType σ κe κd} {maxThreads : Nat}
    {i : LinkedRingQueue.Input} {g g' : LinkedRingQueue.Shared σ}
    {l l' : LinkedRingQueue.Local κe κd} {es : List LinkedRingQueue.Event} (hl : l ≠ .idle)
    (hstep : LinkedRingQueue.step R maxThreads t i g l = some (g', l', es)) :
    ∀ e ∈ es, ringCaller e = none := by
  intro e he
  cases l with
  | idle => exact absurd rfl hl
  | enqSegment item s le =>
      obtain rfl := congrArg (·.2.2) (Option.some.inj hstep)
      obtain ⟨e, -, rfl⟩ := List.mem_map.mp he
      rfl
  | enqNewSegment item ltail s le =>
      obtain rfl := congrArg (·.2.2) (Option.some.inj hstep)
      obtain ⟨e, -, rfl⟩ := List.mem_map.mp he
      rfl
  | deqSegment s ld | deqSegmentAgain s lnext ld =>
      obtain rfl := congrArg (·.2.2) (Option.some.inj hstep)
      obtain ⟨e, -, rfl⟩ := List.mem_map.mp he
      rfl
  | enqNew | enqCasNext | sizeClear | enqReload | enqLoadNext | enqHelpTail | deqReload
  | deqLoadNext | deqCasHead | sizeProtectHead | sizeProtectTail =>
      simp only [LinkedRingQueue.step] at hstep
      split at hstep <;> cases hstep <;> simp_all [ringCaller]
  | _ =>
      cases hstep
      simp_all [ringCaller]

/-- A step inside a call makes no other. -/
theorem arrayCaller_of_busy {L : Layout} {maxThreads : Nat} {i : FAAArrayQueue.Input}
    {g g' : FAAArrayQueue.Shared} {l l' : FAAArrayQueue.Local} {es : List FAAArrayQueue.Event}
    (hl : l ≠ .idle) (hstep : FAAArrayQueue.step L maxThreads t i g l = some (g', l', es)) :
    ∀ e ∈ es, arrayCaller e = none := by
  intro e he
  cases l with
  | idle => exact absurd rfl hl
  | enqProtect | enqFetchAdd | enqCheckTail | enqLoadNext | enqNewNode | enqCasNext | deqProtect
  | deqFetchAdd | deqLoadNext | deqCasHead | deqLoadEnqidx | deqSpin | deqExchange
  | deqReloadEnqidx | deqCheckNext =>
      simp only [FAAArrayQueue.step] at hstep
      split at hstep <;> cases hstep <;> simp_all [arrayCaller]
  | enqCasCell | deqLoadCell =>
      simp only [FAAArrayQueue.step] at hstep
      split at hstep
      · cases hstep
      split at hstep <;> cases hstep <;> simp_all [arrayCaller]
  | _ =>
      cases hstep
      simp_all [arrayCaller]

section Filled

variable {ops : List Call} (hops : opts.ops = n) (hfits : T * n < 2 ^ 31)
  (hfirst : Run.script S opts ⟨q, w, T, k⟩ 0 = scriptOf a m ops)

include hops hfits hfirst

/-- The ring queue can come to be filled. -/
theorem exists_ring_filled : ∃ c, (makeLPRQueue T).Alone (Run.OnRing S O opts ⟨q, w, T, k⟩)
    ringCaller (a + m) c ∧ c.locals 0 = .idle := by
  let calls : List (Tid × LinkedRingQueue.Op) := List.replicate (a + m) (0, .enqueue 0)
  have hinit := LinkedRingQueue.answered_init (PRQueue.sequential ringLayout)
    LinkedRingQueue.defaultMaxThreads
  have hserves : (makeLPRQueue T).Serves _ _ _ _ :=
    (PRQueue.sequential ringLayout).serves hinit calls
  rw [List.map_replicate] at hserves
  have hcall : ∀ {c : Config _ _ _}, (∀ u, c.locals u = .idle) →
      c.history.countP (ringCaller · = some 0) < a + m →
      (∀ u, u ≠ 0 → c.history.countP (ringCaller · = some u) = 0) →
      Run.OnRing S O opts ⟨q, w, T, k⟩ c 0 { op := some (.enqueue 0) } := by
    rintro c hidle hmade hothers - op hop
    obtain rfl := Option.some.inj hop
    refine ⟨.enqueue, rfl, .inl (mayCall_fill hops hfits hfirst hothers (fun u => ?_) hmade)⟩
    exact decide_eq_false fun hbusy => hbusy (hidle u)
  obtain ⟨c, halone, hidle, -, -⟩ := hserves.exists_alone (I := fun _ _ => True) hcall
    (fun hbusy hidle => absurd hidle hbusy) (fun hstep => by cases hstep; rfl) ringCaller_of_busy
    trivial (fun _ _ _ => trivial)
  exact ⟨c, halone, hidle⟩

/-- The array queue can come to be filled. -/
theorem exists_array_filled : ∃ c, (makeFAAArrayQueue T).Alone (Run.OnArray S O opts ⟨q, w, T, k⟩)
    arrayCaller (a + m) c ∧ c.locals 0 = .idle ∧ FAAArrayQueue.Filling c.shared .idle
      ∧ FAAArrayQueue.Sequential.Contains nodeLayout (a + m) c.shared
        (List.replicate (a + m) 0) := by
  have hserves : (FAAArrayQueue.sizedProgram nodeLayout T).Serves _ _ _ _ :=
    FAAArrayQueue.Sequential.serves_enqueues (a := 0) (t := 0) (by decide)
      (FAAArrayQueue.Sequential.answered_init nodeLayout T) (a + m)
  have hqueue : (makeFAAArrayQueue T).Serves _
      (List.replicate (a + m) (0, { op := some (.enqueue 0) })) _ (makeFAAArrayQueue T).init :=
    FAAArrayQueue.Sequential.serves_queue (by rwa [List.map_replicate])
  have hcall : ∀ {c : Config _ _ _}, (∀ u, c.locals u = .idle) →
      c.history.countP (arrayCaller · = some 0) < a + m →
      (∀ u, u ≠ 0 → c.history.countP (arrayCaller · = some u) = 0) →
      Run.OnArray S O opts ⟨q, w, T, k⟩ c 0 { op := some (.enqueue 0) } := by
    rintro c hidle hmade hothers - op hop
    obtain rfl := Option.some.inj hop
    refine .inl (mayCall_fill hops hfits hfirst hothers (fun u => ?_) hmade)
    exact decide_eq_false fun hbusy => hbusy (hidle u)
  obtain ⟨c, halone, hidle, hfilling, hcontains⟩ := hqueue.exists_alone
    (I := FAAArrayQueue.Filling) hcall (fun hbusy hidle => absurd hidle hbusy)
    (fun hstep => by cases hstep; rfl) arrayCaller_of_busy
    ⟨trivial, fun _ _ _ => rfl, fun _ => rfl, rfl⟩
    (fun hi hstep h => FAAArrayQueue.filling_step h (fun hl => ⟨0, by rw [hi hl]⟩) hstep)
  exact ⟨c, halone, hidle, hfilling, by simpa [FAAArrayQueue.Sequential.sized] using hcontains⟩

/-- When the queue is filled, a thread of the run that has a share can make its first call. -/
theorem mayCall_of_alone {σ κ ι ε : Type} [DecidableEq κ] {P : Program σ κ ι ε}
    {ok : Config σ κ ε → Tid → ι → Prop} {caller : ε → Option Tid} {c : Config σ κ ε}
    (h : P.Alone ok caller (a + m) c) (hidle : c.locals 0 = P.idle) (h0 : t ≠ 0) (ht : t < T)
    (hshare : 0 < callsMade (workloadOf w) n T) :
    ∃ call, Run.MayCall S opts ⟨q, w, T, k⟩ (fun u => c.history.countP (caller · = some u))
      (fun u => c.locals u ≠ P.idle) t call := by
  refine mayCall_share hops hfits hfirst (fun u hu => ?_) (fun u => ?_) ?_ h0 ht hshare
  · rw [h.count, if_neg hu]
  · exact decide_eq_false fun hbusy => hbusy (h.idle hidle u)
  · rw [h.count, if_pos rfl]

end Filled

section Rows

variable (hops : opts.ops = n) (hfits : T * n < 2 ^ 31)
  (hshare : 0 < callsMade (workloadOf w) n T) (h0 : t ≠ 0) (ht : t < T)

include hops hfits hshare h0 ht

/-- On the ring queue, every other thread comes to its row. -/
theorem exists_ring_access : ∃ c, (makeLPRQueue T).Reach (Run.OnRing S O opts ⟨q, w, T, k⟩) c
    ∧ ∃ a ∈ (c.locals t).tableAccesses t, ∃ index, a = slotOf t index := by
  obtain ⟨a, m, ops, hfirst, -⟩ := script_eq (S := S) (q := q) (w := w) (k := k) hops hfits
    (Nat.zero_lt_of_lt ht)
  obtain ⟨c, halone, hidle⟩ := exists_ring_filled (O := O) hops hfits hfirst
  obtain ⟨call, hmay⟩ := mayCall_of_alone hops hfits hfirst halone hidle h0 ht hshare
  have hstands : c.locals t = .idle := halone.idle hidle t
  have hok : ∀ op, ringCall op = some call →
      Run.OnRing S O opts ⟨q, w, T, k⟩ c t { op := some op } := by
    intro op hop _ op' hop'
    obtain rfl := Option.some.inj hop'
    exact ⟨call, hop, .inl hmay⟩
  have hinside : ∀ {d}, Run.OnRing S O opts ⟨q, w, T, k⟩ d t {} := fun _ op hop => by cases hop
  cases call with
  | enqueue =>
      obtain ⟨d, hreach, hl⟩ := halone.reach.two_steps (hok (.enqueue 0) rfl) (by rw [hstands]; rfl)
        hinside rfl
      exact ⟨d, hreach, slotOf t kHpTail, by simp [hl, LinkedRingQueue.Local.tableAccesses], _, rfl⟩
  | dequeue =>
      obtain ⟨d, hreach, hl⟩ := halone.reach.two_steps (hok .dequeue rfl) (by rw [hstands]; rfl)
        hinside rfl
      exact ⟨d, hreach, slotOf t kHpHead, by simp [hl, LinkedRingQueue.Local.tableAccesses], _, rfl⟩

/-- On the array queue, every other thread comes to its row. -/
theorem exists_array_access : ∃ c, (makeFAAArrayQueue T).Reach (Run.OnArray S O opts ⟨q, w, T, k⟩) c
    ∧ ∃ a ∈ (c.locals t).tableAccesses t, ∃ index, a = slotOf t index := by
  obtain ⟨a, m, ops, hfirst, -⟩ := script_eq (S := S) (q := q) (w := w) (k := k) hops hfits
    (Nat.zero_lt_of_lt ht)
  obtain ⟨c, halone, hidle, -⟩ := exists_array_filled (O := O) hops hfits hfirst
  obtain ⟨call, hmay⟩ := mayCall_of_alone hops hfits hfirst halone hidle h0 ht hshare
  have hstands : c.locals t = .idle := halone.idle hidle t
  have hok : ∀ op, arrayCall op = call →
      Run.OnArray S O opts ⟨q, w, T, k⟩ c t { op := some op } := by
    intro op hop _ op' hop'
    obtain rfl := Option.some.inj hop'
    exact .inl (hop ▸ hmay)
  have hinside : ∀ {d}, Run.OnArray S O opts ⟨q, w, T, k⟩ d t {} := fun _ op hop => by cases hop
  cases call with
  | enqueue =>
      have hpublish : ∃ d, (makeFAAArrayQueue T).Reach (Run.OnArray S O opts ⟨q, w, T, k⟩) d
          ∧ d.locals t = .enqPublish 0 c.shared.tail :=
        halone.reach.two_steps (hok (.enqueue 0) rfl) (by rw [hstands]; rfl) hinside rfl
      obtain ⟨d, hreach, hl⟩ := hpublish
      exact ⟨d, hreach, slotOf t kHpTail, by simp [hl, FAAArrayQueue.Local.tableAccesses], _, rfl⟩
  | dequeue =>
      have hpublish : ∃ d, (makeFAAArrayQueue T).Reach (Run.OnArray S O opts ⟨q, w, T, k⟩) d
          ∧ d.locals t = .deqPublish c.shared.head :=
        halone.reach.two_steps (hok .dequeue rfl) (by rw [hstands]; rfl) hinside rfl
      obtain ⟨d, hreach, hl⟩ := hpublish
      exact ⟨d, hreach, slotOf t kHpHead, by simp [hl, FAAArrayQueue.Local.tableAccesses], _, rfl⟩

omit h0 in
/-- A thread that has no row does not fit, when it has a share of the calls. -/
theorem not_fits (hq : q = "lprq" ∨ q = "faa") (hrow : hpMaxThreads ≤ t) :
    ¬ RunFits S O opts ⟨q, w, T, k⟩ t := by
  intro h
  have h0 : t ≠ 0 := fun heq => absurd (heq ▸ hrow) (by decide)
  have hout : ∀ {index}, ¬ (slotOf t index).InBounds := fun hin =>
    absurd (inBounds_slotOf.mp hin).1 (Nat.not_lt.mpr hrow)
  rcases hq with rfl | rfl
  · obtain ⟨c, hc, a, ha, index, rfl⟩ := exists_ring_access hops hfits hshare h0 ht
    exact hout (h.lprq rfl c hc _ ha).1
  · obtain ⟨c, hc, a, ha, index, rfl⟩ := exists_array_access hops hfits hshare h0 ht
    exact hout (h.faa rfl c hc _ ha).1

end Rows

/-- When the queue is filled and the threads have no shares, the destructor makes its calls. -/
theorem onArray_of_draining {N : Nat}
    {c : Config FAAArrayQueue.Shared FAAArrayQueue.Local FAAArrayQueue.Event}
    (hfinishes : Run.Finishes S O opts ⟨q, w, T, k⟩)
    (hcalls : ∀ u, ((Run.script S opts ⟨q, w, T, k⟩ u).filterMap id).length
      = if u = 0 then N else 0)
    (hc : FAAArrayQueue.Draining nodeLayout T (Run.OnArray S O opts ⟨q, w, T, k⟩) N c) :
    Run.OnArray S O opts ⟨q, w, T, k⟩ c 0 { op := some .dequeue } := by
  obtain ⟨⟨j, hj, halone, hlast⟩, hidle, -⟩ := hc
  rintro - op hop
  obtain rfl := Option.some.inj hop
  refine .inr ⟨rfl, rfl, hfinishes, fun u _ => ⟨?_, ?_⟩, hlast.imp_left fun heq => ?_⟩
  · have hlocal : c.locals u = .idle := halone.idle hidle u
    simp [hlocal]
  · refine (hcalls u).le.trans (le_of_le_of_eq ?_ (halone.count u).symm)
    split <;> omega
  · exact (halone.count 0).trans (by rw [hcalls, heq])

/-- The destructor of an array queue that was filled does not fit, when it is made for threads that
have no row. -/
theorem not_fits_of_zero (hops : opts.ops = 0) (hlarge : 128 < T) :
    ¬ RunFits S O opts ⟨"faa", "pair", T, k⟩ 0 := by
  intro h
  have hT : 0 < T := Nat.zero_lt_of_lt hlarge
  obtain ⟨a, m, hfirst, hleast, hmost, hcalls⟩ :=
    script_pair_of_zero (S := S) (q := "faa") (k := k) hops hT
  obtain ⟨c, halone, hidle, hfilling, front, off, d, ys, off', d', zs, hitems, hd, -, hr⟩ :=
    exists_array_filled (O := O) (n := 0) hops (by omega) hfirst
  have hsize : nodeLayout.size = 1024 := rfl
  obtain ⟨n, m', front, rfl⟩ := FAAArrayQueue.exists_two hr (by
    rw [← hitems, List.length_replicate]
    omega)
  have hdraining : FAAArrayQueue.Draining nodeLayout T _ (a + m) c :=
    ⟨⟨a + m, Nat.le_refl _, halone, .inl rfl⟩, hidle, hfilling.all_clear⟩
  have hfinishes : Run.Finishes S O opts ⟨"faa", "pair", T, k⟩ := finishes_of_zero hops hT
  obtain ⟨c', hreach, hscan⟩ := hdraining.exists_scan (onArray_of_draining hfinishes hcalls)
    (fun _ _ _ hop => by cases hop) hr hfilling.retired (by omega) hlarge
  have hin := (h.faa rfl c' hreach (slotOf 128 kHpHead) (by
    simp [hscan, FAAArrayQueue.Local.tableAccesses, Scan.tableAccesses])).1
  exact absurd (inBounds_slotOf.mp hin).1 (by decide)

/-! ### The command lines -/

/-- The first of the queues that the program knows. -/
def firstQueue (queues : List String) : Option String := queues.find? (· ∈ allQueues)

/-- The queues before the first that has a table. -/
def queuesBefore (queues : List String) : List String :=
  queues.takeWhile fun q => q ≠ "lprq" ∧ q ≠ "faa"

/-- The figures of a run on the queues before cannot be computed, whatever records it leaves. -/
def FiguresOverflow (O : Outcomes S) (opts : Options) : Prop :=
  ∃ q ∈ queuesBefore opts.queues, ∃ r ∈ runsOn opts q,
    ∀ records, O.Leaves opts r records → reported r.numThreads records = none

/-- Thread 128 would call one of the two queues, but an `int` overflows before. -/
def BreaksOff (O : Outcomes S) (opts : Options) : Prop :=
  if firstQueue opts.queues = some "lprq" ∨ firstQueue opts.queues = some "faa" then
    2 ^ 31 ≤ 129 * opts.ops ∨ opts.ops = 1 ∧ 2 ^ 31 ≤ opts.maxThreads + 1
  else
    2 ^ 31 ≤ opts.maxThreads * opts.ops ∨ 2 ^ 31 ≤ 200 * opts.maxThreads ∨ FiguresOverflow O opts

theorem mem_allQueues (hname : q = "lprq" ∨ q = "faa") : q ∈ allQueues := by
  rcases hname with rfl | rfl <;> decide

theorem firstQueue_of_split {before after : List String} (hq : q ∈ allQueues)
    (hbefore : ∀ q' ∈ before, q' ∉ allQueues) : firstQueue (before ++ q :: after) = some q := by
  have hnone : before.find? (· ∈ allQueues) = none :=
    List.find?_eq_none.mpr fun q' hq' => by simpa using hbefore q' hq'
  rw [firstQueue, List.find?_append, hnone, Option.none_or,
    List.find?_cons_of_pos (by simpa using hq)]

/-- What comes before any queue that has a table takes in what comes before the first. -/
theorem mem_of_mem_queuesBefore {before after : List String} {q' : String}
    (hname : q = "lprq" ∨ q = "faa") (hq' : q' ∈ queuesBefore (before ++ q :: after)) :
    q' ∈ before := by
  rw [queuesBefore, List.takeWhile_append] at hq'
  split at hq'
  · rwa [List.takeWhile_cons_of_neg (by rcases hname with rfl | rfl <;> decide),
      List.append_nil] at hq'
  · exact List.takeWhile_subset _ hq'

/-- When the first run throws, no run is made on more than one thread. -/
theorem fits_of_ops_neg (hops : opts.ops < 0) (hr : ComesTo S O opts r (runs opts))
    (ht : t < r.numThreads) : RunFits S O opts r t := by
  obtain ⟨-, -, -, -, hbegun, -⟩ := begun_runs hr
  rcases Nat.lt_or_ge 128 r.numThreads with hlarge | hle
  · have hnonneg := (hbegun.countable 1 (Nat.le_refl 1) (Nat.lt_trans (by decide) hlarge)).1
    exact absurd hops (Int.not_lt.mpr hnonneg)
  · exact fits_of_le hle ht

/-- When there are no operations, only the destructor of an array queue that was filled does harm.
That is not in the first workload, and `num_threads` has to be raised at the end of that. -/
theorem fits_of_ops_zero (hops : opts.ops = 0)
    (hnone : "faa" ∉ opts.queues ∨ 2 ^ 31 ≤ opts.maxThreads + 1)
    (hr : ComesTo S O opts r (runs opts)) (ht : t < r.numThreads) : RunFits S O opts r t := by
  obtain ⟨before, after, heq, -, hbegun, -⟩ := begun_runs hr
  obtain ⟨q, w, T, k⟩ := r
  refine fits_of_no_share (n := 0) hops (by omega) callsMade_zero (fun hq => ?_) ht
  by_contra hlater
  have hlt := (hbegun.later hlater).lt
  rcases hnone with hfaa | hlarge
  · exact hfaa (heq ▸ hq ▸ List.mem_append_right _ List.mem_cons_self)
  · exact absurd hlt (Int.not_lt.mpr hlarge)

/-- When an `int` overflows, the threads of the runs that the program comes to fit. -/
theorem fits_of_breaksOff (hbreaks : BreaksOff O opts) (hM : opts.maxThreads < 2 ^ 31)
    (hpos : 0 < opts.ops) (hr : ComesTo S O opts r (runs opts))
    (hq : r.qname = "lprq" ∨ r.qname = "faa") (ht : t < r.numThreads) : RunFits S O opts r t := by
  obtain ⟨before, after, heq, hknown, hbegun, hbefore⟩ := begun_runs hr
  rcases Nat.lt_or_ge 128 r.numThreads with hlarge | hle
  swap
  · exact fits_of_le hle ht
  have hM' : 129 ≤ opts.maxThreads := by
    have := hbegun.le
    omega
  have htrials : 0 < opts.trials := by
    have := hbegun.trial
    omega
  obtain ⟨M, hMM⟩ := Int.eq_ofNat_of_zero_le (by omega : 0 ≤ opts.maxThreads)
  -- The operations of 129 threads cannot be counted when those of more cannot.
  have hcount : Countable opts opts.maxThreads.toNat → 129 * opts.ops < 2 ^ 31 := fun h =>
    (h.mono (m := 129) (by omega)).2
  rw [BreaksOff] at hbreaks
  by_cases hfirst : ∀ q' ∈ before, q' ∉ allQueues
  · rw [heq, firstQueue_of_split hknown hfirst,
      if_pos (hq.imp (congrArg some) (congrArg some))] at hbreaks
    have hheavy : r.workloadName = "enqueueheavy" := by
      by_contra hlater
      have hcompletes := hbegun.later hlater
      have hcount := hcount hcompletes.countable
      have hlt := hcompletes.lt
      omega
    obtain ⟨q, _, T, k⟩ := r
    obtain rfl : _ = "enqueueheavy" := hheavy
    rcases hbreaks with hover | ⟨hone, -⟩
    · have hT : T = 129 := by
        by_contra hne
        have hlt :=
          (hbegun.countable 129 (by omega) (by change 129 < T; change 128 < T at hlarge; omega)).2
        omega
      subst hT
      have hnot : ¬ Countable opts 129 := fun h => absurd h.2 (Int.not_lt.mpr hover)
      refine fits_of_no_calls (script_of_overflow hnot (Int.le_of_lt hpos)) fun _ hfinishes => ?_
      exact hnot ((finishes_iff (by decide)).mp hfinishes).1
    · have hT : (T : Int) ≤ opts.maxThreads := hbegun.le
      change 128 < T at hlarge
      exact fits_of_no_share (n := 1) hone (by omega) (callsMade_one (by omega)) (fun _ => rfl) ht
  · -- A queue comes before, and its runs have come to their ends.
    obtain ⟨q', hq', hknown'⟩ : ∃ q' ∈ before, q' ∈ allQueues := by
      simpa using hfirst
    have hcompletes : Completes opts "pair" := completes_of_ends (by omega) htrials fun r' hr' =>
      hbefore q' hq' r' (mem_runsOn hknown' (by decide) hr')
    have hcount := hcount hcompletes.countable
    have hcutoff := hcompletes.cutoff rfl hpos
    have hall : opts.maxThreads * opts.ops < 2 ^ 31 := by
      have := hcompletes.countable.2
      rwa [hMM] at this ⊢
    have hfigures : ¬ FiguresOverflow O opts := by
      rintro ⟨q'', hq'', r', hr', hnone⟩
      rw [heq] at hq''
      obtain ⟨⟨-, records, hleaves, -, hsome⟩, -⟩ :=
        hbefore q'' (mem_of_mem_queuesBefore hq hq'') r' hr'
      rw [hnone records hleaves] at hsome
      cases hsome
    split at hbreaks
    · omega
    · rcases hbreaks with hover | hover | hover
      · exact absurd hall (Int.not_lt.mpr hover)
      · exact absurd hcutoff (Int.not_lt.mpr hover)
      · exact absurd hover hfigures

/-- Thread 128 comes to a row that is not there, in the first workload that it has a share of. -/
theorem exists_not_fits_of_split {before after : List String}
    (heq : opts.queues = before ++ q :: after) (hname : q = "lprq" ∨ q = "faa")
    (htrials : 0 < opts.trials) (hthreads : 128 < opts.maxThreads) (hpos : 0 < opts.ops)
    (hcount : 129 * opts.ops < 2 ^ 31)
    (hbefore : ∀ q' ∈ before, ∀ r' ∈ runsOn opts q', r'.Ends S O opts)
    (hone : opts.ops = 1 → Completes opts "enqueueheavy") :
    ∃ r, ComesTo S O opts r (runs opts) ∧ ∃ t < r.numThreads, ¬ RunFits S O opts r t := by
  have hcountable : Countable opts 129 := ⟨Int.le_of_lt hpos, hcount⟩
  obtain ⟨n, hn⟩ := Int.eq_ofNat_of_zero_le (Int.le_of_lt hpos)
  have hfits : ∀ {T}, T < 129 → T * n < 2 ^ 31 := fun {T} hT => by
    have hle : T * n ≤ 129 * n := Nat.mul_le_mul_right n (Nat.le_of_lt hT)
    omega
  have hends : ∀ {w T k}, 1 ≤ T → T < 129 → Run.dequeues S opts ⟨q, w, T, k⟩ < 2 ^ 30 →
      Run.Ends S O opts ⟨q, w, T, k⟩ := fun {w T k} hT hlt hfew =>
    ends_of_dequeues hT (hcountable.mono (Nat.le_of_lt hlt)) (by omega) hfew fun _ => by omega
  have hrow : ∀ {w}, 0 < callsMade (workloadOf w) n 129 → ¬ RunFits S O opts ⟨q, w, 129, 0⟩ 128 :=
    fun hshare => not_fits hn (by omega) hshare (by decide) hname (Nat.le_refl 128)
  by_cases hops : opts.ops = 1
  · have hcomes : ComesTo S O opts ⟨q, "pair", 129, 0⟩ (runs opts) := by
      refine comesTo_runs ["enqueueheavy"] heq (mem_allQueues hname) hbefore rfl
        (fun w' hw' => ?_) (comesTo_of_ends htrials (by decide) hthreads fun T k hT hlt => ?_)
      · obtain rfl := List.mem_singleton.mp hw'
        exact (hone hops).ends_of_one hops
      · refine hends hT hlt ?_
        have hcalls : dequeuesMade (workloadOf "pair") n T = n := rfl
        rw [dequeues_eq hn (hfits hlt), hcalls]
        exact Nat.lt_of_le_of_lt (Nat.mul_le_mul (Nat.le_of_lt hlt) (by omega : n ≤ 1)) (by decide)
    refine ⟨_, hcomes, 128, (by decide : 128 < 129), hrow ?_⟩
    have hcalls : callsMade (workloadOf "pair") n 129 = 2 * n := rfl
    omega
  · have hcomes : ComesTo S O opts ⟨q, "enqueueheavy", 129, 0⟩ (runs opts) :=
      comesTo_runs [] heq (mem_allQueues hname) hbefore rfl (by simp)
        (comesTo_of_ends htrials (by decide) hthreads fun T k hT hlt =>
          hends hT hlt (dequeues_enqueueHeavy_lt hn (hfits hlt)))
    have hshare := callsMade_pos (by omega : 2 ≤ n) (by decide : 0 < 129)
    exact ⟨_, hcomes, 128, (by decide : 128 < 129), hrow hshare⟩

/-- The first queue that has a table. -/
theorem exists_split {queues : List String} (hq : q ∈ queues) (hname : q = "lprq" ∨ q = "faa") :
    ∃ q₀ after, queues = queuesBefore queues ++ q₀ :: after ∧ (q₀ = "lprq" ∨ q₀ = "faa") := by
  induction queues with
  | nil => cases hq
  | cons x queues ih =>
      by_cases hx : x = "lprq" ∨ x = "faa"
      · refine ⟨x, queues, ?_, hx⟩
        rw [queuesBefore, List.takeWhile_cons_of_neg (by rcases hx with rfl | rfl <;> decide)]
        rfl
      · have hmem : q ∈ queues := by
          rcases List.mem_cons.mp hq with rfl | hmem
          · exact absurd hname hx
          · exact hmem
        obtain ⟨q₀, after, heq, hname₀⟩ := ih hmem
        refine ⟨q₀, after, ?_, hname₀⟩
        rw [queuesBefore, List.takeWhile_cons_of_pos (by simpa using hx)]
        exact congrArg (x :: ·) heq

/-- Thread 128 comes to a row that is not there. -/
theorem exists_not_fits (htrials : 0 < opts.trials) (hM : opts.maxThreads < 2 ^ 31)
    (hthreads : 128 < opts.maxThreads) (hq : q ∈ opts.queues) (hname : q = "lprq" ∨ q = "faa")
    (hpos : 0 < opts.ops) (hgoes : ¬ BreaksOff O opts) :
    ∃ r, ComesTo S O opts r (runs opts) ∧ ∃ t < r.numThreads, ¬ RunFits S O opts r t := by
  obtain ⟨q₀, after, heq, hname₀⟩ := exists_split hq hname
  rw [BreaksOff] at hgoes
  by_cases hfirst : ∀ q' ∈ queuesBefore opts.queues, q' ∉ allQueues
  · rw [heq, firstQueue_of_split (mem_allQueues hname₀) hfirst,
      if_pos (hname₀.imp (congrArg some) (congrArg some)), not_or, not_and, Int.not_le,
      Int.not_le] at hgoes
    refine exists_not_fits_of_split heq hname₀ htrials hthreads hpos hgoes.1
      (fun q' hq' r' hr' => ?_) fun hone => ?_
    · rw [runsOn, if_neg (hfirst q' hq')] at hr'
      cases hr'
    · refine ⟨⟨Int.le_of_lt hpos, ?_⟩, fun h => absurd h (by decide), hgoes.2 hone⟩
      rw [hone]
      omega
  · have hother :
        ¬ (firstQueue opts.queues = some "lprq" ∨ firstQueue opts.queues = some "faa") := by
      intro htable
      obtain ⟨q₁, hname₁, hfind⟩ :
          ∃ q₁, (q₁ = "lprq" ∨ q₁ = "faa") ∧ firstQueue opts.queues = some q₁ :=
        htable.elim (fun h => ⟨_, .inl rfl, h⟩) fun h => ⟨_, .inr rfl, h⟩
      obtain ⟨-, front, rest, hsplit, hfront⟩ := List.find?_eq_some_iff_append.mp hfind
      refine hfirst fun q' hq' hknown' => ?_
      have hmem : q' ∈ front := mem_of_mem_queuesBefore hname₁ (hsplit ▸ hq')
      exact absurd hknown' (by simpa using hfront q' hmem)
    rw [if_neg hother, not_or, not_or, Int.not_le, Int.not_le] at hgoes
    obtain ⟨hall, hcutoff, hfigures⟩ := hgoes
    have hcountable : Countable opts opts.maxThreads.toNat := by
      refine ⟨Int.le_of_lt hpos, ?_⟩
      rw [Int.toNat_of_nonneg (by omega)]
      exact hall
    have hcompletes : ∀ {w}, Completes opts w := fun {w} =>
      ⟨hcountable, fun _ _ => hcutoff, by omega⟩
    refine exists_not_fits_of_split heq hname₀ htrials hthreads hpos
      (hcountable.mono (m := 129) (by omega)).2 (fun q' hq' r' hr' => ?_) fun _ => hcompletes
    unfold runsOn at hr'
    split at hr'
    · rename_i hknown
      obtain ⟨w, hw, hrun⟩ := List.mem_flatMap.mp hr'
      refine hcompletes.ends_of_pair hpos (fun r hr => ?_) r' hrun
      by_contra hnone
      refine hfigures ⟨q', hq', r, mem_runsOn hknown hw hr, fun records hleaves => ?_⟩
      exact Option.not_isSome_iff_eq_none.mp fun hsome => hnone ⟨records, hleaves, hsome⟩
    · cases hr'

/-- With no operations, the destructor does not fit in the first run on 129 threads that fills the
array queue. -/
theorem exists_not_fits_of_zero (hops : opts.ops = 0) (htrials : 0 < opts.trials)
    (hthreads : 128 < opts.maxThreads) (hlt : opts.maxThreads + 1 < 2 ^ 31)
    (hq : "faa" ∈ opts.queues) :
    ∃ r, ComesTo S O opts r (runs opts) ∧ ∃ t < r.numThreads, ¬ RunFits S O opts r t := by
  obtain ⟨before, after, heq⟩ := List.append_of_mem hq
  have hends : ∀ q w, ∀ r ∈ runBenchmark opts q w, r.Ends S O opts := by
    rintro q w ⟨q', w', T, k⟩ hr
    obtain ⟨-, -, hT, hle, -⟩ := mem_runBenchmark.mp hr
    have hle : (T : Int) ≤ opts.maxThreads := hle
    exact ends_of_zero hops hT (by omega)
  have hcomes : ComesTo S O opts ⟨"faa", "pair", 129, 0⟩ (runs opts) := by
    refine comesTo_runs ["enqueueheavy"] heq (by decide) (fun q' _ r' hr' => ?_) rfl
      (fun w' _ => hends "faa" w') (comesTo_of_ends htrials (by decide) hthreads
        fun T k hT hlarge => ends_of_zero hops hT (by omega))
    unfold runsOn at hr'
    split at hr'
    · obtain ⟨w, -, hrun⟩ := List.mem_flatMap.mp hr'
      exact hends q' w r' hrun
    · cases hr'
  exact ⟨_, hcomes, 0, (by decide : 0 < 129), not_fits_of_zero hops (by decide)⟩

/-- Every run leaves one record if it must leave any, and none otherwise. -/
def Outcomes.fewest (S : Shuffle) : Outcomes S where
  Leaves opts r records := records = if r.HasRecords S opts then [⟨1, 2, 3, 4⟩] else []
  exists_leaves _ _ := ⟨_, rfl⟩
  length_le {opts r records} hleaves := by
    subst hleaves
    split
    · rename_i hrecords
      obtain ⟨t, ht, hsub⟩ := hrecords
      have hdequeue : 1 ≤ (r.script S opts t).count (some .dequeue) :=
        hsub.count_le (some Call.dequeue)
      exact hdequeue.trans (List.single_le_sum (fun _ _ => Nat.zero_le _) _
        (List.mem_map.mpr ⟨t, List.mem_range.mpr ht, rfl⟩))
    · exact Nat.zero_le _
  ne_nil {opts r records} hleaves hrecords := by
    rw [hleaves, if_pos hrecords]
    exact List.cons_ne_nil _ _

end QueueFairness.BenchmarkDriver
