import Mathlib.Data.List.Count
import QueueFairness.Proof.Args
import QueueFairness.Proof.BenchmarkDriver
import QueueFairness.Proof.Workloads

/-!
# The runs that the driver comes to

The threads of a run come to their ends when `num_threads * num_ops` is an `int` and `num_ops` is
not negative, whatever the queue and the workload; the program goes on unless the cutoff of the
records, the figures or the next `num_threads` overflow an `int`. The runs are made with more and
more threads, so that this settles how far the program comes. The calls of a thread are those of its
script: items to fill the queue, if it is the first thread, and then its share.
-/

namespace QueueFairness.Workloads

open Interleaving (Tid)
open FairnessLogger (int int_eq)

variable {S : Shuffle} {w : Workload} {n T : Nat} {tid : Tid} {numOps : Int}

theorem int_eq_none {x : Int} (h : 2 ^ 31 ≤ x) : int x = none := by
  unfold int
  exact if_neg fun hx => absurd hx.2 (Int.not_lt.mpr h)

theorem shares_eq_none (h : 2 ^ 31 ≤ (T : Int) * numOps) : shares numOps w T = none := by
  rw [shares, int_eq_none h]
  rfl

/-- **When a worker comes to its end.** -/
theorem worker_isSome (hT : 0 < T) :
    (worker S tid numOps w T).isSome ↔ 0 ≤ numOps ∧ (T : Int) * numOps < 2 ^ 31 := by
  constructor
  · intro h
    by_contra hnot
    rcases Classical.not_and_iff_not_or_not.mp hnot with hneg | hlarge
    · rw [worker] at h
      cases hshares : shares numOps w T with
      | none => simp [hshares] at h
      | some s => simp [hshares, Int.not_le.mp hneg] at h
    · rw [worker, shares_eq_none (Int.not_lt.mp hlarge)] at h
      cases h
  · rintro ⟨hnonneg, hfits⟩
    obtain ⟨n, rfl⟩ := Int.eq_ofNat_of_zero_le hnonneg
    have hfits : T * n < 2 ^ 31 := by
      rw [← Int.natCast_mul] at hfits
      omega
    obtain ⟨events, k, hworker, -⟩ := worker_spec S tid w hT hfits
    rw [hworker]
    rfl

end QueueFairness.Workloads

namespace QueueFairness.BenchmarkDriver

open Interleaving (Tid)
open FairnessLogger (int int_eq)
open Args (Options allQueues)
open Workloads

variable {S : Shuffle} {O : Outcomes S} {opts : Options} {r : Run} {rs xs ys : List Run}
  {q w : String} {T k : Nat}

/-! ### The run that does not end -/

theorem comesTo_append : ComesTo S O opts r (xs ++ ys)
    ↔ ComesTo S O opts r xs ∨ (∀ r' ∈ xs, r'.Ends S O opts) ∧ ComesTo S O opts r ys := by
  induction xs with
  | nil => simp [ComesTo]
  | cons x xs ih =>
      rw [List.cons_append, ComesTo, ComesTo, ih, List.forall_mem_cons]
      tauto

theorem mem_of_comesTo (hr : ComesTo S O opts r rs) : r ∈ rs := by
  induction rs with
  | nil => exact hr.elim
  | cons x rs ih =>
      rcases hr with rfl | ⟨-, hr⟩
      · exact List.mem_cons_self
      · exact List.mem_cons_of_mem x (ih hr)

/-- What is done one after another is begun when all of it before has come to its end. -/
theorem comesTo_flatMap {β : Type} {f : β → List Run} {bs : List β} :
    ComesTo S O opts r (bs.flatMap f) ↔ ∃ before b after, bs = before ++ b :: after
      ∧ (∀ b' ∈ before, ∀ r' ∈ f b', r'.Ends S O opts) ∧ ComesTo S O opts r (f b) := by
  induction bs with
  | nil => simp [ComesTo]
  | cons b bs ih =>
      rw [List.flatMap_cons, comesTo_append, ih]
      constructor
      · rintro (hr | ⟨hends, before, b', after, rfl, hbefore, hr⟩)
        · exact ⟨[], b, bs, rfl, by simp, hr⟩
        · exact ⟨b :: before, b', after, rfl, List.forall_mem_cons.mpr ⟨hends, hbefore⟩, hr⟩
      · rintro ⟨before, b', after, heq, hbefore, hr⟩
        cases before with
        | nil =>
            obtain ⟨rfl, rfl⟩ := List.cons.inj heq
            exact .inl hr
        | cons b₀ before =>
            obtain ⟨rfl, rfl⟩ := List.cons.inj heq
            obtain ⟨hends, hbefore⟩ := List.forall_mem_cons.mp hbefore
            exact .inr ⟨hends, before, b', after, rfl, hbefore, hr⟩

/-! ### The scripts -/

/-- A script: `a` items to fill the queue and a barrier, `k` more and two barriers, and then the
calls that are the thread's share. -/
def scriptOf (a k : Nat) (ops : List Call) : List (Option Call) :=
  List.replicate a (some .enqueue) ++ none :: (List.replicate k (some .enqueue)
    ++ none :: none :: (ops.map some ++ [none]))

theorem noticed_enqueues (t : Tid) (k : Nat) :
    ((List.range k).map fun (i : Nat) => Workloads.Event.enqueue i t).filterMap noticed
      = List.replicate k (some .enqueue) := by
  rw [List.filterMap_map]
  refine (congrFun (List.filterMap_eq_map (f := fun _ : Nat => some Call.enqueue)) _).trans ?_
  rw [List.map_const', List.length_range]

/-- How many dequeues are the share of a thread. -/
def dequeuesMade (w : Workload) (n T : Nat) : Nat :=
  if w = .enqueueDequeuePair then n else (T * n - enqueues w (T * n)) / T

theorem count_calls {w : Workload} {n : Nat} {t : Tid} (s : Shares) :
    ((calls S t n s w).filterMap noticed).count (some .dequeue)
      = if w = .enqueueDequeuePair then n else s.perThreadDeq.toNat := by
  have hshuffled : ∀ ops : List Int,
      ((ops.map fun op => if op = 0 then Event.enqueue 1 t else .dequeue t).filterMap noticed)
        = ops.map fun op => some (if op = 0 then Call.enqueue else .dequeue) := fun ops => by
    rw [List.filterMap_map, ← List.filterMap_eq_map]
    refine List.filterMap_congr fun op _ => ?_
    by_cases hop : op = 0 <;> simp [hop, noticed]
  cases w with
  | enqueueDequeuePair =>
      have hone : ∀ i : Nat, ([Event.enqueue i t, .dequeue t].filterMap noticed).count
          (some .dequeue) = 1 := fun _ => rfl
      simp only [calls, List.filterMap_flatMap, List.count_flatMap, Function.comp_def, hone,
        List.map_const', List.sum_replicate_nat]
      simp
  | enqueueHeavy | dequeueHeavy =>
      change ((List.map (fun op => if op = 0 then Event.enqueue 1 t else .dequeue t) _).filterMap
        noticed).count _ = _
      rw [hshuffled, ((S.perm t _).map _).count_eq, List.map_append, List.map_replicate,
        List.map_replicate, List.count_append, List.count_replicate, List.count_replicate]
      simp

theorem isCall_of_mem_calls {n : Nat} {t : Tid} {s : Shares} {e : Workloads.Event}
    (he : e ∈ calls S t n s (workloadOf w)) : e.IsCall := by
  cases hw : workloadOf w with
  | enqueueDequeuePair =>
      rw [hw, calls, List.mem_flatMap] at he
      obtain ⟨i, -, hi⟩ := he
      rcases List.mem_cons.mp hi with rfl | hi
      · trivial
      · rw [List.mem_singleton.mp hi]
        trivial
  | enqueueHeavy | dequeueHeavy =>
      rw [hw] at he
      obtain ⟨op, -, rfl⟩ := List.mem_map.mp he
      split <;> trivial

theorem noticed_calls {events : List Workloads.Event} (hcalls : ∀ e ∈ events, e.IsCall) :
    ∃ ops : List Call, events.filterMap noticed = ops.map some ∧ ops.length = events.length := by
  induction events with
  | nil => exact ⟨[], rfl, rfl⟩
  | cons e events ih =>
      obtain ⟨he, hrest⟩ := List.forall_mem_cons.mp hcalls
      obtain ⟨ops, hops, hlength⟩ := ih hrest
      obtain ⟨call, hcall⟩ : ∃ call, noticed e = some (some call) := by
        cases e with
        | enqueue | dequeue => exact ⟨_, rfl⟩
        | _ => exact he.elim
      refine ⟨call :: ops, ?_, congrArg Nat.succ hlength⟩
      rw [List.filterMap_cons_some hcall, hops, List.map_cons]

/-- What a script has: thread `t` fills the queue with `a` items and with `m`, and its share of the
calls is `ops`. -/
structure Parts (w : String) (n T : Nat) (t : Tid) (a m : Nat) (ops : List Call) : Prop where
  first : t ≠ 0 → a = 0 ∧ m = 0
  heavy : w = "enqueueheavy" → a = 0 ∧ m = 0
  pair : w = "pair" → t = 0 → a = 5000 ∧ 1000 ≤ m
  fill : 2 * (a + m) ≤ T * n + 13000
  length : ops.length = callsMade (workloadOf w) n T
  count : ops.count .dequeue = dequeuesMade (workloadOf w) n T

/-- **The script of a thread that comes to its end.** Only the first thread fills the queue. -/
theorem script_eq {n : Nat} {t : Tid} (hops : opts.ops = n) (hfits : T * n < 2 ^ 31) (ht : t < T) :
    ∃ a m ops, Run.script S opts ⟨q, w, T, k⟩ t = scriptOf a m ops ∧ Parts w n T t a m ops := by
  obtain ⟨m, hshares, hprefill, hm⟩ := shares_eq (w := workloadOf w) (Nat.zero_lt_of_lt ht) hfits
  obtain ⟨enq, deq, hdeq, hshares, hsum⟩ : ∃ enq deq : Nat,
      (T * n - enqueues (workloadOf w) (T * n)) / T = deq
        ∧ shares n (workloadOf w) T = some ⟨enq, deq, m⟩
        ∧ enq + deq = enqueues (workloadOf w) (T * n) / T
          + (T * n - enqueues (workloadOf w) (T * n)) / T := ⟨_, _, rfl, hshares, rfl⟩
  have hcalls : ∀ e ∈ calls S t n ⟨enq, deq, m⟩ (workloadOf w), e.IsCall := fun e he =>
    isCall_of_mem_calls he
  obtain ⟨ops, hnoticed, hlength⟩ := noticed_calls hcalls
  refine ⟨if w = "pair" ∧ t = 0 then 5000 else 0, if t = 0 then m else 0, ops, ?_, ?_, ?_, ?_,
    ?_, ?_, ?_⟩
  · have hdriver : (if w = "pair" ∧ t = 0 then
        (List.range 5000).map fun (i : Nat) => Workloads.Event.enqueue i t
        else []).filterMap noticed
        = List.replicate (if w = "pair" ∧ t = 0 then 5000 else 0) (some .enqueue) := by
      split
      · exact noticed_enqueues t 5000
      · rfl
    have hsetup : (setup t m).filterMap noticed
        = List.replicate (if t = 0 then m else 0) (some .enqueue) := by
      unfold setup
      split
      · exact noticed_enqueues 0 m
      · rfl
    have hstart : [Event.arriveAndWait, .startCounting].filterMap noticed = [none] := rfl
    have hbarriers : [Event.arriveAndWait, .arriveAndWait].filterMap noticed = [none, none] := rfl
    have hbarrier : [Event.arriveAndWait].filterMap noticed = [none] := rfl
    have hstop : [Event.stopCounting].filterMap noticed = [] := rfl
    have hworker : worker S t n (workloadOf w) T = _ := worker_eq hshares
    simp only [Run.script, if_pos ht, workerThread, hops, hworker, Option.bind_eq_bind,
      Option.bind_some, Option.pure_def, Option.elim_some, List.filterMap_append, hdriver, hsetup,
      hnoticed, hstart, hbarriers, hbarrier, hstop]
    simp only [scriptOf, List.append_assoc, List.cons_append, List.nil_append, List.append_nil]
  · intro h0
    simp [h0]
  · rintro rfl
    obtain rfl : m = 0 := by simpa [workloadOf] using hprefill
    simp
  · rintro rfl rfl
    have hleast : 1000 ≤ m := by simpa [workloadOf] using hprefill
    simpa using hleast
  · split <;> split <;> omega
  · have hcount : (calls S t n ⟨enq, deq, m⟩ (workloadOf w)).countP (·.IsCall) = _ := countP_calls _
    rw [List.countP_eq_length.mpr fun e he => decide_eq_true (hcalls e he)] at hcount
    rw [hlength, hcount, callsMade, ← hsum]
    simp only [Int.toNat_natCast]
  · have hcount := count_calls (S := S) (t := t) (n := n) (w := workloadOf w) ⟨enq, deq, m⟩
    rw [hnoticed, List.count_map_of_injective _ _ (Option.some_injective _)] at hcount
    rw [hcount, dequeuesMade, hdeq]
    rfl

/-- In the workload `pair` the first thread fills the queue, and then it dequeues. -/
theorem hasRecords_pair {n : Nat} (hops : opts.ops = n) (hfits : T * n < 2 ^ 31) (hpos : 0 < n)
    (hT : 0 < T) : Run.HasRecords S opts ⟨q, "pair", T, k⟩ := by
  obtain ⟨a, m, ops, hscript, hparts⟩ :=
    script_eq (S := S) (q := q) (w := "pair") (k := k) hops hfits hT
  have hdequeue : Call.dequeue ∈ ops := List.count_pos_iff.mp (hparts.count ▸ hpos)
  obtain ⟨rfl, -⟩ := hparts.pair rfl rfl
  have hfirst : some Call.enqueue ∈ List.replicate 5000 (some Call.enqueue) :=
    List.mem_replicate.mpr ⟨by decide, rfl⟩
  refine ⟨0, hT, ?_⟩
  rw [hscript, scriptOf]
  refine (List.singleton_sublist.mpr hfirst).append (List.singleton_sublist.mpr ?_)
  simp [hdequeue]

theorem count_scriptOf {a m : Nat} {ops : List Call} :
    (scriptOf a m ops).count (some .dequeue) = ops.count .dequeue := by
  have hshare : (ops.map some).count (some Call.dequeue) = ops.count .dequeue :=
    List.count_map_of_injective _ _ (Option.some_injective _) _
  simp [scriptOf, List.count_append, List.count_replicate, hshare]

theorem dequeues_eq {n : Nat} (hops : opts.ops = n) (hfits : T * n < 2 ^ 31) :
    Run.dequeues S opts ⟨q, w, T, k⟩ = T * dequeuesMade (workloadOf w) n T := by
  have hcount : ∀ t ∈ List.range T, (Run.script S opts ⟨q, w, T, k⟩ t).count (some .dequeue)
      = dequeuesMade (workloadOf w) n T := by
    intro t ht
    obtain ⟨a, m, ops, hscript, hparts⟩ :=
      script_eq (S := S) (q := q) (w := w) (k := k) hops hfits (List.mem_range.mp ht)
    rw [hscript, count_scriptOf, hparts.count]
  rw [Run.dequeues, List.map_congr_left hcount, List.map_const', List.sum_replicate_nat,
    List.length_range]

theorem callsMade_zero : callsMade (workloadOf w) 0 T = 0 := by
  unfold callsMade enqueues
  split <;> simp

theorem dequeuesMade_zero : dequeuesMade (workloadOf w) 0 T = 0 := by
  unfold dequeuesMade
  split <;> simp

/-- With one operation a thread, the first workload has no dequeues. -/
theorem dequeuesMade_one (hT : 0 < T) : dequeuesMade (workloadOf "enqueueheavy") 1 T = 0 := by
  change (T * 1 - (T * 1 * 67 + 50) / 100) / T = 0
  exact Nat.div_eq_of_lt (by omega)

/-- The first workload has fewer dequeues than a Fenwick tree can count. -/
theorem dequeues_enqueueHeavy_lt {n : Nat} (hops : opts.ops = n) (hfits : T * n < 2 ^ 31) :
    Run.dequeues S opts ⟨q, "enqueueheavy", T, k⟩ < 2 ^ 30 := by
  rw [dequeues_eq hops hfits]
  calc T * ((T * n - (T * n * 67 + 50) / 100) / T) ≤ T * n - (T * n * 67 + 50) / 100 :=
        Nat.mul_div_le ..
    _ < 2 ^ 30 := by omega

/-! ### How far the program comes -/

/-- The operations of a run on `T` threads can be counted. -/
def Countable (opts : Options) (T : Nat) : Prop := 0 ≤ opts.ops ∧ (T : Int) * opts.ops < 2 ^ 31

theorem Countable.mono {m : Nat} (h : Countable opts T) (hle : m ≤ T) : Countable opts m :=
  ⟨h.1, Int.lt_of_le_of_lt (Int.mul_le_mul_of_nonneg_right (Int.ofNat_le.mpr hle) h.1) h.2⟩

/-- All runs of a workload come to their ends. -/
structure Completes (opts : Options) (w : String) : Prop where
  countable : Countable opts opts.maxThreads.toNat
  cutoff : w = "pair" → 0 < opts.ops → 200 * opts.maxThreads < 2 ^ 31
  lt : opts.maxThreads + 1 < 2 ^ 31

theorem workerThread_isSome {t : Tid} (hT : 0 < T) :
    (workerThread S opts.ops w T t).isSome ↔ Countable opts T := by
  have hworker : (worker S t opts.ops (workloadOf w) T).isSome ↔ _ := worker_isSome hT
  rw [Countable, ← hworker, workerThread]
  cases worker S t opts.ops (workloadOf w) T <;> rfl

theorem finishes_iff (hT : 0 < T) : Run.Finishes S O opts ⟨q, w, T, k⟩ ↔ Countable opts T
    ∧ ∃ records, O.Leaves opts ⟨q, w, T, k⟩ records
      ∧ (records ≠ [] → (int (200 * T)).isSome) ∧ (reported T records).isSome := by
  refine and_congr_left fun _ => ⟨fun h => (workerThread_isSome hT).mp (h 0 hT), fun h t _ => ?_⟩
  exact (workerThread_isSome hT).mpr h

theorem mem_runBenchmark : r ∈ runBenchmark opts q w ↔ r.qname = q ∧ r.workloadName = w
    ∧ 1 ≤ r.numThreads ∧ r.numThreads ≤ opts.maxThreads ∧ r.trial < opts.trials := by
  obtain ⟨q', w', T, k⟩ := r
  simp only [runBenchmark, List.mem_flatMap, List.mem_range'_1, List.mem_range, List.mem_map,
    Run.mk.injEq]
  constructor
  · rintro ⟨T, hT, k, hk, rfl, rfl, rfl, rfl⟩
    exact ⟨rfl, rfl, hT.1, by omega, by omega⟩
  · rintro ⟨rfl, rfl, hpos, hT, hk⟩
    exact ⟨T, by omega, k, by omega, rfl, rfl, rfl, rfl⟩

theorem int_isSome {x : Int} (h : 0 ≤ x) (h' : x < 2 ^ 31) : (int x).isSome := by
  rw [int_eq (by omega) (by omega)]
  rfl

theorem reported_isSome {records : List LogRecord} (h : records.length < 2 ^ 30) :
    (reported T records).isSome := by
  have hleft : ∀ event1 event2, (pairsLeft T records event1 event2).length < 2 ^ 30 :=
    fun event1 event2 => by
      have hle := pairsLeft_length_le (n := T) records event1 event2
      omega
  rw [reported_eq (hleft _ _) (hleft _ _)]
  rfl

/-- A run with few dequeues comes to its end, whatever records it leaves. -/
theorem finishes_of_dequeues (hT : 0 < T) (hcountable : Countable opts T)
    (hfew : Run.dequeues S opts ⟨q, w, T, k⟩ < 2 ^ 30)
    (hcutoff : 0 < Run.dequeues S opts ⟨q, w, T, k⟩ → 200 * (T : Int) < 2 ^ 31) :
    Run.Finishes S O opts ⟨q, w, T, k⟩ := by
  obtain ⟨records, hleaves⟩ := O.exists_leaves opts ⟨q, w, T, k⟩
  have hle := O.length_le hleaves
  refine (finishes_iff hT).mpr ⟨hcountable, records, hleaves, fun hne => ?_, ?_⟩
  · have hpos := List.length_pos_iff.mpr hne
    exact int_isSome (by omega) (hcutoff (Nat.lt_of_lt_of_le hpos hle))
  · exact reported_isSome (Nat.lt_of_le_of_lt hle hfew)

/-- The program goes on after it. -/
theorem ends_of_dequeues (hT : 0 < T) (hcountable : Countable opts T) (hlt : (T : Int) + 1 < 2 ^ 31)
    (hfew : Run.dequeues S opts ⟨q, w, T, k⟩ < 2 ^ 30)
    (hcutoff : 0 < Run.dequeues S opts ⟨q, w, T, k⟩ → 200 * (T : Int) < 2 ^ 31) :
    Run.Ends S O opts ⟨q, w, T, k⟩ :=
  ⟨finishes_of_dequeues hT hcountable hfew hcutoff, fun _ => int_isSome (by omega) hlt⟩

/-- The runs on fewer threads come first. -/
theorem ends_of_comesTo (hr : ComesTo S O opts r (runBenchmark opts q w)) {T' : Nat}
    (hpos : 1 ≤ T') (hlt : T' < r.numThreads) : ∃ k, Run.Ends S O opts ⟨q, w, T', k⟩ := by
  obtain ⟨before, T, after, heq, hbefore, hr⟩ := comesTo_flatMap.mp hr
  obtain ⟨k, hk, rfl⟩ := List.mem_map.mp (mem_of_comesTo hr)
  have hmem : T' ∈ before := by
    -- The numbers of threads are made in order.
    have hsorted := (List.pairwise_lt_range' (s := 1) (n := opts.maxThreads.toNat))
    have hrange : T' ∈ List.range' 1 opts.maxThreads.toNat := by
      have hT : T ∈ List.range' 1 opts.maxThreads.toNat := by
        rw [heq]
        exact List.mem_append_right _ List.mem_cons_self
      rw [List.mem_range'_1] at hT ⊢
      exact ⟨hpos, Nat.lt_trans hlt hT.2⟩
    rw [heq] at hsorted hrange
    rcases List.mem_append.mp hrange with hmem | hmem
    · exact hmem
    rcases List.mem_cons.mp hmem with rfl | hmem
    · exact absurd hlt (Nat.lt_irrefl _)
    · have hgt := (List.pairwise_cons.mp (List.pairwise_append.mp hsorted).2.1).1 T' hmem
      exact absurd hlt (Nat.lt_asymm hgt)
  exact ⟨k, hbefore T' hmem ⟨q, w, T', k⟩ (List.mem_map.mpr ⟨k, hk, rfl⟩)⟩

theorem comesTo_of_ends (htrials : 0 < opts.trials) (hpos : 1 ≤ T) (hT : T ≤ opts.maxThreads)
    (hends : ∀ T' k, 1 ≤ T' → T' < T → Run.Ends S O opts ⟨q, w, T', k⟩) :
    ComesTo S O opts ⟨q, w, T, 0⟩ (runBenchmark opts q w) := by
  have hsplit : List.range' 1 opts.maxThreads.toNat
      = List.range' 1 (T - 1) ++ T :: List.range' (T + 1) (opts.maxThreads.toNat - T) := by
    obtain ⟨m, rfl⟩ : ∃ m, T = 1 + m := ⟨T - 1, by omega⟩
    rw [← List.range'_succ, Nat.add_sub_cancel_left, List.range'_append_1]
    congr 1
    omega
  refine comesTo_flatMap.mpr ⟨_, T, _, hsplit, fun T' hT' r' hr' => ?_, ?_⟩
  · obtain ⟨k, -, rfl⟩ := List.mem_map.mp hr'
    obtain ⟨hpos', hlt⟩ := List.mem_range'_1.mp hT'
    exact hends T' k hpos' (by omega)
  · obtain ⟨k, hk⟩ : ∃ k, opts.trials.toNat = k + 1 := ⟨opts.trials.toNat - 1, by omega⟩
    rw [hk, List.range_succ_eq_map, List.map_cons]
    exact .inl rfl

/-- The pair workload is the one that needs most. -/
theorem Completes.ends_of_pair (h : Completes opts "pair") (hpos : 0 < opts.ops)
    (hfigures : ∀ r ∈ runBenchmark opts q w, ∃ records, O.Leaves opts r records
      ∧ (reported r.numThreads records).isSome) :
    ∀ r ∈ runBenchmark opts q w, r.Ends S O opts := by
  rintro ⟨q', w', T, k⟩ hr
  obtain ⟨records, hleaves, hsome⟩ := hfigures _ hr
  obtain ⟨-, -, hT, hle, -⟩ := mem_runBenchmark.mp hr
  have hle : (T : Int) ≤ opts.maxThreads := hle
  have hcutoff := h.cutoff rfl hpos
  refine ⟨(finishes_iff hT).mpr ⟨h.countable.mono (by omega), records, hleaves, fun _ => ?_, hsome⟩,
    fun _ => ?_⟩
  · exact int_isSome (by omega) (by omega)
  · exact int_isSome (by omega) (by omega)

/-- With one operation a thread, the first workload leaves no records. -/
theorem Completes.ends_of_one (h : Completes opts "enqueueheavy") (hone : opts.ops = 1) :
    ∀ r ∈ runBenchmark opts q "enqueueheavy", r.Ends S O opts := by
  rintro ⟨q', w', T, k⟩ hr
  obtain ⟨-, rfl, hT, hle, -⟩ := mem_runBenchmark.mp hr
  have hle : (T : Int) ≤ opts.maxThreads := hle
  have hlt := h.lt
  have hnone : Run.dequeues S opts ⟨q', "enqueueheavy", T, k⟩ = 0 := by
    rw [dequeues_eq (n := 1) hone (by omega), dequeuesMade_one hT, Nat.mul_zero]
  refine ends_of_dequeues hT (h.countable.mono (by omega)) (by omega) ?_ fun hpos => ?_
  · rw [hnone]
    decide
  · exact absurd hpos (hnone ▸ Nat.lt_irrefl 0)

/-- With no operations, no run leaves records. -/
theorem finishes_of_zero (hops : opts.ops = 0) (hT : 0 < T) :
    Run.Finishes S O opts ⟨q, w, T, k⟩ := by
  have hnone : Run.dequeues S opts ⟨q, w, T, k⟩ = 0 := by
    rw [dequeues_eq (n := 0) hops (by omega), dequeuesMade_zero, Nat.mul_zero]
  have hcountable : Countable opts T := ⟨Int.le_of_eq hops.symm, by simp [hops]⟩
  refine finishes_of_dequeues hT hcountable ?_ fun hpos => ?_
  · rw [hnone]
    decide
  · exact absurd hpos (hnone ▸ Nat.lt_irrefl 0)

theorem ends_of_zero (hops : opts.ops = 0) (hT : 0 < T) (hlt : (T : Int) + 1 < 2 ^ 31) :
    Run.Ends S O opts ⟨q, w, T, k⟩ :=
  ⟨finishes_of_zero hops hT, fun _ => int_isSome (by omega) hlt⟩

theorem completes_of_ends (hM : 1 ≤ opts.maxThreads) (htrials : 0 < opts.trials)
    (hends : ∀ r ∈ runBenchmark opts q w, r.Ends S O opts) : Completes opts w := by
  obtain ⟨M, hM⟩ : ∃ M : Nat, opts.maxThreads = M + 1 := ⟨opts.maxThreads.toNat - 1, by omega⟩
  obtain ⟨k, hk⟩ : ∃ k : Nat, opts.trials = k + 1 := ⟨opts.trials.toNat - 1, by omega⟩
  have hlast : ⟨q, w, M + 1, k⟩ ∈ runBenchmark opts q w := by
    refine mem_runBenchmark.mpr ⟨rfl, rfl, Nat.le_add_left .., ?_, ?_⟩
    · exact le_of_eq hM.symm
    · exact hk ▸ Int.lt_succ_self _
  obtain ⟨hfinishes, hraised⟩ : Run.Finishes S O opts ⟨q, w, M + 1, k⟩
      ∧ ((k : Int) + 1 = opts.trials → (int (((M + 1 : Nat) : Int) + 1)).isSome) := hends _ hlast
  obtain ⟨hcountable, records, hleaves, hcutoff, -⟩ := (finishes_iff (Nat.succ_pos M)).mp hfinishes
  have hM' : opts.maxThreads.toNat = M + 1 := by omega
  have hlt : ∀ {x : Int}, (int x).isSome → x < 2 ^ 31 := fun {x} hsome => by
    by_contra hlarge
    rw [int_eq_none (Int.not_lt.mp hlarge)] at hsome
    cases hsome
  refine ⟨hM' ▸ hcountable, fun hpair hops => ?_, ?_⟩
  · subst hpair
    obtain ⟨n, hn⟩ := Int.eq_ofNat_of_zero_le hcountable.1
    have hfits : (M + 1) * n < 2 ^ 31 := by
      have hproduct := hn ▸ hcountable.2
      exact_mod_cast hproduct
    have hrecords := O.ne_nil hleaves (hasRecords_pair hn hfits (by omega) (Nat.succ_pos M))
    have hsmall := hlt (hcutoff hrecords)
    omega
  · have hsmall := hlt (hraised hk.symm)
    omega

/-! ### The queues -/

/-- The runs on a queue. -/
def runsOn (opts : Options) (q : String) : List Run :=
  if q ∈ allQueues then workloads.flatMap (runBenchmark opts q) else []

theorem runs_eq : runs opts = opts.queues.flatMap (runsOn opts) := by
  unfold runs
  congr 1
  funext q
  by_cases hq : q ∈ allQueues
  · rw [runsOn, if_pos hq]
    congr 1
    funext w
    simp only [allQueues, List.mem_cons, List.not_mem_nil, or_false] at hq
    rcases hq with rfl | rfl | rfl | rfl <;> rfl
  · simp only [allQueues, List.mem_cons, List.not_mem_nil, or_false, not_or] at hq
    simp [runsOn, allQueues, hq]

/-- **What is known of a run that the program comes to.** -/
structure Begun (opts : Options) (r : Run) : Prop where
  workload : r.workloadName ∈ workloads
  pos : 1 ≤ r.numThreads
  le : r.numThreads ≤ opts.maxThreads
  trial : r.trial < opts.trials
  countable : ∀ T', 1 ≤ T' → T' < r.numThreads → Countable opts T'
  later : r.workloadName ≠ "enqueueheavy" → Completes opts "enqueueheavy"

theorem begun_runsOn (hr : ComesTo S O opts r (runsOn opts q)) :
    q ∈ allQueues ∧ r.qname = q ∧ Begun opts r := by
  unfold runsOn at hr
  split at hr
  · rename_i hq
    obtain ⟨before, w, after, heq, hbefore, hr⟩ := comesTo_flatMap.mp hr
    obtain ⟨hqname, rfl, hpos, hle, htrial⟩ := mem_runBenchmark.mp (mem_of_comesTo hr)
    refine ⟨hq, hqname, ?_, hpos, hle, htrial, fun T' hpos' hlt => ?_, fun hlater => ?_⟩
    · exact heq ▸ List.mem_append_right _ List.mem_cons_self
    · obtain ⟨k, hends⟩ := ends_of_comesTo hr hpos' hlt
      exact ((finishes_iff hpos').mp hends.1).1
    · -- The first workload comes before this one.
      cases before with
      | nil => exact absurd (List.cons.inj heq).1.symm hlater
      | cons w' before =>
          obtain rfl : "enqueueheavy" = w' := (List.cons.inj heq).1
          exact completes_of_ends (by omega) (by omega) (hbefore _ List.mem_cons_self)
  · exact hr.elim

/-- The queues before the one that a run is on come first. -/
theorem begun_runs (hr : ComesTo S O opts r (runs opts)) :
    ∃ before after, opts.queues = before ++ r.qname :: after ∧ r.qname ∈ allQueues ∧ Begun opts r
      ∧ ∀ q ∈ before, ∀ r' ∈ runsOn opts q, r'.Ends S O opts := by
  rw [runs_eq] at hr
  obtain ⟨before, q, after, heq, hbefore, hr⟩ := comesTo_flatMap.mp hr
  obtain ⟨hq, rfl, hbegun⟩ := begun_runsOn hr
  exact ⟨before, after, heq, hq, hbegun, hbefore⟩

theorem mem_runsOn (hq : q ∈ allQueues) (hw : w ∈ workloads) (hr : r ∈ runBenchmark opts q w) :
    r ∈ runsOn opts q := by
  rw [runsOn, if_pos hq]
  exact List.mem_flatMap.mpr ⟨w, hw, hr⟩

/-- A run that nothing stands in the way of. -/
theorem comesTo_runs (ws : List String) {before after ws' : List String}
    (heq : opts.queues = before ++ q :: after) (hq : q ∈ allQueues)
    (hbefore : ∀ q' ∈ before, ∀ r' ∈ runsOn opts q', r'.Ends S O opts)
    (hworkloads : workloads = ws ++ w :: ws')
    (hends : ∀ w' ∈ ws, ∀ r' ∈ runBenchmark opts q w', r'.Ends S O opts)
    (hr : ComesTo S O opts r (runBenchmark opts q w)) : ComesTo S O opts r (runs opts) := by
  rw [runs_eq]
  refine comesTo_flatMap.mpr ⟨before, q, after, heq, hbefore, ?_⟩
  rw [runsOn, if_pos hq]
  exact comesTo_flatMap.mpr ⟨ws, w, ws', hworkloads, hends, hr⟩

/-! ### The calls -/

/-- A thread that overflows has not come to the queue. -/
theorem script_of_overflow {t : Tid} (hoverflow : ¬ Countable opts T) (hnonneg : 0 ≤ opts.ops) :
    (Run.script S opts ⟨q, "enqueueheavy", T, k⟩ t).filterMap id = [] := by
  have hshares : shares opts.ops .enqueueHeavy T = none :=
    shares_eq_none (Int.not_lt.mp fun hlt => hoverflow ⟨hnonneg, hlt⟩)
  have hworkload : workloadOf "enqueueheavy" = .enqueueHeavy := rfl
  have hname : ¬ ("enqueueheavy" = "pair" ∧ t = 0) := fun h => absurd h.1 (by decide)
  unfold Run.script
  split
  · have hnone : workerThread S opts.ops "enqueueheavy" T t = none := by
      rw [workerThread, hworkload, worker, hshares]
      rfl
    simp only [hnone, Option.elim_none, workerThreadBegun, if_neg hname, hworkload, workerBegun,
      hshares]
    rfl
  · rfl

section Scripts

variable {a m n j : Nat} {ops : List Call} {t : Tid} {made : Tid → Nat} {busy : Tid → Bool}

theorem calls_scriptOf :
    (scriptOf a m ops).filterMap id = List.replicate (a + m) .enqueue ++ ops := by
  have hsome : ∀ xs : List Call, (xs.map some).filterMap id = xs := fun xs => by
    rw [List.filterMap_map]
    exact List.filterMap_some
  have hreplicate : ∀ b, (List.replicate b (some Call.enqueue)).filterMap id
      = List.replicate b Call.enqueue := fun b => by
    rw [← List.map_replicate, hsome]
  have hbarrier : ∀ script : List (Option Call), (none :: script).filterMap id
      = script.filterMap id := fun _ => rfl
  simp only [scriptOf, List.filterMap_append, hbarrier, hreplicate, hsome, List.filterMap_nil,
    List.replicate_add, List.append_assoc, List.append_nil]

/-- With no operations, the first thread fills the queue in the workload `pair`, and that is all. -/
theorem script_pair_of_zero (hops : opts.ops = 0) (hT : 0 < T) :
    ∃ a m, Run.script S opts ⟨q, "pair", T, k⟩ 0 = scriptOf a m [] ∧ 6000 ≤ a + m ∧ a + m ≤ 6500
      ∧ ∀ u, ((Run.script S opts ⟨q, "pair", T, k⟩ u).filterMap id).length
        = if u = 0 then a + m else 0 := by
  have hscript : ∀ u < T, ∃ a m, Run.script S opts ⟨q, "pair", T, k⟩ u = scriptOf a m []
      ∧ Parts "pair" 0 T u a m [] := fun u hu => by
    obtain ⟨a, m, ops, hscript, hparts⟩ := script_eq (S := S) (q := q) (w := "pair") (k := k)
      (n := 0) hops (by omega) hu
    obtain rfl : ops = [] := List.length_eq_zero_iff.mp (hparts.length.trans callsMade_zero)
    exact ⟨a, m, hscript, hparts⟩
  obtain ⟨a, m, hfirst, hparts⟩ := hscript 0 hT
  obtain ⟨rfl, hm⟩ := hparts.pair rfl rfl
  have hfill := hparts.fill
  refine ⟨5000, m, hfirst, by omega, by omega, fun u => ?_⟩
  split
  · subst u
    rw [hfirst, calls_scriptOf, List.append_nil, List.length_replicate]
  · rename_i h0
    rcases Nat.lt_or_ge u T with hlt | hge
    · obtain ⟨a', m', hother, hnone⟩ := hscript u hlt
      obtain ⟨rfl, rfl⟩ := hnone.first h0
      rw [hother, calls_scriptOf]
      rfl
    · rw [Run.script, if_neg (Nat.not_lt.mpr hge)]
      rfl

theorem barriersBefore_replicate (script : List (Option Call)) (a j : Nat) (call : Call) :
    barriersBefore (List.replicate a (some call) ++ script) j
      = if j < a then 0 else barriersBefore script (j - a) := by
  induction a generalizing j with
  | zero => simp
  | succ a ih =>
      rw [List.replicate_succ, List.cons_append]
      cases j with
      | zero => simp [barriersBefore]
      | succ j => simp [barriersBefore, ih]

theorem barriersBefore_fill (hj : j < a + m) : barriersBefore (scriptOf a m ops) j ≤ 1 := by
  rw [scriptOf, barriersBefore_replicate]
  split
  · exact Nat.zero_le 1
  · rename_i ha
    rw [barriersBefore, barriersBefore_replicate, if_pos (by omega)]

theorem barriersBefore_share : barriersBefore (scriptOf a m ops) (a + m)
    = barriersBefore (ops.map some ++ [none]) 0 + 3 := by
  rw [scriptOf, barriersBefore_replicate, if_neg (by omega), barriersBefore,
    barriersBefore_replicate, if_neg (by omega), barriersBefore, barriersBefore]
  simp

variable (hops : opts.ops = n) (hfits : T * n < 2 ^ 31)
  (hfirst : Run.script S opts ⟨q, w, T, k⟩ 0 = scriptOf a m ops) (hother : ∀ u, u ≠ 0 → made u = 0)
  (hidle : ∀ u, busy u = false)

include hops hfits hfirst hother hidle

omit hidle in
/-- All threads can have come to the barriers before their shares. -/
theorem barriers_of_filled (hmade : made 0 = a + m) {u : Tid} (hu : u < T) :
    3 ≤ barriersBefore (Run.script S opts ⟨q, w, T, k⟩ u) (made u) := by
  by_cases h0 : u = 0
  · subst h0
    rw [hfirst, hmade, barriersBefore_share]
    exact Nat.le_add_left ..
  · obtain ⟨a', m', ops', hscript, hnone, -⟩ := script_eq (S := S) (q := q) (w := w) (k := k) hops
      hfits hu
    obtain ⟨rfl, rfl⟩ := hnone h0
    rw [hscript, hother u h0, show 0 = 0 + 0 from rfl, barriersBefore_share]
    exact Nat.le_add_left ..

/-- The first thread fills the queue. -/
theorem mayCall_fill (hmade : made 0 < a + m) :
    Run.MayCall S opts ⟨q, w, T, k⟩ made busy 0 .enqueue := by
  refine ⟨?_, fun u hu => ?_⟩
  · rw [hfirst, calls_scriptOf, List.getElem?_append_left (by rwa [List.length_replicate]),
      List.getElem?_replicate, if_pos hmade]
  · rw [hidle u, if_neg Bool.false_ne_true]
    by_cases h0 : u = 0
    · subst h0
      exact Nat.le_refl _
    · rw [hfirst]
      refine (barriersBefore_fill hmade).trans ?_
      obtain ⟨a', m', ops', hscript, hparts⟩ := script_eq (S := S) (q := q) (w := w) (k := k) hops
        hfits hu
      obtain ⟨rfl, rfl⟩ := hparts.first h0
      rw [hscript, hother u h0, show 0 = 0 + 0 from rfl, barriersBefore_share]
      omega

/-- When the queue is filled, another thread can make its first call. -/
theorem mayCall_share (hmade : made 0 = a + m) (h0 : t ≠ 0) (ht : t < T)
    (hshare : 0 < callsMade (workloadOf w) n T) :
    ∃ call, Run.MayCall S opts ⟨q, w, T, k⟩ made busy t call := by
  obtain ⟨a', m', ops', hscript, hparts⟩ :=
    script_eq (S := S) (q := q) (w := w) (k := k) hops hfits ht
  obtain ⟨rfl, rfl⟩ := hparts.first h0
  rw [← hparts.length] at hshare
  obtain ⟨call, rest, rfl⟩ := List.exists_cons_of_length_pos hshare
  refine ⟨call, ?_, fun u hu => ?_⟩
  · rw [hscript, calls_scriptOf, hother t h0]
    rfl
  · have hthree : barriersBefore (Run.script S opts ⟨q, w, T, k⟩ t) (made t) = 3 := by
      rw [hscript, hother t h0, show 0 = 0 + 0 from rfl, barriersBefore_share]
      rfl
    rw [hthree, hidle u, if_neg Bool.false_ne_true]
    exact barriers_of_filled hops hfits hfirst hother hmade hu

end Scripts

end QueueFairness.BenchmarkDriver
