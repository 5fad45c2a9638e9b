import Mathlib.Algebra.Order.Ring.Abs
import QueueFairness.BenchmarkDriver
import QueueFairness.Proof.Fenwick

/-!
# The calls a thread is charged with

A thread makes its share of all enqueues and its share of all dequeues, each rounded down, and the
first thread fills the queue on top of that. What its misses are divided by takes no account of
either.
-/

namespace QueueFairness.Workloads

open Interleaving (Tid)
open FairnessLogger (int int_eq)

/-- The enqueues in a hundred operations. -/
def Workload.percent : Workload → Nat
  | .enqueueHeavy => 67
  | .dequeueHeavy => 33
  | .enqueueDequeuePair => 100

theorem Workload.ratio_eq (w : Workload) : w.ratio = w.percent / 100 := by
  cases w <;> norm_num [ratio, percent]

theorem round_eq (m p : Nat) : round ((m : ℚ) * (p / 100)) = ((m * p + 50) / 100 : Nat) := by
  have hnonneg : 0 ≤ (m : ℚ) * (p / 100) := by positivity
  have hhalf : (m : ℚ) * (p / 100) + 1 / 2 = ((m * p + 50 : Nat) : ℚ) / (100 : Nat) := by
    push_cast
    ring
  rw [round, if_pos hnonneg, hhalf, Rat.floor_natCast_div_natCast]
  rfl

/-- All enqueues of a run. -/
def enqueues (w : Workload) (m : Nat) : Nat := (m * w.percent + 50) / 100

theorem enqueues_le (w : Workload) (m : Nat) : enqueues w m ≤ m := by
  cases w <;> simp only [enqueues, Workload.percent] <;> omega

variable {S : Shuffle} {w : Workload} {n T : Nat} {tid : Tid}

theorem prefill_spec {m : Nat} (hm : m < 2 ^ 31) :
    ∃ k : Nat, prefill (enqueues w m) ((m - enqueues w m : Nat) : Int) w = some (k : Int)
      ∧ (if w = .enqueueHeavy then k = 0 else 1000 ≤ k) ∧ 2 * k ≤ m + 3000 := by
  have hle := enqueues_le w m
  cases w with
  | enqueueHeavy => exact ⟨0, rfl, rfl, Nat.zero_le _⟩
  | enqueueDequeuePair => exact ⟨1000, rfl, Nat.le_refl 1000, Nat.le_add_left ..⟩
  | dequeueHeavy =>
      have hge : m * 33 ≤ enqueues .dequeueHeavy m * 100 + 49 := by
        simp only [enqueues, Workload.percent]
        omega
      generalize enqueues .dequeueHeavy m = e at hle hge ⊢
      refine ⟨m - e - e + 1000, ?_, Nat.le_add_left .., by omega⟩
      have hdeficit := int_eq (x := ((m - e : Nat) : Int) - e) (by omega) (by omega)
      simp only [prefill, hdeficit, Option.bind_eq_bind, Option.bind_some]
      rw [int_eq (by omega) (by omega)]
      refine congrArg some ?_
      omega

theorem shares_eq (hT : 0 < T) (hfits : T * n < 2 ^ 31) :
    ∃ k : Nat, shares n w T = some ⟨(enqueues w (T * n) / T : Nat),
        ((T * n - enqueues w (T * n)) / T : Nat), k⟩
      ∧ (if w = .enqueueHeavy then k = 0 else 1000 ≤ k) ∧ 2 * k ≤ T * n + 3000 := by
  obtain ⟨k, hprefill, hk⟩ := prefill_spec (w := w) hfits
  refine ⟨k, ?_, hk⟩
  have hle := enqueues_le w (T * n)
  have htotal : int ((T : Int) * n) = some ((T * n : Nat) : Int) := by
    rw [← Int.natCast_mul]
    exact int_eq (by omega) (by omega)
  have hround : round (((T * n : Nat) : Int) * w.ratio) = (enqueues w (T * n) : Int) := by
    rw [w.ratio_eq]
    exact round_eq (T * n) w.percent
  generalize T * n = m at *
  have hdeq : (m : Int) - enqueues w m = ((m - enqueues w m : Nat) : Int) := by omega
  have hdiv : ∀ x : Nat, x ≤ m → int ((x : Int).tdiv T) = some ((x / T : Nat) : Int) := by
    intro x hx
    have := Nat.div_le_self x T
    rw [← Int.ofNat_tdiv]
    generalize x / T = y at this ⊢
    exact int_eq (by omega) (by omega)
  simp only [shares, htotal, hround, Option.bind_eq_bind, Option.bind_some]
  rw [int_eq (x := (enqueues w m : Int)) (by omega) (by omega), Option.bind_some, hdeq,
    int_eq (x := ((m - enqueues w m : Nat) : Int)) (by omega) (by omega), Option.bind_some,
      hprefill,
    Option.bind_some, if_neg (by omega), hdiv _ hle, Option.bind_some, hdiv _ (by omega)]
  rfl

/-! ### The shares -/

theorem mul_div_add_div {e d : Nat} (h : e + d = T * n) :
    T * (e / T + d / T) + (e % T + d % T) = T * n := by
  have he := Nat.div_add_mod e T
  have hd := Nat.div_add_mod d T
  rw [Nat.mul_add]
  omega

/-- Rounding two parts of a multiple down takes at most one from its share. -/
theorem le_div_add_div {e d : Nat} (hT : 0 < T) (h : e + d = T * n) : n ≤ e / T + d / T + 1 := by
  have hsum := mul_div_add_div h
  have hlt := Nat.mod_lt e hT
  have hlt' := Nat.mod_lt d hT
  have hmul : T * n < T * (e / T + d / T + 2) := by
    rw [Nat.mul_add T _ 2]
    omega
  exact Nat.le_of_lt_succ (Nat.lt_of_mul_lt_mul_left hmul)

/-- The shares of two parts of a multiple are its share when nothing is left over. -/
theorem div_add_div_eq_iff {e d : Nat} (hT : 0 < T) (h : e + d = T * n) :
    e / T + d / T = n ↔ T ∣ e := by
  have hsum := mul_div_add_div h
  constructor
  · intro heq
    rw [heq] at hsum
    exact Nat.dvd_of_mod_eq_zero (by omega)
  · rintro ⟨q, rfl⟩
    have hd : T ∣ d := (Nat.dvd_add_right ⟨q, rfl⟩).mp ⟨n, h⟩
    obtain ⟨r, rfl⟩ := hd
    rw [Nat.mul_div_cancel_left q hT, Nat.mul_div_cancel_left r hT]
    exact Nat.eq_of_mul_eq_mul_left hT (by rw [Nat.mul_add, h])

/-- The threads' shares of the enqueues leave nothing over, or not more than the rounding takes
away. -/
def SplitsEvenly (w : Workload) (n T : Nat) : Prop :=
  w.percent * n % 100 * T < 50 ∨ (100 - w.percent * n % 100) * T ≤ 50

instance : Decidable (SplitsEvenly w n T) := inferInstanceAs (Decidable (_ ∨ _))

theorem dvd_enqueues_iff : T ∣ enqueues w (T * n) ↔ SplitsEvenly w n T := by
  have hb : w.percent * n % 100 < 100 := Nat.mod_lt _ (by decide)
  have hsplit : enqueues w (T * n)
      = T * (w.percent * n / 100) + (w.percent * n % 100 * T + 50) / 100 := by
    have hproduct : T * n * w.percent
        = 100 * (T * (w.percent * n / 100)) + w.percent * n % 100 * T := by
      have := congrArg (T * ·) (Nat.div_add_mod (w.percent * n) 100)
      calc T * n * w.percent = T * (w.percent * n) := by ring
        _ = T * (100 * (w.percent * n / 100) + w.percent * n % 100) := this.symm
        _ = _ := by ring
    rw [enqueues, hproduct, Nat.add_assoc, Nat.mul_add_div (by decide)]
  rw [hsplit, Nat.dvd_add_right (Nat.dvd_mul_right ..), SplitsEvenly, Nat.sub_mul]
  have hle : w.percent * n % 100 * T ≤ 99 * T := Nat.mul_le_mul_right T (by omega)
  generalize w.percent * n % 100 * T = x at *
  constructor
  · intro hdvd
    rcases Nat.eq_zero_or_pos ((x + 50) / 100) with h0 | hpos
    · left
      omega
    · have := Nat.le_of_dvd hpos hdvd
      right
      omega
  · rintro (hlt | hge)
    · rw [show (x + 50) / 100 = 0 by omega]
      exact Nat.dvd_zero T
    · rw [show (x + 50) / 100 = T by omega]

/-! ### The calls -/

def Event.IsCall : Event → Prop
  | .enqueue _ _ | .dequeue _ => True
  | _ => False

instance : DecidablePred Event.IsCall
  | .enqueue _ _ | .dequeue _ => isTrue trivial
  | .arriveAndWait | .startCounting | .stopCounting => isFalse id

/-- The calls of the queue while the misses are counted. -/
def counted (events : List Event) : Nat :=
  ((events.dropWhile (· ≠ .startCounting)).takeWhile (· ≠ .stopCounting)).countP (·.IsCall)

theorem counted_eq {front events : List Event} (hfront : Event.startCounting ∉ front)
    (hevents : Event.stopCounting ∉ events) :
    counted (front ++ [Event.startCounting] ++ events ++ [Event.stopCounting])
      = events.countP (·.IsCall) := by
  have hbefore : ∀ e ∈ front, decide (e ≠ Event.startCounting) = true := fun e he =>
    decide_eq_true fun heq => hfront (heq ▸ he)
  have hwhile : ∀ e ∈ Event.startCounting :: events, decide (e ≠ Event.stopCounting) = true := by
    refine List.forall_mem_cons.mpr ⟨by decide, fun e he => ?_⟩
    exact decide_eq_true fun heq => hevents (heq ▸ he)
  have hdrop : (front ++ [Event.startCounting] ++ events ++ [Event.stopCounting]).dropWhile
      (· ≠ Event.startCounting) = (Event.startCounting :: events) ++ [Event.stopCounting] := by
    rw [List.append_assoc, List.append_assoc, List.dropWhile_append_of_pos hbefore]
    rfl
  have hstop : [Event.stopCounting].takeWhile (· ≠ Event.stopCounting) = [] := rfl
  rw [counted, hdrop, List.takeWhile_append_of_pos hwhile, hstop, List.append_nil]
  exact List.countP_cons_of_neg (by decide)

theorem countP_calls (s : Shares) : (calls S tid n s w).countP (·.IsCall)
    = if w = .enqueueDequeuePair then 2 * n else s.perThreadEnq.toNat + s.perThreadDeq.toNat := by
  have hops : ∀ ops : List Int,
      (ops.map fun op => if op = 0 then Event.enqueue 1 tid else .dequeue tid).countP (·.IsCall)
        = ops.length := fun ops => by
    rw [List.countP_map]
    refine List.countP_eq_length.mpr fun op _ => ?_
    simp only [Function.comp_apply]
    split <;> rfl
  have hpairs : ∀ is : List Nat,
      (is.flatMap fun (i : Nat) => [Event.enqueue i tid, .dequeue tid]).countP (·.IsCall)
        = 2 * is.length := fun is => by
    induction is with
    | nil => rfl
    | cons i is ih =>
        rw [List.flatMap_cons, List.countP_append, ih, List.length_cons]
        exact (Nat.add_comm ..).trans (Nat.mul_succ ..).symm
  cases w with
  | enqueueDequeuePair => simp [calls, hpairs]
  | enqueueHeavy | dequeueHeavy => simp [calls, hops, (S.perm _ _).length_eq]

/-- The counters are not a worker's to start or stop. -/
theorem stopCounting_notMem_calls (s : Shares) : Event.stopCounting ∉ calls S tid n s w := by
  cases w with
  | enqueueDequeuePair => simp [calls]
  | enqueueHeavy | dequeueHeavy =>
      simp only [calls, List.mem_map, not_exists, not_and]
      intro op _
      split <;> simp

/-- What a worker does before the barriers. -/
def setup (tid : Tid) (k : Nat) : List Event :=
  if tid = 0 then (List.range k).map fun (i : Nat) => Event.enqueue i 0 else []

theorem countP_setup (k : Nat) : (setup tid k).countP (·.IsCall) = if tid = 0 then k else 0 := by
  unfold setup
  split
  · rw [List.countP_map]
    exact (List.countP_eq_length.mpr fun i _ => rfl).trans List.length_range
  · rfl

theorem stopCounting_notMem_setup (k : Nat) : Event.stopCounting ∉ setup tid k := by
  unfold setup
  split <;> simp

theorem worker_eq {enq deq : Int} {k : Nat} (hshares : shares n w T = some ⟨enq, deq, k⟩) :
    worker S tid n w T = some (setup tid k ++ [.arriveAndWait, .arriveAndWait]
      ++ calls S tid n ⟨enq, deq, k⟩ w ++ [.arriveAndWait]) := by
  have hsetup : (if tid = 0 ∧ (k : Int) > 0 then
      (List.range (k : Int).toNat).map fun (i : Nat) => Event.enqueue i 0
      else []) = setup tid k := by
    unfold setup
    rcases Nat.eq_zero_or_pos k with rfl | hk
    · simp
    · simp [hk]
  rw [worker, hshares]
  simp only [Option.bind_eq_bind, Option.bind_some, hsetup]
  exact if_neg (Int.not_lt.mpr (Int.natCast_nonneg n))

/-- How many calls a thread makes between the barriers. -/
def callsMade (w : Workload) (n T : Nat) : Nat :=
  if w = .enqueueDequeuePair then 2 * n
  else enqueues w (T * n) / T + (T * n - enqueues w (T * n)) / T

/-- **The calls of a worker.** -/
theorem worker_spec (S : Shuffle) (tid : Tid) (w : Workload) (hT : 0 < T) (hfits : T * n < 2 ^ 31) :
    ∃ events k, worker S tid n w T = some events ∧ Event.stopCounting ∉ events
      ∧ (if w = .enqueueHeavy ∨ tid ≠ 0 then k = 0 else 1000 ≤ k)
      ∧ events.countP (·.IsCall) = k + callsMade w n T := by
  obtain ⟨k, hshares, hk, -⟩ := shares_eq (w := w) hT hfits
  refine ⟨_, if tid = 0 then k else 0, worker_eq hshares, ?_, ?_, ?_⟩
  · simp [stopCounting_notMem_setup, stopCounting_notMem_calls]
  · by_cases ht : tid = 0
    · simpa [ht] using hk
    · simp [ht]
  · simp only [List.countP_append, countP_setup, countP_calls, Int.toNat_natCast]
    have hbarrier : [Event.arriveAndWait].countP (·.IsCall) = 0 := rfl
    have hbarriers : [Event.arriveAndWait, .arriveAndWait].countP (·.IsCall) = 0 := rfl
    rw [hbarrier, hbarriers, Nat.add_zero, Nat.add_zero, callsMade]

end QueueFairness.Workloads

namespace QueueFairness.BenchmarkDriver

open Interleaving (Tid)
open Workloads

variable {S : Shuffle} {n T : Nat} {tid : Tid} {name : String}

/-- The misses of the thread are divided by the calls that were counted. -/
def CountsItsCalls (S : Shuffle) (n : Nat) (name : String) (T : Nat) (tid : Tid) : Prop :=
  ∃ events, workerThread S n name T tid = some (events, localAccesses n name)
    ∧ (counted events : Int) = localAccesses n name

theorem workerThread_eq {events : List Event}
    (hworker : worker S tid n (workloadOf name) T = some events)
    (hstop : Event.stopCounting ∉ events) :
    ∃ all, workerThread S n name T tid = some (all, localAccesses n name)
      ∧ counted all = events.countP (·.IsCall) := by
  have hsetup : Event.startCounting ∉ (if name = "pair" ∧ tid = 0 then
      (List.range 5000).map fun (i : Nat) => Event.enqueue i tid else []) ++ [.arriveAndWait] := by
    split <;> simp
  refine ⟨_, ?_, counted_eq hsetup hstop⟩
  rw [workerThread, hworker]
  simp only [Option.bind_eq_bind, Option.bind_some, List.append_assoc]
  rfl

/-- **When the misses of a thread are divided by the calls that were counted.** That is when the
thread did not fill the queue, and the shares of the enqueues come out even. -/
theorem countsItsCalls_iff (hname : name ∈ workloads) (hT : 0 < T) (hfits : T * n < 2 ^ 31) :
    CountsItsCalls S n name T tid
      ↔ (name = "enqueueheavy" ∨ tid ≠ 0) ∧ SplitsEvenly (workloadOf name) n T := by
  obtain ⟨events, k, hworker, hstop, hk, hcount⟩ :=
    worker_spec S tid (workloadOf name) hT hfits
  obtain ⟨all, hthread, hcounted⟩ := workerThread_eq hworker hstop
  have hiff : CountsItsCalls S n name T tid
      ↔ ((k + callsMade (workloadOf name) n T : Nat) : Int) = localAccesses n name := by
    unfold CountsItsCalls
    rw [hthread, ← hcount, ← hcounted]
    simp
  have hsum := Nat.add_sub_of_le (enqueues_le (workloadOf name) (T * n))
  have hsplit := (div_add_div_eq_iff hT hsum).trans dvd_enqueues_iff
  have hleast := le_div_add_div hT hsum
  rw [hiff, ← hsplit]
  simp only [workloads, List.mem_cons, List.not_mem_nil, or_false] at hname
  rcases hname with rfl | rfl | rfl
  · have hk : k = 0 := hk
    change ((k + (_ + _) : Nat) : Int) = n ↔ _
    simp only [true_or, true_and]
    omega
  · have hall : enqueues (workloadOf "pair") (T * n) = T * n := by
      change (T * n * 100 + 50) / 100 = T * n
      omega
    have hshare : T * n / T + (T * n - T * n) / T = n := by
      rw [Nat.mul_div_cancel_left n hT, Nat.sub_self, Nat.zero_div, Nat.add_zero]
    rw [hall, hshare]
    change ((k + 2 * n : Nat) : Int) = (n : Int) * 2 ↔ _
    by_cases ht : tid = 0
    · have hk : 1000 ≤ k := by simpa [workloadOf, ht] using hk
      simp [ht]
      omega
    · have hk : k = 0 := by simpa [workloadOf, ht] using hk
      simp [ht]
      omega
  · change ((k + (_ + _) : Nat) : Int) = n ↔ _
    by_cases ht : tid = 0
    · have hk : 1000 ≤ k := by simpa [workloadOf, ht] using hk
      simp [ht]
      omega
    · have hk : k = 0 := by simpa [workloadOf, ht] using hk
      simp only [ht, ne_eq, not_false_eq_true, or_true, true_and]
      omega

theorem countsItsCalls_iff_four : CountsItsCalls .inOrder 100 "dequeueheavy" 4 1
    ↔ ("dequeueheavy" = "enqueueheavy" ∨ 1 ≠ 0) ∧ SplitsEvenly .dequeueHeavy 100 4 :=
  countsItsCalls_iff (by decide) (by decide) (by decide)

/-- Four threads have 27 enqueues and 13 dequeues to share, and the second of them makes nine calls
instead of ten. -/
theorem not_countsItsCalls : ¬ CountsItsCalls .inOrder 10 "enqueueheavy" 4 1 := by
  rintro ⟨events, hthread, hcounted⟩
  have hnine : (workerThread .inOrder (10 : Nat) "enqueueheavy" (4 : Nat) 1).map
      (fun r => counted r.1) = some 9 := by decide +kernel
  rw [hthread] at hnine
  have hnine : counted events = 9 := Option.some.inj hnine
  rw [hnine] at hcounted
  exact absurd hcounted (by decide)

end QueueFairness.BenchmarkDriver
