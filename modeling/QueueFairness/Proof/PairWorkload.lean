import QueueFairness.Lib.Amortized
import QueueFairness.Lib.CoveredCalls
import QueueFairness.Proof.BenchmarkDriver
import QueueFairness.Proof.FlatCombiningSolo
import QueueFairness.Proof.MSQueueLinearizable
import QueueFairness.Proof.MSQueueLockFree
import QueueFairness.Proof.MSQueueMoves
import QueueFairness.Proof.Workloads

/-!
# The pairs of an enqueue and a dequeue

In the workload `pair` every thread puts an item in before it takes one out. On a queue that is
linearizable no dequeue of such a run fails, so that every one of them is recorded, and the number
of records that the figures are computed from is known beforehand.
-/

namespace QueueFairness.BenchmarkDriver

open Interleaving (Tid)
open AtomicQueue

/-- The call of the queue that an event is, if it is one. -/
def queueCall : Workloads.Event → Option (Op Int)
  | .enqueue item _ => some (.enqueue item)
  | .dequeue _ => some .dequeue
  | _ => none

/-- The calls that `run_benchmark` has thread `t` make. -/
def callsFor (S : Workloads.Shuffle) (numOps : Int) (workloadName : String) (numThreads : Nat)
    (t : Tid) : List (Op Int) :=
  if t < numThreads then
    (workerThread S numOps workloadName numThreads t).elim [] fun r => r.1.filterMap queueCall
  else
    []

variable {S : Workloads.Shuffle} {n T : Nat} {t : Tid}

theorem covered_enqueues {β : Type} (f : β → Int) (xs : List β) :
    Covered (xs.map fun x => Op.enqueue (f x)) := by
  rw [← List.flatMap_singleton' (xs.map _), List.flatMap_map]
  exact .flatMap (fun x => covered_enqueue (f x)) xs

theorem dequeues_enqueues {β : Type} (f : β → Int) (xs : List β) :
    dequeues (xs.map fun x => Op.enqueue (f x)) = 0 :=
  List.countP_eq_zero.mpr fun op hop => by
    obtain ⟨x, -, rfl⟩ := List.mem_map.mp hop
    exact Bool.false_ne_true

/-- The items that are put in beforehand. -/
theorem filterMap_prefill (tid : Tid) (k : Nat) :
    ((List.range k).map fun (i : Nat) => Workloads.Event.enqueue i tid).filterMap queueCall
      = (List.range k).map fun (i : Nat) => Op.enqueue (i : Int) := by
  rw [List.filterMap_map]
  exact congrFun (List.filterMap_eq_map (f := fun i : Nat => Op.enqueue (i : Int))) (List.range k)

theorem filterMap_pairs (tid : Tid) (s : Workloads.Shares) :
    (Workloads.calls S tid n s .enqueueDequeuePair).filterMap queueCall
      = (List.range n).flatMap fun (i : Nat) => [Op.enqueue (i : Int), .dequeue] := by
  rw [Workloads.calls, List.filterMap_flatMap, Int.toNat_natCast]
  rfl

theorem dequeues_pairs (xs : List Nat) :
    dequeues (xs.flatMap fun (i : Nat) => [Op.enqueue (i : Int), .dequeue]) = xs.length := by
  induction xs with
  | nil => rfl
  | cons i xs ih =>
      rw [List.flatMap_cons, dequeues_append, ih, List.length_cons, Nat.add_comm]
      rfl

/-- A thread puts some items in beforehand, if any, and then makes its pairs of calls. -/
theorem callsFor_pair_eq (hfits : T * n < 2 ^ 31) (ht : t < T) :
    ∃ k m : Nat, callsFor S n "pair" T t
      = (List.range k).map (fun (i : Nat) => Op.enqueue (i : Int))
        ++ (List.range m).map (fun (i : Nat) => Op.enqueue (i : Int))
        ++ (List.range n).flatMap fun (i : Nat) => [Op.enqueue (i : Int), .dequeue] := by
  have hT : 0 < T := Nat.zero_lt_of_lt ht
  obtain ⟨m, hshares, -⟩ := Workloads.shares_eq (w := .enqueueDequeuePair) hT hfits
  have hworker : Workloads.worker S t n .enqueueDequeuePair T = some _ :=
    Workloads.worker_eq hshares
  refine ⟨if t = 0 then 5000 else 0, if t = 0 then m else 0, ?_⟩
  have hworkload : workloadOf "pair" = .enqueueDequeuePair := rfl
  rw [callsFor, if_pos ht, workerThread, hworkload, hworker]
  simp only [Option.bind_eq_bind, Option.bind_some, Option.pure_def, Option.elim_some,
    List.filterMap_append, filterMap_pairs, true_and, Workloads.setup]
  have hbarrier : List.filterMap queueCall [Workloads.Event.arriveAndWait] = [] := rfl
  have hbarriers : List.filterMap queueCall [Workloads.Event.arriveAndWait, .arriveAndWait] = [] :=
    rfl
  have hstart : List.filterMap queueCall [Workloads.Event.arriveAndWait, .startCounting] = [] := rfl
  have hstop : List.filterMap queueCall [Workloads.Event.stopCounting] = [] := rfl
  rw [hbarrier, hbarriers, hstart, hstop]
  by_cases h0 : t = 0
  · subst h0
    simp only [if_true, filterMap_prefill, List.append_nil, List.append_assoc]
  · simp only [if_neg h0, List.filterMap_nil, List.range_zero, List.map_nil, List.nil_append,
      List.append_nil]

/-- **Every thread is covered in the workload `pair`**, and makes its dequeues. -/
theorem callsFor_pair (hfits : T * n < 2 ^ 31) : Covered (callsFor S n "pair" T t)
    ∧ (t < T → dequeues (callsFor S n "pair" T t) = n) := by
  by_cases ht : t < T
  · obtain ⟨k, m, heq⟩ := callsFor_pair_eq (S := S) hfits ht
    rw [heq]
    refine ⟨((covered_enqueues _ _).append (covered_enqueues _ _)).append
      (.flatMap (fun i => covered_pair _) _), fun _ => ?_⟩
    rw [dequeues_append, dequeues_append, dequeues_enqueues, dequeues_enqueues, dequeues_pairs,
      List.length_range, Nat.zero_add]
  · rw [callsFor, if_neg ht]
    exact ⟨covered_nil, fun h => absurd h ht⟩

section Runs

variable {acts : List (Act Int)} {s : State Int}

/-- No dequeue that returned found the queue empty. -/
def NoneFails (acts : List (Act Int)) : Prop :=
  ∀ t success out, .ret t (.dequeued success out) ∈ acts → success = true ∧ out.isSome

/-- The threads have made no other calls than they make in the workload `pair`. -/
def MakePairs (S : Workloads.Shuffle) (n T : Nat) (acts : List (Act Int)) : Prop :=
  ∀ t, callsOf t acts <+: callsFor S n "pair" T t

theorem MakePairs.covered (hfits : T * n < 2 ^ 31) (h : MakePairs S n T acts) (t : Tid) :
    Covered (callsOf t acts) :=
  (callsFor_pair hfits).1.anti (h t)

theorem noneFails (hfits : T * n < 2 ^ 31) (h : AtomicQueue.Run acts s)
    (hpairs : MakePairs S n T acts) : NoneFails acts :=
  fun _ _ _ hret => h.dequeued_of_covered (hpairs.covered hfits) hret

/-- A thread that has made its calls was handed an item by every dequeue. -/
theorem itemsTo_pair (hfits : T * n < 2 ^ 31) (h : AtomicQueue.Run acts s)
    (hpairs : MakePairs S n T acts) (ht : t < T) (hidle : s.phase t = .idle)
    (hall : callsOf t acts = callsFor S n "pair" T t) :
    itemsTo t acts = n := by
  rw [h.itemsTo_eq (hpairs.covered hfits) hidle, hall, (callsFor_pair hfits).2 ht]

/-- What is left of the records, when every thread has logged `n` of them. -/
theorem length_trim_committed {logs : Tid → List LogRecord} {order : List Tid}
    (hlogs : ∀ t, t < T → (logs t).length = n) (horder : order.Perm (List.range T)) :
    (trim T (committed logs order)).length = T * (n - 200) := by
  have hsum : (order.map fun t => (logs t).length).sum = T * n := by
    have hn : ∀ t ∈ List.range T, (logs t).length = n := fun t ht => hlogs t (List.mem_range.mp ht)
    rw [(horder.map _).sum_eq, List.map_congr_left hn, List.map_const',
      List.sum_replicate_nat, List.length_range]
  rw [trim_eq, List.length_drop, length_committed, hsum, Nat.mul_sub, Nat.mul_comm T 200]

/-- Threads that have made all their calls. -/
theorem makePairs_of_calls
    (hcalls : ∀ t, callsOf t acts = if t < T then callsFor S n "pair" T t else []) :
    MakePairs S n T acts := by
  intro t
  rw [hcalls t]
  split
  · exact List.prefix_rfl
  · exact List.nil_prefix

end Runs

end QueueFairness.BenchmarkDriver

namespace QueueFairness.MSQueue

open Interleaving AtomicQueue BenchmarkDriver

/-- A record of a dequeue that has not returned yet. -/
def Local.unreturned {α : Type} : Local α → Nat
  | .deqDelete _ _ => 1
  | _ => 0

section Account

variable {α : Type} {t u : Tid} {i : Input α} {g g' : Shared α} {l l' : Local α}
  {es : List (Event α)}

/-- A thread logs a record for each item it is handed, and logs for itself alone. -/
theorem move_account (hmove : Move t i g l g' l' es) :
    (g'.log t).length + l.unreturned = (g.log t).length + itemsTo t (acts es) + l'.unreturned
      ∧ ∀ u, u ≠ t → (g'.log u).length = (g.log u).length ∧ itemsTo u (acts es) = 0 := by
  have hret : ∀ (res : Res α) u, u ≠ t → itemsTo u [.ret t res] = 0 := fun res u hu =>
    itemsTo_of_not_ret fun res' hmem => hu (congrArg Act.tid (List.mem_singleton.mp hmem))
  cases hmove with
  | deqNowLin =>
      refine ⟨?_, fun u hu => ⟨?_, rfl⟩⟩
      · simp only [Function.update_self, List.length_append]
        rfl
      · simp only [Function.update_of_ne hu]
  | enqSwingTail =>
      refine ⟨?_, fun u hu => ⟨by rw [Shared.casTail_log], hret _ u hu⟩⟩
      rw [Shared.casTail_log]
      exact congrArg ((g.log t).length + ·) (itemsTo_ret .enqueued).symm
  | deqEmpty | deqDelete =>
      refine ⟨?_, fun u hu => ⟨rfl, hret _ u hu⟩⟩
      simp [acts, queueAct, itemsTo_ret, Res.hasItem, Local.unreturned, Shared.setStatus]
  | enqHelpTail | deqHelpTail =>
      refine ⟨?_, fun u hu => ⟨by rw [Shared.casTail_log], rfl⟩⟩
      rw [Shared.casTail_log]
      rfl
  | _ => exact ⟨rfl, fun u hu => ⟨rfl, rfl⟩⟩

end Account

variable {S : Workloads.Shuffle} {n T : Nat} {t : Tid}
  {c : Config (Shared Int) (Local Int) (Event Int)}

/-- A thread has logged a record for each item it was handed, and for the one it is about to be. -/
theorem Reach.length_log {α : Type} [Inhabited α] {c : Config (Shared α) (Local α) (Event α)}
    (h : (program α).Reachable c) (t : Tid) :
    (c.shared.log t).length = itemsTo t (acts c.history) + (c.locals t).unreturned :=
  h.account (fun g t => (g.log t).length) Local.unreturned (fun t es => itemsTo t (acts es))
    (fun t es fs => by rw [acts_append, itemsTo_append]) (fun t => rfl)
    (fun hstep => move_account (step_move hstep)) t

/-- **In the workload `pair` no dequeue of MSQueue fails**, whatever the threads and
their interleaving. When all are done every thread has logged each of its dequeues, and the records
that the figures are computed from are all but 200 a thread, in whatever order the threads commit
and whatever a stamp that nobody has written reads as. -/
theorem pair_dequeues (hfits : T * n < 2 ^ 31) (h : (program Int).Reachable c)
    (hpairs : MakePairs S n T (acts c.history)) :
    NoneFails (acts c.history)
      ∧ ((∀ t, t < T → c.locals t = .idle
            ∧ callsOf t (acts c.history) = callsFor S n "pair" T t) →
          (∀ t, t < T → (c.shared.log t).length = n)
            ∧ ∀ (values : MSLogRecord → LogRecord) (order : List Tid), order.Perm (List.range T) →
              (trim T (committed (fun t => (c.shared.log t).map values) order)).length
                = T * (n - 200)) := by
  obtain ⟨x, hm, hphase⟩ := Reach.simulated h
  -- The matching run has the same calls and the same answers.
  have hcallsOf : ∀ t, callsOf t x.acts = callsOf t (acts c.history) := fun t => by
    rw [← hm.observed, callsOf_observed]
  have hanswersOf : ∀ t, itemsTo t x.acts = itemsTo t (acts c.history) := fun t => by
    rw [← hm.observed, itemsTo, itemsTo, answersOf_observed]
  have hpairs' : MakePairs S n T x.acts := fun t => hcallsOf t ▸ hpairs t
  refine ⟨fun t success out hret => ?_, fun hdone => ?_⟩
  · rw [← hm.observed] at hret
    exact noneFails hfits hm.run hpairs' t success out (List.mem_of_mem_filter hret)
  · have hlogs : ∀ t, t < T → (c.shared.log t).length = n := by
      intro t ht
      obtain ⟨hidle, hall⟩ := hdone t ht
      have hphase' : x.abs.phase t = .idle := by rw [hphase t, hidle]; rfl
      have hitems := itemsTo_pair hfits hm.run hpairs' ht hphase' ((hcallsOf t).trans hall)
      rw [Reach.length_log h t, hidle, ← hanswersOf, hitems]
      rfl
    refine ⟨hlogs, fun values order horder => length_trim_committed (fun t ht => ?_) horder⟩
    rw [List.length_map, hlogs t ht]

/-- Two threads that make 201 pairs each. -/
theorem pair_dequeues_two : ∃ c, (program Int).Reachable c ∧ NoneFails (acts c.history)
    ∧ (∀ t, t < 2 → (c.shared.log t).length = 201)
    ∧ ∀ (values : MSLogRecord → LogRecord) (order : List Tid), order.Perm (List.range 2) →
      (trim 2 (committed (fun t => (c.shared.log t).map values) order)).length = 2 := by
  obtain ⟨c, hc, hidle, hcalls⟩ := exists_calls (callsFor .inOrder 201 "pair" 2) 2
  have hmade : ∀ t, t < 2 → callsOf t (acts c.history) = callsFor .inOrder 201 "pair" 2 t :=
    fun t ht => (hcalls t).trans (if_pos ht)
  have hpairs : MakePairs .inOrder 201 2 (acts c.history) := makePairs_of_calls hcalls
  obtain ⟨hnone, hall⟩ := pair_dequeues (by decide) hc hpairs
  exact ⟨c, hc, hnone, hall fun t ht => ⟨hidle t, hmade t ht⟩⟩

end QueueFairness.MSQueue

namespace QueueFairness.FlatCombiningQueue

open Interleaving AtomicQueue BenchmarkDriver

/-- A record of a dequeue that has not returned yet. -/
def Local.unreturned {α : Type} : Local α → Nat
  | .returnSuccess (some _) => 1
  | _ => 0

section Account

variable {α : Type} {numThreads : Nat} {t u : Tid} {i : Input α} {g g' : Shared α}
  {l l' : Local α} {scan scan' : Scan α} {ts : Nat} {es : List (Event α)}

/-- A combiner logs nothing for others, and answers no one. -/
theorem scanStep_account (hstep : scanStep numThreads ts g scan = some (g', scan', es)) :
    g'.log = g.log ∧ ∀ u, itemsTo u (acts es) = 0 := by
  cases scan with
  | unlock => cases hstep
  | loadOpcode i | testEmpty i | front i =>
      simp only [scanStep] at hstep
      split at hstep <;> cases hstep <;> exact ⟨rfl, fun _ => rfl⟩
  | nowEnqLin i n | nowDeqLin i n =>
      simp only [scanStep, Option.ite_none_right_eq_some] at hstep
      obtain ⟨-, heq⟩ := hstep
      cases heq
      exact ⟨rfl, fun _ => rfl⟩
  | _ =>
      cases hstep
      exact ⟨rfl, fun _ => rfl⟩

/-- A thread logs a record for each item it is handed, and logs for itself alone. -/
theorem step_account [Inhabited α] (hstep : step numThreads t i g l = some (g', l', es)) :
    (g'.log t).length + l.unreturned = (g.log t).length + itemsTo t (acts es) + l'.unreturned
      ∧ ∀ u, u ≠ t → (g'.log u).length = (g.log u).length ∧ itemsTo u (acts es) = 0 := by
  have hret : ∀ (res : Res α) u, u ≠ t → itemsTo u [.ret t res] = 0 := fun res u hu =>
    itemsTo_of_not_ret fun res' hmem => hu (congrArg Act.tid (List.mem_singleton.mp hmem))
  have hafter : ∀ op : Op α, afterApply t op = (l', es) →
      l'.unreturned = 0 ∧ ∀ u, itemsTo u (acts es) = 0 := by
    intro op heq
    cases op with
    | enqueue item =>
        cases heq
        refine ⟨rfl, fun u => ?_⟩
        by_cases hu : u = t
        · subst hu
          exact itemsTo_ret .enqueued
        · exact hret .enqueued u hu
    | dequeue =>
        cases heq
        exact ⟨rfl, fun u => rfl⟩
  cases l with
  | idle =>
      simp only [step, Option.ite_none_right_eq_some, Option.map_eq_some_iff] at hstep
      obtain ⟨-, op, -, heq⟩ := hstep
      cases heq
      exact ⟨rfl, fun u hu => ⟨rfl, rfl⟩⟩
  | nowInv op =>
      simp only [step, Option.ite_none_right_eq_some] at hstep
      obtain ⟨-, heq⟩ := hstep
      cases op <;> cases heq <;> exact ⟨rfl, fun u hu => ⟨rfl, rfl⟩⟩
  | tryLock op =>
      simp only [step] at hstep
      split at hstep <;> cases hstep <;> exact ⟨rfl, fun u hu => ⟨rfl, rfl⟩⟩
  | loadDone op =>
      simp only [step] at hstep
      split at hstep
      · simp only [Option.some.injEq, Prod.mk.injEq] at hstep
        obtain ⟨rfl, heq⟩ := hstep
        obtain ⟨hnone, hitems⟩ := hafter op heq
        exact ⟨by rw [hnone, hitems]; rfl, fun u hu => ⟨rfl, hitems u⟩⟩
      · cases hstep
        exact ⟨rfl, fun u hu => ⟨rfl, rfl⟩⟩
  | combine op scan =>
      cases scan with
      | unlock =>
          simp only [step, Option.some.injEq, Prod.mk.injEq] at hstep
          obtain ⟨rfl, heq⟩ := hstep
          obtain ⟨hnone, hitems⟩ := hafter op heq
          exact ⟨by rw [hnone, hitems]; rfl, fun u hu => ⟨rfl, hitems u⟩⟩
      | _ =>
          simp only [step, Option.map_eq_some_iff] at hstep
          obtain ⟨r, hscan, heq⟩ := hstep
          cases heq
          obtain ⟨hlog, hitems⟩ := scanStep_account hscan
          exact ⟨by rw [hlog, hitems]; rfl, fun u hu => ⟨by rw [hlog], hitems u⟩⟩
  | readSuccess =>
      simp only [step] at hstep
      split at hstep <;> cases hstep <;> exact ⟨rfl, fun u hu => ⟨rfl, rfl⟩⟩
  | logRecord out enqInvTs enqLinTs deqInvTs =>
      cases hstep
      refine ⟨?_, fun u hu => ⟨?_, rfl⟩⟩
      · simp only [Function.update_self, List.length_append]
        rfl
      · simp only [Function.update_of_ne hu]
  | returnSuccess out =>
      cases hstep
      refine ⟨?_, fun u hu => ⟨rfl, hret _ u hu⟩⟩
      cases out <;> simp [acts, itemsTo_ret, Res.hasItem, Local.unreturned]
  | _ =>
      cases hstep
      exact ⟨rfl, fun u hu => ⟨rfl, rfl⟩⟩

end Account

/-- A thread has logged a record for each item it was handed, and for the one it is about to be. -/
theorem Reach.length_log {α : Type} [Inhabited α] {numThreads : Nat}
    {c : Config (Shared α) (Local α) (Event α)} (h : (program α numThreads).Reachable c) (t : Tid) :
    (c.shared.log t).length = itemsTo t (acts c.history) + (c.locals t).unreturned :=
  h.account (fun g t => (g.log t).length) Local.unreturned (fun t es => itemsTo t (acts es))
    (fun t es fs => by rw [acts, List.filterMap_append, itemsTo_append, acts, acts]) (fun t => rfl)
    step_account t

/-- **In the workload `pair` no dequeue of the flat combining queue fails**, and when all threads
are done the figures are computed from all but 200 records a thread. -/
theorem pair_combined {S : Workloads.Shuffle} {n T : Nat}
    {c : Config (Shared Int) (Local Int) (Event Int)} (hfits : T * n < 2 ^ 31)
    (h : (program Int T).Reachable c) (hpairs : MakePairs S n T (acts c.history)) :
    NoneFails (acts c.history)
      ∧ ((∀ t, t < T → c.locals t = .idle
            ∧ callsOf t (acts c.history) = callsFor S n "pair" T t) →
          (∀ t, t < T → (c.shared.log t).length = n)
            ∧ ∀ order : List Tid, order.Perm (List.range T) →
              (trim T (committed c.shared.log order)).length = T * (n - 200)) := by
  obtain ⟨x, hw, hlocs⟩ := (relyGuarantee Int T).holds h
  have hrun : AtomicQueue.Run (acts c.history) x.abs := hw.run
  refine ⟨noneFails hfits hrun hpairs, fun hdone => ?_⟩
  have hlogs : ∀ t, t < T → (c.shared.log t).length = n := by
    intro t ht
    obtain ⟨hidle, hall⟩ := hdone t ht
    have hloc : Loc T ⟨x, c.shared, c.history⟩ t (c.locals t) := hlocs t
    rw [hidle] at hloc
    have hphase : x.abs.phase t = .idle := hloc.phase
    rw [Reach.length_log h t, hidle, itemsTo_pair hfits hrun hpairs ht hphase hall]
    rfl
  exact ⟨hlogs, fun order horder => length_trim_committed hlogs horder⟩

/-- Two threads that make 201 pairs each. -/
theorem pair_combined_two : ∃ c, (program Int 2).Reachable c ∧ NoneFails (acts c.history)
    ∧ (∀ t, t < 2 → (c.shared.log t).length = 201)
    ∧ ∀ order : List Tid, order.Perm (List.range 2) →
      (trim 2 (committed c.shared.log order)).length = 2 := by
  obtain ⟨c, hc, hidle, hcalls⟩ := exists_calls (callsFor .inOrder 201 "pair" 2)
  have hmade : ∀ t, t < 2 → callsOf t (acts c.history) = callsFor .inOrder 201 "pair" 2 t :=
    fun t ht => (hcalls t).trans (if_pos ht)
  have hpairs : MakePairs .inOrder 201 2 (acts c.history) := makePairs_of_calls hcalls
  obtain ⟨hnone, hall⟩ := pair_combined (by decide) hc hpairs
  exact ⟨c, hc, hnone, hall fun t ht => ⟨hidle t, hmade t ht⟩⟩

end QueueFairness.FlatCombiningQueue
