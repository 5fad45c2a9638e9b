import QueueFairness.Args
import QueueFairness.FAAArrayQueue
import QueueFairness.PRQueue
import QueueFairness.Workloads

/-!
# The driver

`BenchmarkDriver.cpp`: which runs the program comes to, what a thread of a run does, with the number
of accesses that its misses are divided by, and what `run_benchmark` does with the records of a run.
Every thread commits its log once, at the end, and before the figures are computed the first records
are dropped. Then the queue is destroyed, which drains it with `tid = 0`.

An exception in a thread ends the program, and where an `int` overflows the language says no more of
it: in either case the run is the last one. Nothing can go wrong before the first barrier, so that
all threads of that run have been started.
-/

namespace QueueFairness.BenchmarkDriver

open Interleaving (Tid)
open FairnessLogger
open Workloads (Workload Shuffle worker workerBegun)
open Args (Options)

/-- The workloads of `main`. -/
def workloads : List String := ["enqueueheavy", "pair", "dequeueheavy"]

/-- `Cell[1024]` of a ring of `PRQueueAdapter<int, false, 1024, true>`. -/
def ringLayout : Layout where
  remap := true
  size := 1024
  cellSize := 16
  cacheLineSize := 128
  size_pos := CacheRemap.ring.size_pos
  cellSize_pos := CacheRemap.ring.cellSize_pos
  cacheLineSize_pos := CacheRemap.ring.cacheLineSize_pos
  line_dvd _ := CacheRemap.ring.line_dvd
  size_dvd _ := CacheRemap.ring.size_dvd

/-- `Cell[1024]` of a node of `FAAArrayQueueAdapter<int, false, 1024, true>`. -/
def nodeLayout : Layout :=
  { ringLayout with
    cellSize := 8
    cellSize_pos := by decide
    line_dvd := by decide
    size_dvd := by decide }

/-- `make_queue<PRQueueAdapter<int, false, 1024, true>>(num_threads).q`. -/
abbrev makeLPRQueue (_numThreads : Nat) :=
  LPRQueue.program ringLayout LinkedRingQueue.defaultMaxThreads

/-- `make_queue<FAAArrayQueueAdapter<int, false, 1024, true>>(num_threads).q`. -/
abbrev makeFAAArrayQueue (numThreads : Nat) := FAAArrayQueue.program nodeLayout numThreads

def workloadOf (workloadName : String) : Workload :=
  if workloadName = "enqueueheavy" then .enqueueHeavy
  else if workloadName = "dequeueheavy" then .dequeueHeavy
  else if workloadName = "pair" then .enqueueDequeuePair
  else .enqueueDequeuePair

/-- `local_accesses`. -/
def localAccesses (numOps : Int) (workloadName : String) : Int :=
  if workloadName = "pair" then numOps * 2 else numOps

/-- `worker_thread`: what the thread does, and what its misses are divided by. -/
def workerThread (S : Shuffle) (numOps : Int) (workloadName : String) (numThreads : Int)
    (tid : Tid) : Option (List Workloads.Event × Int) := do
  let setup := if workloadName = "pair" ∧ tid = 0 then
    (List.range 5000).map fun (i : Nat) => Workloads.Event.enqueue i tid else []
  let events ← worker S tid numOps (workloadOf workloadName) numThreads
  return (setup ++ [.arriveAndWait, .startCounting] ++ events ++ [.stopCounting],
    localAccesses numOps workloadName)

/-- What the thread has done when `worker` overflows or throws. -/
def workerThreadBegun (numOps : Int) (workloadName : String) (numThreads : Int) (tid : Tid) :
    List Workloads.Event :=
  let setup := if workloadName = "pair" ∧ tid = 0 then
    (List.range 5000).map fun (i : Nat) => Workloads.Event.enqueue i tid else []
  setup ++ [.arriveAndWait, .startCounting]
    ++ workerBegun tid numOps (workloadOf workloadName) numThreads

/-! ### The records -/

/-- `commit_thread_logs`, of any of the queues, under the mutex. -/
def commitThreadLogs (records events : List LogRecord) : List LogRecord :=
  if events = [] then records else records ++ events

/-- The records of a run whose threads commit in the order `order`. -/
def committed (logs : Tid → List LogRecord) (order : List Tid) : List LogRecord :=
  order.foldl (fun records t => commitThreadLogs records (logs t)) []

/-- The records without the first ones. -/
def trim (numThreads : Nat) (records : List LogRecord) : List LogRecord :=
  if records = [] then records else records.drop (min (200 * numThreads) records.length)

/-- The enqueue and the dequeue figures of a run. -/
def reported (numThreads : Nat) (records : List LogRecord) :
    Option (OvertakeMetrics × OvertakeMetrics) :=
  if trim numThreads records = [] then
    some ({}, {})
  else do
    let enq ← enqueueFairness (trim numThreads records)
    let deq ← dequeueFairness (trim numThreads records)
    return (enq, deq)

/-! ### The runs -/

/-- One turn of the loops of `run_benchmark`. -/
structure Run where
  qname : String
  workloadName : String
  numThreads : Nat
  trial : Nat
  deriving DecidableEq

/-- The turns of the loops of `run_benchmark`, when it can write its file. -/
def runBenchmark (opts : Options) (qname workloadName : String) : List Run :=
  (List.range' 1 opts.maxThreads.toNat).flatMap fun numThreads =>
    (List.range opts.trials.toNat).map fun trial => ⟨qname, workloadName, numThreads, trial⟩

/-- The runs of `main`, in their order. -/
def runs (opts : Options) : List Run :=
  opts.queues.flatMap fun qname => workloads.flatMap fun workload =>
    if qname = "ms" then runBenchmark opts "ms" workload
    else if qname = "fc" then runBenchmark opts "fc" workload
    else if qname = "lprq" then runBenchmark opts "lprq" workload
    else if qname = "faa" then runBenchmark opts "faa" workload
    else []

/-- A call of the queue. -/
inductive Call where
  | enqueue
  | dequeue
  deriving DecidableEq

/-- What the queue and the other threads notice of an event: a call, or (`none`) a barrier. -/
def noticed : Workloads.Event → Option (Option Call)
  | .enqueue _ _ => some (some .enqueue)
  | .dequeue _ => some (some .dequeue)
  | .arriveAndWait => some none
  | .startCounting | .stopCounting => none

/-- The calls and the barriers of thread `t`, to the end of `worker_thread` or as far as it
comes. -/
def Run.script (S : Shuffle) (opts : Options) (r : Run) (t : Tid) : List (Option Call) :=
  if t < r.numThreads then
    let events := (workerThread S opts.ops r.workloadName r.numThreads t).elim
      (workerThreadBegun opts.ops r.workloadName r.numThreads t) Prod.fst
    events.filterMap noticed
  else
    []

/-- How many dequeues the threads of a run make. -/
def Run.dequeues (S : Shuffle) (opts : Options) (r : Run) : Nat :=
  ((List.range r.numThreads).map fun t => (r.script S opts t).count (some .dequeue)).sum

/-- A thread dequeues after it has enqueued: that dequeue finds an item, unless another has got it.
In any other run all dequeues can come before the first item. -/
def Run.HasRecords (S : Shuffle) (opts : Options) (r : Run) : Prop :=
  ∃ t < r.numThreads, [some .enqueue, some .dequeue].Sublist (r.script S opts t)

instance (S : Shuffle) (opts : Options) (r : Run) : Decidable (r.HasRecords S opts) :=
  inferInstanceAs (Decidable (∃ t < r.numThreads, _))

/-- What may come of the runs: the records that each may leave, one for every dequeue that has found
an item. Which these are is up to the scheduler, and their stamps are up to the clock. -/
structure Outcomes (S : Shuffle) where
  Leaves : Options → Run → List LogRecord → Prop
  exists_leaves : ∀ opts r, ∃ records, Leaves opts r records
  length_le : ∀ {opts r records}, Leaves opts r records → records.length ≤ r.dequeues S opts
  ne_nil : ∀ {opts r records}, Leaves opts r records → r.HasRecords S opts → records ≠ []

/-- The program can come to the end of a run, where the queue is destroyed: every thread comes to
its end, `200 * num_threads` can be computed when there are records, and so can the figures. -/
def Run.Finishes (S : Shuffle) (O : Outcomes S) (opts : Options) (r : Run) : Prop :=
  (∀ t < r.numThreads, (workerThread S opts.ops r.workloadName r.numThreads t).isSome)
    ∧ ∃ records, O.Leaves opts r records
      ∧ (records ≠ [] → (int (200 * r.numThreads)).isSome)
      ∧ (reported r.numThreads records).isSome

/-- The program can go on after a run: after the last trial `num_threads` can be raised. -/
def Run.Ends (S : Shuffle) (O : Outcomes S) (opts : Options) (r : Run) : Prop :=
  r.Finishes S O opts ∧ (r.trial + 1 = opts.trials → (int (r.numThreads + 1)).isSome)

/-- The program can come to run `r`, when it is to make these runs. -/
def ComesTo (S : Shuffle) (O : Outcomes S) (opts : Options) (r : Run) : List Run → Prop
  | [] => False
  | r' :: rest => r = r' ∨ r'.Ends S O opts ∧ ComesTo S O opts r rest

/-! ### A run on its queue -/

/-- How many barriers come before call `k` of a script. -/
def barriersBefore : List (Option Call) → Nat → Nat
  | [], _ => 0
  | none :: script, k => barriersBefore script k + 1
  | some _ :: _, 0 => 0
  | some _ :: script, k + 1 => barriersBefore script k

/-- Thread `t` can make the call next, when the threads have made `made` calls each and those that
are `busy` have not returned from the last of them: it is the next call of its script, and all
threads can have come to the barriers before it. -/
def Run.MayCall (S : Shuffle) (opts : Options) (r : Run) (made : Tid → Nat) (busy : Tid → Bool)
    (t : Tid) (call : Call) : Prop :=
  ((r.script S opts t).filterMap id)[made t]? = some call
    ∧ ∀ u < r.numThreads, barriersBefore (r.script S opts t) (made t)
      ≤ barriersBefore (r.script S opts u) (if busy u then made u - 1 else made u)

/-- The destructor of the queue can make the call next in `while (dequeue(0) != nullptr);`. All
threads have ended, and it is the first call of the loop or the last one has `found` an item. -/
def Run.MayDrain (S : Shuffle) (O : Outcomes S) (opts : Options) (r : Run) (made : Tid → Nat)
    (busy : Tid → Bool) (found : Prop) (t : Tid) (call : Call) : Prop :=
  t = 0 ∧ call = .dequeue ∧ r.Finishes S O opts
    ∧ (∀ u < r.numThreads, ¬ busy u ∧ ((r.script S opts u).filterMap id).length ≤ made u)
    ∧ (made 0 = ((r.script S opts 0).filterMap id).length ∨ found)

/-- Which call of the queue an operation on the ring queue is. -/
def ringCall : LinkedRingQueue.Op → Option Call
  | .enqueue _ => some .enqueue
  | .dequeue => some .dequeue
  | .estimateSize => none

/-- Which call of the queue an operation on the array queue is. -/
def arrayCall : AtomicQueue.Op Nat → Call
  | .enqueue _ => .enqueue
  | .dequeue => .dequeue

/-- The thread that an event is a call of. -/
def ringCaller : LinkedRingQueue.Event → Option Tid
  | .call t _ => some t
  | _ => none

/-- The thread that an event is a call of. -/
def arrayCaller : FAAArrayQueue.Event → Option Tid
  | .call t _ => some t
  | _ => none

/-- The run on `lprq`: its threads make the calls of their scripts, and then the queue is
destroyed. -/
def Run.OnRing (S : Shuffle) (O : Outcomes S) (opts : Options) (r : Run)
    (c : Interleaving.Config (LinkedRingQueue.Shared PRQueue.Segment)
      (LinkedRingQueue.Local PRQueue.Enq PRQueue.Deq) LinkedRingQueue.Event)
    (t : Tid) (i : LinkedRingQueue.Input) : Prop :=
  let made : Tid → Nat := fun u => c.history.countP (ringCaller · = some u)
  let busy : Tid → Bool := fun u => c.locals u ≠ .idle
  let found := ∃ item, c.history.getLast? = some (.retDeq 0 (some item))
  c.locals t = .idle → ∀ op, i.op = some op → ∃ call, ringCall op = some call
    ∧ (r.MayCall S opts made busy t call ∨ r.MayDrain S O opts made busy found t call)

/-- The run on `faa`: its threads make the calls of their scripts, and then the queue is
destroyed. -/
def Run.OnArray (S : Shuffle) (O : Outcomes S) (opts : Options) (r : Run)
    (c : Interleaving.Config FAAArrayQueue.Shared FAAArrayQueue.Local FAAArrayQueue.Event)
    (t : Tid) (i : FAAArrayQueue.Input) : Prop :=
  let made : Tid → Nat := fun u => c.history.countP (arrayCaller · = some u)
  let busy : Tid → Bool := fun u => c.locals u ≠ .idle
  let found := ∃ v, v ≠ .empty ∧ c.history.getLast? = some (.retDeq 0 v)
  c.locals t = .idle → ∀ op, i.op = some op →
    r.MayCall S opts made busy t (arrayCall op)
      ∨ r.MayDrain S O opts made busy found t (arrayCall op)

end QueueFairness.BenchmarkDriver
