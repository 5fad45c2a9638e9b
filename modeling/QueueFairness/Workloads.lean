import Mathlib.Data.Rat.Floor
import QueueFairness.FairnessLogger

/-!
# The workloads

`Workloads.hpp`: the calls that a thread of a run makes, and in what order. A thread that overflows
an `int`, or reserves less than nothing, has none. The ratios are the decimal fractions that the
source writes, and the shuffle is any.
-/

namespace QueueFairness.Workloads

open Interleaving (Tid)
open FairnessLogger (int)

inductive Workload where
  | enqueueHeavy
  | dequeueHeavy
  | enqueueDequeuePair
  deriving DecidableEq

/-- What a thread does, as far as the queue, the barrier and the miss counters see it. -/
inductive Event where
  | enqueue (item : Int) (tid : Tid)
  | dequeue (tid : Tid)
  | arriveAndWait
  | startCounting
  | stopCounting
  deriving DecidableEq

/-- `std::shuffle`, under the engine of a seed. -/
structure Shuffle where
  shuffle : Tid → List Int → List Int
  perm : ∀ seed ops, (shuffle seed ops).Perm ops

/-- The shuffle that leaves everything where it is. -/
def Shuffle.inOrder : Shuffle where
  shuffle _ ops := ops
  perm _ _ := .refl _

/-- `std::round`: halves go away from zero. -/
def round (x : ℚ) : Int := if 0 ≤ x then ⌊x + 1 / 2⌋ else -⌊-x + 1 / 2⌋

def Workload.ratio : Workload → ℚ
  | .enqueueHeavy => 67 / 100
  | .dequeueHeavy => 33 / 100
  | .enqueueDequeuePair => 1

/-- The numbers that `worker` computes before it comes to the queue. -/
structure Shares where
  perThreadEnq : Int
  perThreadDeq : Int
  prefill : Int
  deriving DecidableEq

def prefill (totalEnq totalDeq : Int) : Workload → Option Int
  | .enqueueHeavy => some 0
  | .dequeueHeavy => do
      let deficit ← int (totalDeq - totalEnq)
      int (max 0 deficit + 1000)
  | .enqueueDequeuePair => some 1000

def shares (numOps : Int) (workload : Workload) (numThreads : Int) : Option Shares := do
  let totalOps ← int (numThreads * numOps)
  let totalEnq ← int (round (totalOps * workload.ratio))
  let totalDeq ← int (totalOps - totalEnq)
  let prefill ← prefill totalEnq totalDeq workload
  if numThreads = 0 then
    none
  else
    return ⟨← int (totalEnq.tdiv numThreads), ← int (totalDeq.tdiv numThreads), prefill⟩

/-- The calls between the barriers. -/
def calls (S : Shuffle) (tid : Tid) (numOps : Int) (s : Shares) : Workload → List Event
  | .enqueueDequeuePair =>
      (List.range numOps.toNat).flatMap fun (i : Nat) => [.enqueue i tid, .dequeue tid]
  | _ =>
      let ops := List.replicate s.perThreadEnq.toNat 0 ++ List.replicate s.perThreadDeq.toNat 1
      (S.shuffle tid ops).map fun op => if op = 0 then .enqueue 1 tid else .dequeue tid

def worker (S : Shuffle) (tid : Tid) (numOps : Int) (workload : Workload) (numThreads : Int) :
    Option (List Event) := do
  let s ← shares numOps workload numThreads
  let setup := if tid = 0 ∧ s.prefill > 0 then
    (List.range s.prefill.toNat).map fun (i : Nat) => Event.enqueue i 0 else []
  if numOps < 0 then
    none
  else
    return setup ++ [.arriveAndWait, .arriveAndWait] ++ calls S tid numOps s workload
      ++ [.arriveAndWait]

/-- What a thread has done when `worker` overflows, or throws at `ops.reserve(num_ops)`. -/
def workerBegun (tid : Tid) (numOps : Int) (workload : Workload) (numThreads : Int) : List Event :=
  match shares numOps workload numThreads with
  | none => []
  | some s =>
      let setup := if tid = 0 ∧ s.prefill > 0 then
        (List.range s.prefill.toNat).map fun (i : Nat) => Event.enqueue i 0 else []
      setup ++ [.arriveAndWait]

end QueueFairness.Workloads
