import Mathlib.Algebra.Order.Field.Rat
import Mathlib.Data.List.Sort
import QueueFairness.LogRecord

/-!
# The fairness figures

`FairnessLogger.cpp`: how often, and how far, later events of one kind overtook earlier ones at
another, computed by a sort, a sweep from the latest event to the earliest and a Fenwick tree. What
the language leaves undefined, an `int` that overflows or an access outside a vector, has no result.
The figures that are `double` are exact rationals here.
-/

namespace QueueFairness.FairnessLogger

/-- The value of an `int` expression. -/
def int (x : Int) : Option Int := if -2 ^ 31 ≤ x ∧ x < 2 ^ 31 then some x else none

/-- A size converted to `int`. -/
def toInt (n : Nat) : Int := (n : Int).bmod (2 ^ 32)

/-- An `int` converted to `size_t`. -/
def toSize (x : Int) : Nat := (x % 2 ^ 64).toNat

structure Fenwick where
  bit : List Int
  deriving DecidableEq

namespace Fenwick

/-- `Fenwick(n)`. -/
def new (n : Int) : Option Fenwick := do
  let size ← int (n + 1)
  return { bit := List.replicate (toSize size) 0 }

/-- `bit[idx]`. -/
def get (b : Fenwick) (idx : Int) : Option Int :=
  if idx < 0 then none else b.bit[idx.toNat]?

/-- `idx & -idx`. -/
def lowest (idx : Int) : Option Int := do
  let neg ← int (-idx)
  return (BitVec.ofInt 32 idx &&& BitVec.ofInt 32 neg).toInt

/-- The loop of `add`, in at most as many iterations as there is fuel. -/
def addLoop (val : Int) : Nat → Int → Fenwick → Option Fenwick
  | 0, _, _ => none
  | fuel + 1, idx, b =>
      if idx < toInt b.bit.length then do
        let sum ← int ((← b.get idx) + val)
        let next ← int (idx + (← lowest idx))
        addLoop val fuel next { bit := b.bit.set idx.toNat sum }
      else
        some b

def add (b : Fenwick) (idx val : Int) : Option Fenwick := addLoop val (b.bit.length + 1) idx b

/-- The loop of `sum_prefix`, in at most as many iterations as there is fuel. -/
def sumLoop (b : Fenwick) : Nat → Int → Int → Option Int
  | 0, _, _ => none
  | fuel + 1, idx, s =>
      if 0 < idx then do
        let s' ← int (s + (← b.get idx))
        let next ← int (idx - (← lowest idx))
        b.sumLoop fuel next s'
      else
        some s

def sumPrefix (b : Fenwick) (idx : Int) : Option Int := b.sumLoop (b.bit.length + 1) idx 0

/-- The values `idx` takes in the loop of `add`, the last of them included. -/
def addIndices (b : Fenwick) : Nat → Int → List Int
  | 0, _ => []
  | fuel + 1, idx =>
      idx :: if idx < toInt b.bit.length then
        ((lowest idx).map fun low => b.addIndices fuel (idx + low)).getD []
      else
        []

/-- The values `idx` takes in the loop of `sum_prefix`, the last of them included. -/
def sumIndices : Nat → Int → List Int
  | 0, _ => []
  | fuel + 1, idx =>
      idx :: if 0 < idx then
        ((lowest idx).map fun low => sumIndices fuel (idx - low)).getD []
      else
        []

end Fenwick

inductive EventTimestamp where
  | enqueueInv
  | enqueueLin
  | dequeueInv
  | dequeueLin
  deriving DecidableEq

def getField (r : LogRecord) : EventTimestamp → Nat
  | .enqueueInv => r.enqInvTs
  | .enqueueLin => r.enqLinTs
  | .dequeueInv => r.deqInvTs
  | .dequeueLin => r.deqLinTs

structure OvertakeMetrics where
  meanAllElements : ℚ := 0
  meanOvertakenElements : ℚ := 0
  maxDepth : Nat := 0
  count : Nat := 0
  pct : ℚ := 0
  deriving DecidableEq

/-- `(e1, e2)` of the records whose `e1` is not zero. -/
def tsPairs (records : List LogRecord) (event1 event2 : EventTimestamp) : List (Nat × Nat) :=
  records.filterMap fun r =>
    if getField r event1 = 0 then none else some (getField r event1, getField r event2)

/-- The comparison that `ts_pairs` is sorted by. -/
def less (a b : Nat × Nat) : Bool := if a.1 ≠ b.1 then a.1 < b.1 else a.2 < b.2

/-- `std::stable_sort`. -/
def sortPairs (pairs : List (Nat × Nat)) : List (Nat × Nat) :=
  pairs.insertionSort fun a b => less b a = false

/-- The loop of `std::unique`, when `result` was the last value it kept. -/
def uniqueFrom (result : Nat) : List Nat → List Nat
  | [] => [result]
  | v :: vals => if result = v then uniqueFrom result vals else result :: uniqueFrom v vals

/-- `std::unique`: of a run of equal values the first is left. -/
def unique : List Nat → List Nat
  | [] => []
  | v :: vals => uniqueFrom v vals

/-- `e2_vals`. -/
def e2Vals (pairs : List (Nat × Nat)) : List Nat :=
  unique ((pairs.map Prod.snd).insertionSort (· ≤ ·))

/-- `std::lower_bound` on sorted values. -/
def lowerBound (vals : List Nat) (v : Nat) : Nat := vals.findIdx (v ≤ ·)

def rankE2 (vals : List Nat) (v : Nat) : Option Int := int (toInt (lowerBound vals v) + 1)

/-- Where the group of the pairs with `e1` that ends before `j` begins. -/
def groupStart (pairs : List (Nat × Nat)) (e1 : Nat) : Nat → Nat
  | 0 => 0
  | j + 1 => if pairs[j]?.map Prod.fst = some e1 then groupStart pairs e1 j else j + 1

/-- The depth of a pair of rank `r`: how many pairs of the tree are of a smaller one. -/
def depthAt (bit : Fenwick) (r : Int) : Option Nat :=
  if 1 < r then (bit.sumPrefix (r - 1)).map toSize else some 0

/-- The depths of the pairs from `j` to `i`. -/
def queryGroup (pairs : List (Nat × Nat)) (vals : List Nat) (bit : Fenwick) (j i : Nat)
    (depth : List Nat) : Option (List Nat) :=
  (List.range' j (i - j)).foldlM (fun depth k => do
    let r ← rankE2 vals (← pairs[k]?).2
    let d ← depthAt bit r
    return depth.set k d) depth

/-- The pairs from `j` to `i` go into the tree. -/
def insertGroup (pairs : List (Nat × Nat)) (vals : List Nat) (j i : Nat) (bit : Fenwick) :
    Option Fenwick :=
  (List.range' j (i - j)).foldlM (fun bit k => do
    let r ← rankE2 vals (← pairs[k]?).2
    bit.add r 1) bit

/-- The sweep over the pairs before `i`, in at most as many iterations as there is fuel. -/
def sweep (pairs : List (Nat × Nat)) (vals : List Nat) :
    Nat → Nat → Fenwick → List Nat → Option (List Nat)
  | 0, _, _, _ => none
  | fuel + 1, i, bit, depth =>
      if 0 < i then do
        let j := groupStart pairs (← pairs[i - 1]?).1 i
        let depth' ← queryGroup pairs vals bit j i depth
        let bit' ← insertGroup pairs vals j i bit
        sweep pairs vals fuel j bit' depth'
      else
        some depth

/-- The loop that aggregates the depths: `sum`, `max_depth` and `count`. -/
def aggregate (depth : List Nat) : Nat × Nat × Nat :=
  depth.foldl (fun (sum, maxDepth, count) d =>
    ((sum + d) % 2 ^ 64, if d > maxDepth then d else maxDepth,
      if d > 0 then count + 1 else count)) (0, 0, 0)

/-- The figures for these depths. -/
def metricsOf (depth : List Nat) : OvertakeMetrics :=
  let (sum, maxDepth, count) := aggregate depth
  let n : ℚ := depth.length
  { meanAllElements := if n > 0 then sum / n else 0
    meanOvertakenElements := if count > 0 then sum / (count : ℚ) else 0
    maxDepth := maxDepth
    count := count
    pct := if n > 0 then 100 * count / n else 0 }

def computeOvertakeMetrics (records : List LogRecord) (event1 event2 : EventTimestamp) :
    Option OvertakeMetrics :=
  if records = [] then
    some {}
  else if tsPairs records event1 event2 = [] then
    some {}
  else do
    let pairs := sortPairs (tsPairs records event1 event2)
    let vals := e2Vals pairs
    let bit ← Fenwick.new (toInt vals.length)
    let depth ← sweep pairs vals (pairs.length + 1) pairs.length bit (List.replicate pairs.length 0)
    return metricsOf depth

def enqueueFairness (records : List LogRecord) : Option OvertakeMetrics :=
  computeOvertakeMetrics records .enqueueInv .enqueueLin

def dequeueFairness (records : List LogRecord) : Option OvertakeMetrics :=
  computeOvertakeMetrics records .dequeueInv .dequeueLin

end QueueFairness.FairnessLogger
