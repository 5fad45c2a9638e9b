import Mathlib.Algebra.Order.Group.Int
import Mathlib.Algebra.Order.Group.Nat
import QueueFairness.Lib.AtomicQueue
import QueueFairness.LogRecord

/-!
# The old ring queue

`lcrqueue_old.hpp`, as one thread runs it: a list of rings of 1024 slots, each slot used once. A
compare-and-swap compares with what was loaded last, and nothing has come between. A loop makes at
most as many iterations as there is fuel; `clock` says what the readings of `now()` give. No address
is handed out twice, so a deletion changes nothing that is looked at again.
-/

namespace QueueFairness.LCRQ

open AtomicQueue (Op Res)

def ringSize : Nat := 1024

/-- A `val`: `EMPTY`, or a pointer with the state bits `VALID`. -/
inductive Val where
  | empty
  | valid (ptr : Nat)
  deriving DecidableEq

structure Entry where
  val : Val
  idx : Int
  deriving DecidableEq

/-- `RingNode`; the counters are of 64 bits. -/
structure RingNode where
  entries : Nat → Entry
  head : Int
  tail : Int
  next : Option Nat

structure State (α : Type) where
  rings : Nat → RingNode
  newRing : Nat
  headRing : Nat
  tailRing : Nat
  items : List (TimedNode α)
  records : List LogRecord
  reads : Nat

/-- `RingNode()`. -/
def RingNode.new : RingNode :=
  { entries := fun i => ⟨.empty, i⟩, head := 0, tail := 0, next := none }

/-- `fetch_add(1)`. -/
def succ64 (x : Int) : Int := (x + 1).bmod (2 ^ 64)

/-- `x & (RING_SIZE - 1)`. -/
def slot (x : Int) : Nat := (x % ringSize).toNat

/-- `idx & UNSAFE_BIT`. -/
def isUnsafe (idx : Int) : Bool := idx < 0

/-- `idx | UNSAFE_BIT`. -/
def setUnsafe (idx : Int) : Int := if idx < 0 then idx else idx - 2 ^ 63

/-- `close_ring`. -/
def RingNode.close (ring : RingNode) : RingNode :=
  { ring with
    entries := fun i =>
      let entry := ring.entries i
      if entry.idx < ringSize then { entry with idx := setUnsafe entry.idx } else entry }

def RingNode.setEntry (ring : RingNode) (i : Nat) (entry : Entry) : RingNode :=
  { ring with entries := Function.update ring.entries i entry }

variable {α : Type}

namespace State

/-- `LCRQ()`. -/
def init : State α :=
  { rings := fun _ => .new, newRing := 1, headRing := 0, tailRing := 0, items := [], records := []
    reads := 0 }

def setRing (s : State α) (r : Nat) (ring : RingNode) : State α :=
  { s with rings := Function.update s.rings r ring }

/-- A store to an item. -/
def setItem (s : State α) (ptr : Nat) (f : TimedNode α → TimedNode α) : State α :=
  { s with items := s.items.modify ptr f }

/-- `new RingNode()`. -/
def allocRing (s : State α) : State α :=
  { s.setRing s.newRing .new with newRing := s.newRing + 1 }

def setNext (s : State α) (r next : Nat) : State α :=
  s.setRing r { s.rings r with next := some next }

def closeRing (s : State α) (r : Nat) : State α := s.setRing r (s.rings r).close

/-- After a reading of the clock. -/
def tick (s : State α) : State α := { s with reads := s.reads + 1 }

end State

variable (clock : Nat → Nat)

/-- The loop of `ring_enqueue` that waits for the slot. -/
def waitForSlot (r item : Nat) (tail : Int) : Nat → State α → Option (State α × Int)
  | 0, _ => none
  | fuel + 1, s =>
      let ring := s.rings r
      let entry := ring.entries (slot tail)
      if entry.idx = tail then
        if entry.val = .empty then
          let ts := clock s.reads
          let s := s.tick.setRing r (ring.setEntry (slot tail) { entry with val := .valid item })
          some (s.setItem item fun node => { node with enqLinTs := ts }, 1)
        else
          some (s, -1)
      else if isUnsafe entry.idx then
        some (s, 0)
      else if entry.val ≠ .empty then
        some (s, -1)
      else
        waitForSlot r item tail fuel s

/-- `ring_enqueue`: 1 for success, 0 for a ring that is full, -1 to try again. All ways through the
body of its outer loop return. -/
def ringEnqueue (r item fuel : Nat) (s : State α) : Option (State α × Int) :=
  let ring := s.rings r
  let s := s.setRing r { ring with tail := succ64 ring.tail }
  if ring.tail ≥ ringSize then some (s, 0) else waitForSlot clock r item ring.tail fuel s

/-- The loop of `ring_dequeue` that waits for the item. -/
def waitForItem (r : Nat) (head : Int) : Nat → Nat → State α → Option (State α × Option Nat)
  | 0, _, _ => none
  | fuel + 1, attempts, s =>
      let ring := s.rings r
      let entry := ring.entries (slot head)
      match entry.val with
      | .valid ptr =>
          let ts := clock s.reads
          let s := s.tick.setRing r (ring.setEntry (slot head) ⟨.empty, head + ringSize⟩)
          some (s.setItem ptr fun node => { node with deqLinTs := ts }, some ptr)
      | .empty =>
          if entry.idx = head ∧ attempts + 1 < 100 then
            waitForItem r head fuel (attempts + 1) s
          else
            some (s, none)

/-- `ring_dequeue`. All ways through the body of its outer loop return. -/
def ringDequeue (r fuel : Nat) (s : State α) : Option (State α × Option Nat) :=
  let ring := s.rings r
  let s := s.setRing r { ring with head := succ64 ring.head }
  if ring.head ≥ ringSize then some (s, none) else waitForItem clock r ring.head fuel 0 s

/-- A ring that is full is followed by another. -/
def nextRing (r : Nat) (s : State α) : State α :=
  match (s.rings r).next with
  | none =>
      let new := s.newRing
      let s := s.allocRing
      match (s.rings r).next with
      | none => { (s.setNext r new).closeRing r with tailRing := new }
      | some expected => { s with tailRing := expected }
  | some next => { s with tailRing := next }

/-- The loop of `enqueue`. -/
def enqueueLoop (ptr inner : Nat) : Nat → State α → Option (State α)
  | 0, _ => none
  | fuel + 1, s => do
      let r := s.tailRing
      let (s, result) ← ringEnqueue clock r ptr inner s
      if result = 1 then return s
      else if result = 0 then enqueueLoop ptr inner fuel (nextRing r s)
      else enqueueLoop ptr inner fuel s

def enqueue (fuel : Nat) (item : α) (s : State α) : Option (State α) :=
  let node := { value := item, enqInvTs := clock s.reads }
  enqueueLoop clock s.items.length fuel fuel { s.tick with items := s.items ++ [node] }

/-- The loop of `dequeue`: whether it returns `true`, and what it wrote to `*item`. -/
def dequeueLoop (deqInvTs inner : Nat) : Nat → State α → Option (State α × Bool × Option α)
  | 0, _ => none
  | fuel + 1, s => do
      let r := s.headRing
      match ← ringDequeue clock r inner s with
      | (s, some ptr) => do
          let item ← s.items[ptr]?
          let record := ⟨item.enqInvTs, item.enqLinTs, deqInvTs, item.deqLinTs⟩
          return ({ s with records := s.records ++ [record] }, true, some item.value)
      | (s, none) =>
          match (s.rings r).next with
          | none =>
              if s.tailRing = r then return (s, false, none)
              else dequeueLoop deqInvTs inner fuel s
          | some next => dequeueLoop deqInvTs inner fuel { s with headRing := next }

def dequeue (fuel : Nat) (s : State α) : Option (State α × Bool × Option α) :=
  dequeueLoop clock (clock s.reads) fuel fuel s.tick

/-- A call, and what it returns. -/
def call (fuel : Nat) (s : State α) : Op α → Option (State α × Res α)
  | .enqueue item => (enqueue clock fuel item s).map fun s => (s, .enqueued)
  | .dequeue => (dequeue clock fuel s).map fun (s, success, out) => (s, .dequeued success out)

/-- Calls made one after another. -/
def run (fuel : Nat) : List (Op α) → State α → Option (State α × List (Res α))
  | [], s => some (s, [])
  | op :: ops, s => do
      let (s, res) ← call clock fuel s op
      let (s, results) ← run fuel ops s
      return (s, res :: results)

end QueueFairness.LCRQ
