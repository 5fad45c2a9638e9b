import Mathlib.Algebra.Order.Group.Int
import Mathlib.Algebra.Order.Group.Nat
import QueueFairness.Lib.Interleaving

/-!
# The scalable circular queue of indices

The `lfring` of `SCQueue.hpp`, one atomic access a step: a ring of `n` entries, twice as many as the
indices it is made for. An entry is one machine word. From the top, it holds the cycle it was
written in, a bit that is set as long as the entry is safe, and an index; the index with all bits
set says that the entry is empty. `head`, `tail` and the entries are words that wrap around.

`threshold` is an integer here: it goes down at most once for each head ticket, and so does not wrap
before the tickets do.
-/

namespace QueueFairness.SCQueue

open Interleaving

/-- What a build and a ring are made with: `LFATOMIC_WIDTH`, `LFRING_MIN` and the order. No shift of
`__lfring_raw_map` is by a negative amount, and a word has room for a sign and a cycle. -/
structure Params where
  width : Nat
  min : Nat
  order : Nat
  min_le : min ≤ order
  order_lt : order + 3 ≤ width

/-- `lfatomic_t`. -/
abbrev Params.Atomic (P : Params) := BitVec P.width

variable (P : Params)

/-- `lfring_pow2(order)`. -/
def pow2 (order : Nat) : P.Atomic := (1 : P.Atomic) <<< order

def half : P.Atomic := pow2 P P.order

def n : P.Atomic := pow2 P (P.order + 1)

/-- `__lfring_cmp(x, op, y)` is `cmp x y op 0`. -/
def cmp {w : Nat} (x y : BitVec w) : Int := (x - y).toInt

/-- `__lfring_raw_map`. -/
def rawMap (idx : P.Atomic) (order : Nat) (n : P.Atomic) : P.Atomic :=
  if P.min ≠ 0 then
    ((idx &&& (n - 1)) >>> (order - P.min)) ||| ((idx <<< P.min) &&& (n - 1))
  else
    idx &&& (n - 1)

/-- `__lfring_map`. -/
def map (idx : P.Atomic) : P.Atomic := rawMap P idx (P.order + 1) (n P)

/-- `__lfring_threshold3(half, n)`. -/
def threshold3 : Int := (half P + n P - 1).toNat

/-- `struct __lfring`. -/
structure Ring where
  head : P.Atomic
  threshold : Int
  tail : P.Atomic
  array : Nat → P.Atomic

variable {P}

/-- `array[__lfring_map(ticket, order, n)]`. -/
def Ring.entry (s : Ring P) (ticket : P.Atomic) : P.Atomic := s.array (map P ticket).toNat

def Ring.setEntry (s : Ring P) (ticket entry : P.Atomic) : Ring P :=
  { s with array := Function.update s.array (map P ticket).toNat entry }

/-- The loops of the initialisers: `array[position(i)] = entry(i)` for each `i` of a range. -/
def store (position : Nat → Nat) (entry : Nat → P.Atomic) (is : List Nat)
    (array : Nat → P.Atomic) : Nat → P.Atomic :=
  is.foldl (fun array i => Function.update array (position i) (entry i)) array

/-- `__lfring_map(i, order, n)` as a place in the array. -/
def place (P : Params) (i : Nat) : Nat := (map P (.ofNat _ i)).toNat

/-- `lfring_init_empty`, in memory that held `array`. -/
def initEmpty (array : Nat → P.Atomic) : Ring P where
  head := 0
  threshold := -1
  tail := 0
  array := store id (fun _ => -1) (List.range (n P).toNat) array

/-- `lfring_init_full`. -/
def initFull (array : Nat → P.Atomic) : Ring P where
  head := 0
  threshold := threshold3 P
  tail := half P
  array :=
    store (place P) (fun _ => -1) (List.range' (half P).toNat ((n P).toNat - (half P).toNat))
      (store (place P) (fun i => n P + rawMap P (.ofNat _ i) P.order (half P))
        (List.range (half P).toNat) array)

/-- `lfring_init_fill`. -/
def initFill (s e : Nat) (array : Nat → P.Atomic) : Ring P where
  head := .ofNat _ s
  threshold := threshold3 P
  tail := .ofNat _ e
  array :=
    store (place P) (fun _ => -1) (List.range' e ((n P).toNat - e))
      (store (place P) (fun i => n P + .ofNat _ i) (List.range' s (e - s))
        (store (place P) (fun _ => 2 * n P - 1) (List.range s) array))

/-- A call, with the arguments a client passes. -/
inductive Call (P : Params) where
  | enqueue (eidx : P.Atomic) (nonempty : Bool)
  | dequeue (nonempty : Bool)
  deriving DecidableEq

inductive Event (P : Params) where
  | call (t : Tid) (c : Call P)
  | drawTail (t : Tid) (ticket : P.Atomic)
  | drawHead (t : Tid) (ticket : P.Atomic)
  /-- An index is written to the entry of its ticket. -/
  | deposit (t : Tid) (index ticket : P.Atomic)
  /-- An index is taken from the entry of the ticket. -/
  | take (t : Tid) (index ticket : P.Atomic)
  /-- A dequeue is done with the entry of its ticket and has found no index there. -/
  | leave (t : Tid) (ticket : P.Atomic)
  | setThreshold (t : Tid)
  | enqueued (t : Tid)
  /-- `none` is `LFRING_EMPTY`. -/
  | dequeued (t : Tid) (r : Option P.Atomic)
  deriving DecidableEq

/-- Where a thread stands in `lfring_enqueue`, with the local variables live there. -/
inductive Enq (P : Params) where
  | fetchAdd
  | loadEntry (tail : P.Atomic)
  | loadHead (tail entry : P.Atomic)
  | cas (tail entry : P.Atomic)
  | loadThreshold
  | storeThreshold
  deriving DecidableEq

/-- Where a thread stands in `lfring_dequeue` and in `__lfring_catchup`. -/
inductive Deq (P : Params) where
  | loadThreshold
  | fetchAdd
  | loadEntry (head : P.Atomic) (attempt : Nat)
  | fetchOr (head entry : P.Atomic)
  | cas (head entry entryNew : P.Atomic) (attempt : Nat)
  | loadTail (head : P.Atomic)
  | catchup (tail head : P.Atomic)
  | catchupHead
  | catchupTail (head : P.Atomic)
  | subEmpty
  | sub
  deriving DecidableEq

inductive Local (P : Params) where
  | idle
  | enqueue (eidx : P.Atomic) (nonempty : Bool) (l : Enq P)
  | dequeue (nonempty : Bool) (l : Deq P)
  deriving DecidableEq

/-- What the program text leaves open of a step: the next call, and whether a weak compare-and-swap
fails though the word is the expected one. -/
structure Input (P : Params) where
  call : Call P := .dequeue false
  spurious : Bool := false
  deriving DecidableEq

/-- `(ticket << 1) | (2 * n - 1)`. -/
def cycleOf (ticket : P.Atomic) : P.Atomic := (ticket <<< 1) ||| (2 * n P - 1)

/-- `entry | (2 * n - 1)`. -/
def ecycle (entry : P.Atomic) : P.Atomic := entry ||| (2 * n P - 1)

/-- From `retry` to the next atomic access. -/
def Enq.retry (tail entry : P.Atomic) : Enq P :=
  if cmp (ecycle entry) (cycleOf tail) < 0 then
    if entry = ecycle entry then .cas tail entry
    else if entry = ecycle entry ^^^ n P then .loadHead tail entry
    else .fetchAdd
  else
    .fetchAdd

/-- A step of thread `t` in `lfring_enqueue(eidx, nonempty)`. The call has replaced `eidx` by
`eidx ^ (n - 1)`. -/
def enqueueStep (t : Tid) (spurious : Bool) (eidx : P.Atomic) (nonempty : Bool) (s : Ring P) :
    Enq P → Ring P × (Enq P ⊕ Unit) × List (Event P)
  | .fetchAdd => ({ s with tail := s.tail + 1 }, .inl (.loadEntry s.tail), [.drawTail t s.tail])
  | .loadEntry tail => (s, .inl (.retry tail (s.entry tail)), [])
  | .loadHead tail entry =>
      if cmp s.head tail ≤ 0 then (s, .inl (.cas tail entry), []) else (s, .inl .fetchAdd, [])
  | .cas tail entry =>
      if s.entry tail = entry ∧ ¬ spurious then
        (s.setEntry tail (cycleOf tail ^^^ eidx), if nonempty then .inr () else .inl .loadThreshold,
          [.deposit t (eidx ^^^ (n P - 1)) tail])
      else
        (s, .inl (.retry tail (s.entry tail)), [])
  | .loadThreshold =>
      (s, if s.threshold ≠ threshold3 P then .inl .storeThreshold else .inr (), [])
  | .storeThreshold => ({ s with threshold := threshold3 P }, .inr (), [.setThreshold t])

/-- From a load of the entry to the next atomic access, or out of the inner loop (`none`). -/
def Deq.examine (head entry : P.Atomic) (attempt : Nat) : Option (Deq P) :=
  let hcycle := cycleOf head
  if ecycle entry = hcycle then
    some (.fetchOr head entry)
  else if entry ||| n P ≠ ecycle entry then
    let entryNew := entry &&& ~~~(n P)
    if entry = entryNew then none
    else if cmp (ecycle entry) hcycle < 0 then some (.cas head entry entryNew attempt)
    else none
  else if attempt + 1 ≤ 10000 then
    some (.loadEntry head (attempt + 1))
  else
    let entryNew := hcycle ^^^ (~~~entry &&& n P)
    if cmp (ecycle entry) hcycle < 0 then some (.cas head entry entryNew (attempt + 1)) else none

/-- After the inner loop. -/
def Deq.afterLoop (nonempty : Bool) (head : P.Atomic) : Deq P :=
  if nonempty then .fetchAdd else .loadTail head

/-- A dequeue that is through with an entry, or not. -/
def Deq.goOn (t : Tid) (nonempty : Bool) (head : P.Atomic) : Option (Deq P) →
    (Deq P ⊕ Option P.Atomic) × List (Event P)
  | some l => (.inl l, [])
  | none => (.inl (.afterLoop nonempty head), [.leave t head])

/-- A step of thread `t` in `lfring_dequeue(nonempty)`. -/
def dequeueStep (t : Tid) (spurious : Bool) (nonempty : Bool) (s : Ring P) :
    Deq P → Ring P × (Deq P ⊕ Option P.Atomic) × List (Event P)
  | .loadThreshold => (s, if s.threshold < 0 then .inr none else .inl .fetchAdd, [])
  | .fetchAdd => ({ s with head := s.head + 1 }, .inl (.loadEntry s.head 0), [.drawHead t s.head])
  | .loadEntry head attempt =>
      (s, Deq.goOn t nonempty head (Deq.examine head (s.entry head) attempt))
  | .fetchOr head entry =>
      (s.setEntry head (s.entry head ||| (n P - 1)), .inr (some (entry &&& (n P - 1))),
        [.take t (entry &&& (n P - 1)) head])
  | .cas head entry entryNew attempt =>
      if s.entry head = entry ∧ ¬ spurious then
        (s.setEntry head entryNew, Deq.goOn t nonempty head none)
      else
        (s, Deq.goOn t nonempty head (Deq.examine head (s.entry head) attempt))
  | .loadTail head =>
      (s, .inl (if cmp s.tail (head + 1) ≤ 0 then .catchup s.tail (head + 1) else .sub), [])
  | .catchup tail head =>
      if s.tail = tail ∧ ¬ spurious then ({ s with tail := head }, .inl .subEmpty, [])
      else (s, .inl .catchupHead, [])
  | .catchupHead => (s, .inl (.catchupTail s.head), [])
  | .catchupTail head =>
      (s, .inl (if cmp s.tail head ≥ 0 then .subEmpty else .catchup s.tail head), [])
  | .subEmpty => ({ s with threshold := s.threshold - 1 }, .inr none, [])
  | .sub =>
      ({ s with threshold := s.threshold - 1 },
        if s.threshold ≤ 0 then .inr none else .inl .fetchAdd, [])

/-- A call comes in. -/
def start : Call P → Local P
  | .enqueue eidx nonempty => .enqueue (eidx ^^^ (n P - 1)) nonempty .fetchAdd
  | .dequeue nonempty => .dequeue nonempty (if nonempty then .fetchAdd else .loadThreshold)

def step (t : Tid) (i : Input P) (s : Ring P) : Local P → Ring P × Local P × List (Event P)
  | .idle => (s, start i.call, [.call t i.call])
  | .enqueue eidx nonempty l =>
      let r := enqueueStep t i.spurious eidx nonempty s l
      match r.2.1 with
      | .inl l' => (r.1, .enqueue eidx nonempty l', r.2.2)
      | .inr () => (r.1, .idle, r.2.2 ++ [.enqueued t])
  | .dequeue nonempty l =>
      let r := dequeueStep t i.spurious nonempty s l
      match r.2.1 with
      | .inl l' => (r.1, .dequeue nonempty l', r.2.2)
      | .inr index => (r.1, .idle, r.2.2 ++ [.dequeued t index])

/-- The ring `s` in use by any number of threads. -/
def program (s : Ring P) : Program (Ring P) (Local P) (Input P) (Event P) where
  start := s
  idle := .idle
  step t i s l := some (step t i s l)

end QueueFairness.SCQueue
