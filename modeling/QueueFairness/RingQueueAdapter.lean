import QueueFairness.PRQueue
import QueueFairness.LogRecord
import QueueFairness.Lib.AtomicQueue

/-!
# The ring queues with a log

`PRQueueAdapter` and `CRQueueAdapter` are one text over two segment types. The adapter wraps every
value in a `Node<T>` of its own, passes its address through the queue, and logs and deletes it when
it comes out. A step is one of the adapter or one of the queue inside, whose stamps are carried out
on the items here. Every step happens at a time not before the last step's, and `now()` is the time
of the step that calls it.
-/

namespace QueueFairness.RingQueueAdapter

open Interleaving AtomicQueue

variable {σ κe κd α : Type}

/-- `log` are the thread-local logs. -/
structure Shared (σ α : Type) where
  q : LinkedRingQueue.Shared σ
  items : Nat → TimedNode α
  status : Nat → Status
  clock : Nat
  log : Tid → List LogRecord

/-- Where a thread stands in `enqueue` or `dequeue`, with the local variables live there. -/
inductive Local (κe κd α : Type) where
  | idle
  | enqNew (v : α)
  | enqNowInv (ptr : Nat)
  | enqStoreInv (ptr ts : Nat)
  | enq (ptr : Nat) (l : LinkedRingQueue.Local κe κd)
  | deq (l : LinkedRingQueue.Local κe κd)
  | deqReadValue (ptr : Nat)
  | deqNowInv (ptr : Nat) (out : α)
  | deqReadEnqInv (ptr : Nat) (out : α) (deqInv : Nat)
  | deqReadEnqLin (ptr : Nat) (out : α) (deqInv enqInv : Nat)
  | deqLog (ptr : Nat) (out : α) (deqInv enqInv enqLin : Nat)
  | deqDelete (ptr : Nat) (out : α)

/-- What the program text leaves open: the next call, when the step happens, and which addresses
`new` returns for an item and for a segment. -/
structure Input (α : Type) where
  op : Option (Op α) := none
  ts : Nat := 0
  item : Nat := 0
  addr : Nat := 0

/-- Every step of the queue inside is an access to it. -/
inductive Event (α : Type) where
  | call (t : Tid) (op : Op α)
  | new (t : Tid) (ptr : Nat)
  | enqInv (t : Tid) (ptr ts : Nat)
  | access (t : Tid) (es : List LinkedRingQueue.Event)
  | deqInv (t : Tid) (ptr ts : Nat)
  | logged (t : Tid) (ptr : Nat) (r : LogRecord)
  | deleted (t : Tid) (ptr : Nat)
  | ret (t : Tid) (res : Res α)
  deriving DecidableEq

def Shared.setItem (g : Shared σ α) (ptr : Nat) (node : TimedNode α) : Shared σ α :=
  { g with items := Function.update g.items ptr node }

def Shared.setStatus (g : Shared σ α) (ptr : Nat) (s : Status) : Shared σ α :=
  { g with status := Function.update g.status ptr s }

/-- The stamps the queue writes through its items. -/
def Shared.stamp (g : Shared σ α) : LinkedRingQueue.Event → Shared σ α
  | .segment _ (.stampEnq _ a ts) => g.setItem a { g.items a with enqLinTs := ts }
  | .segment _ (.stampDeq _ a ts) => g.setItem a { g.items a with deqLinTs := ts }
  | _ => g

/-- What `q.dequeue` returns in this step, if it does. -/
def returned (es : List LinkedRingQueue.Event) : Option (Option Nat) :=
  es.findSome? fun
    | .retDeq _ item => some item
    | _ => none

variable (S : SegmentType σ κe κd) (maxThreads : Nat)

/-- A step of the queue, with the stamps it writes. -/
def queueStep (t : Tid) (op : LinkedRingQueue.Op) (i : Input α) (g : Shared σ α)
    (l : LinkedRingQueue.Local κe κd) :
    Option (Shared σ α × LinkedRingQueue.Local κe κd × List LinkedRingQueue.Event) :=
  (LinkedRingQueue.step S maxThreads t { op := some op, ts := i.ts, addr := i.addr } g.q l).map
    fun r => (r.2.2.foldl Shared.stamp { g with q := r.1 }, r.2.1, r.2.2)

/-- A step of thread `t` at the time of the last one. -/
def stepAt [DecidableEq κe] [DecidableEq κd] (t : Tid) (i : Input α) (g : Shared σ α) :
    Local κe κd α → Option (Shared σ α × Local κe κd α × List (Event α))
  | .idle =>
      i.op.map fun
        | .enqueue v => (g, .enqNew v, [.call t (.enqueue v)])
        | .dequeue => (g, .deq .idle, [.call t .dequeue])
  | .enqNew v =>
      if g.status i.item ≠ .allocated then
        some ((g.setStatus i.item .allocated).setItem i.item { value := v }, .enqNowInv i.item,
          [.new t i.item])
      else
        none
  | .enqNowInv ptr => some (g, .enqStoreInv ptr i.ts, [.enqInv t ptr i.ts])
  | .enqStoreInv ptr ts =>
      some (g.setItem ptr { g.items ptr with enqInvTs := ts }, .enq ptr .idle, [])
  | .enq ptr l =>
      (queueStep S maxThreads t (.enqueue ptr) i g l).map fun (g', l', es) =>
        if l' = .idle then (g', .idle, [.access t es, .ret t .enqueued])
        else (g', .enq ptr l', [.access t es])
  | .deq l =>
      (queueStep S maxThreads t .dequeue i g l).map fun (g', l', es) =>
        match returned es with
        | none => (g', .deq l', [.access t es])
        | some none => (g', .idle, [.access t es, .ret t (.dequeued false none)])
        | some (some ptr) => (g', .deqReadValue ptr, [.access t es])
  | .deqReadValue ptr => some (g, .deqNowInv ptr (g.items ptr).value, [])
  | .deqNowInv ptr out => some (g, .deqReadEnqInv ptr out i.ts, [.deqInv t ptr i.ts])
  | .deqReadEnqInv ptr out deqInv =>
      some (g, .deqReadEnqLin ptr out deqInv (g.items ptr).enqInvTs, [])
  | .deqReadEnqLin ptr out deqInv enqInv =>
      some (g, .deqLog ptr out deqInv enqInv (g.items ptr).enqLinTs, [])
  | .deqLog ptr out deqInv enqInv enqLin =>
      let r : LogRecord := ⟨enqInv, enqLin, deqInv, (g.items ptr).deqLinTs⟩
      some ({ g with log := Function.update g.log t (g.log t ++ [r]) }, .deqDelete ptr out,
        [.logged t ptr r])
  | .deqDelete ptr out =>
      some (g.setStatus ptr .deleted, .idle,
        [.deleted t ptr, .ret t (.dequeued true (some out))])

/-- A step of thread `t`, not before the last one. -/
def step [DecidableEq κe] [DecidableEq κd] (t : Tid) (i : Input α) (g : Shared σ α)
    (l : Local κe κd α) : Option (Shared σ α × Local κe κd α × List (Event α)) :=
  if g.clock ≤ i.ts then stepAt S maxThreads t i { g with clock := i.ts } l else none

def program (α : Type) [Inhabited α] [DecidableEq κe] [DecidableEq κd] :
    Program (Shared σ α) (Local κe κd α) (Input α) (Event α) where
  start :=
    { q := (LinkedRingQueue.program S maxThreads).start
      items := fun _ => { value := default }
      status := fun _ => .unallocated
      clock := 0
      log := fun _ => [] }
  idle := .idle
  step := step S maxThreads

/-! ### What the history says -/

def Event.tid : Event α → Tid
  | .call t _ | .new t _ | .enqInv t _ _ | .access t _ | .deqInv t _ _ | .logged t _ _
  | .deleted t _ | .ret t _ => t

def Event.isAccess : Event α → Bool
  | .access _ _ => true
  | _ => false

/-- What thread `t` has done since its last call. -/
def currentCall (t : Tid) (history : List (Event α)) : List (Event α) :=
  history.foldl (fun es e =>
    if e.tid = t then
      match e with
      | .call _ _ => []
      | e => es ++ [e]
    else es) []

/-- The step puts the item in a segment. -/
def Event.deposits (ptr : Nat) : Event α → Prop
  | .access _ es => ∃ s u k, .segment s (.deposit u ptr k) ∈ es
  | _ => False

end QueueFairness.RingQueueAdapter

namespace QueueFairness.PRQueueAdapter

/-- `PRQueueAdapter`, whose threads are at most `maxThreads`. -/
abbrev program (α : Type) [Inhabited α] (L : Layout) (maxThreads : Nat) :=
  RingQueueAdapter.program (PRQueue.type L) maxThreads α

end QueueFairness.PRQueueAdapter
