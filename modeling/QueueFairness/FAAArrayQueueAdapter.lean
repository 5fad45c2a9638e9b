import QueueFairness.FAAArrayQueue
import QueueFairness.LogRecord

/-!
# The array queue with a log

`FAAArrayQueueAdapter` wraps every value in a `Node<T>` of its own, passes its address through the
queue, and logs and deletes it when it comes out. A step is one of the adapter or one of the queue
inside, whose stamps are carried out on the items here. Every step happens at a time not before the
last step's, and `now()` is the time of the step that calls it.

The queue compares items with nothing but `nullptr`, so an address stands for one allocation.
-/

namespace QueueFairness.FAAArrayQueueAdapter

open Interleaving AtomicQueue

variable {α : Type}

/-- `log` are the thread-local logs. -/
structure Shared (α : Type) where
  q : FAAArrayQueue.Shared
  items : Nat → TimedNode α
  status : Nat → Status
  clock : Nat
  log : Tid → List LogRecord

/-- Where a thread stands in `enqueue` or `dequeue`, with the local variables live there. -/
inductive Local (α : Type) where
  | idle
  | enqNew (v : α)
  | enqNowInv (ptr : Nat)
  | enqStoreInv (ptr ts : Nat)
  | enq (ptr : Nat) (l : FAAArrayQueue.Local)
  | deqNowInv
  | deq (inv : Nat) (l : FAAArrayQueue.Local)
  | deqReadValue (inv ptr : Nat)
  | deqStoreInv (inv ptr : Nat) (out : α)
  | deqReadEnqInv (ptr : Nat) (out : α)
  | deqReadEnqLin (ptr : Nat) (out : α) (enqInv : Nat)
  | deqReadDeqInv (ptr : Nat) (out : α) (enqInv enqLin : Nat)
  | deqLog (ptr : Nat) (out : α) (enqInv enqLin deqInv : Nat)
  | deqDelete (ptr : Nat) (out : α)

/-- What the program text leaves open: the next call, when the step happens, and which addresses
`new` returns for an item and for a node of the queue. -/
structure Input (α : Type) where
  op : Option (Op α) := none
  ts : Nat := 0
  item : Nat := 0
  addr : Nat := 0

inductive Event (α : Type) where
  | queue (e : FAAArrayQueue.Event)
  | new (t : Tid) (ptr : Nat)
  | logged (t : Tid) (ptr : Nat) (r : LogRecord)
  | deleted (t : Tid) (ptr : Nat)
  | call (t : Tid) (op : Op α)
  | ret (t : Tid) (res : Res α)
  deriving DecidableEq

def Shared.setItem (g : Shared α) (ptr : Nat) (node : TimedNode α) : Shared α :=
  { g with items := Function.update g.items ptr node }

def Shared.setStatus (g : Shared α) (ptr : Nat) (s : Status) : Shared α :=
  { g with status := Function.update g.status ptr s }

/-- The stamps the queue writes through its items; the marker is not an item. -/
def Shared.stamp (g : Shared α) : FAAArrayQueue.Event → Option (Shared α)
  | .stampEnq _ a ts => some (g.setItem a { g.items a with enqLinTs := ts })
  | .stampDeq _ (.item a) ts => some (g.setItem a { g.items a with deqLinTs := ts })
  | .stampDeq _ _ _ => none
  | _ => some g

/-- What `q.dequeue` returns in this step, if it does. -/
def returned (es : List FAAArrayQueue.Event) : Option FAAArrayQueue.Slot :=
  es.findSome? fun
    | .retDeq _ v => some v
    | _ => none

/-- A step of the queue, with the stamps it writes. -/
def queueStep (L : Layout) (maxThreads : Nat) (t : Tid) (op : Option (Op Nat)) (i : Input α)
    (g : Shared α) (l : FAAArrayQueue.Local) :
    Option (Shared α × FAAArrayQueue.Local × List FAAArrayQueue.Event) :=
  (FAAArrayQueue.step L maxThreads t { op := op, ts := i.ts, addr := i.addr } g.q l).bind fun r =>
    (r.2.2.foldlM Shared.stamp { g with q := r.1 }).map fun g' => (g', r.2.1, r.2.2)

/-- A step of thread `t` at the time of the last one. -/
def stepAt (L : Layout) (maxThreads : Nat) (t : Tid) (i : Input α) (g : Shared α) :
    Local α → Option (Shared α × Local α × List (Event α))
  | .idle =>
      i.op.map fun
        | .enqueue v => (g, .enqNew v, [.call t (.enqueue v)])
        | .dequeue => (g, .deqNowInv, [.call t .dequeue])
  | .enqNew v =>
      if g.status i.item = .unallocated then
        some ((g.setStatus i.item .allocated).setItem i.item { value := v }, .enqNowInv i.item,
          [.new t i.item])
      else
        none
  | .enqNowInv ptr => some (g, .enqStoreInv ptr i.ts, [])
  | .enqStoreInv ptr ts =>
      some (g.setItem ptr { g.items ptr with enqInvTs := ts }, .enq ptr .idle, [])
  | .enq ptr l =>
      (queueStep L maxThreads t (some (.enqueue ptr)) i g l).map fun (g', l', es) =>
        if l' = .idle then (g', .idle, es.map .queue ++ [.ret t .enqueued])
        else (g', .enq ptr l', es.map .queue)
  | .deqNowInv => some (g, .deq i.ts .idle, [])
  | .deq inv l =>
      (queueStep L maxThreads t (some .dequeue) i g l).bind fun (g', l', es) =>
        match returned es with
        | none => some (g', .deq inv l', es.map .queue)
        | some .empty => some (g', .idle, es.map .queue ++ [.ret t (.dequeued false none)])
        | some (.item ptr) => some (g', .deqReadValue inv ptr, es.map .queue)
        | some .taken => none
  | .deqReadValue inv ptr => some (g, .deqStoreInv inv ptr (g.items ptr).value, [])
  | .deqStoreInv inv ptr out =>
      some (g.setItem ptr { g.items ptr with deqInvTs := inv }, .deqReadEnqInv ptr out, [])
  | .deqReadEnqInv ptr out => some (g, .deqReadEnqLin ptr out (g.items ptr).enqInvTs, [])
  | .deqReadEnqLin ptr out enqInv =>
      some (g, .deqReadDeqInv ptr out enqInv (g.items ptr).enqLinTs, [])
  | .deqReadDeqInv ptr out enqInv enqLin =>
      some (g, .deqLog ptr out enqInv enqLin (g.items ptr).deqInvTs, [])
  | .deqLog ptr out enqInv enqLin deqInv =>
      let r : LogRecord := ⟨enqInv, enqLin, deqInv, (g.items ptr).deqLinTs⟩
      some ({ g with log := Function.update g.log t (g.log t ++ [r]) }, .deqDelete ptr out,
        [.logged t ptr r])
  | .deqDelete ptr out =>
      some (g.setStatus ptr .deleted, .idle,
        [.deleted t ptr, .ret t (.dequeued true (some out))])

/-- A step of thread `t`, not before the last one. -/
def step (L : Layout) (maxThreads : Nat) (t : Tid) (i : Input α) (g : Shared α) (l : Local α) :
    Option (Shared α × Local α × List (Event α)) :=
  if g.clock ≤ i.ts then stepAt L maxThreads t i { g with clock := i.ts } l else none

/-- `FAAArrayQueueAdapter(maxThreads)`. -/
def program (α : Type) [Inhabited α] (L : Layout) (maxThreads : Nat) :
    Program (Shared α) (Local α) (Input α) (Event α) where
  start :=
    { q := (FAAArrayQueue.program L maxThreads).start
      items := fun _ => { value := default }
      status := fun _ => .unallocated
      clock := 0
      log := fun _ => [] }
  idle := .idle
  step := step L maxThreads

/-! ### The queue inside -/

def queueEvent : Event α → Option FAAArrayQueue.Event
  | .queue e => some e
  | _ => none

/-- Where the thread stands in the queue. -/
def Local.queue : Local α → FAAArrayQueue.Local
  | .enq _ l | .deq _ l => l
  | _ => .idle

/-- What the queue inside has gone through. -/
def inner (c : Config (Shared α) (Local α) (Event α)) :
    Config FAAArrayQueue.Shared FAAArrayQueue.Local FAAArrayQueue.Event where
  shared := c.shared.q
  locals t := (c.locals t).queue
  history := c.history.filterMap queueEvent

end QueueFairness.FAAArrayQueueAdapter
