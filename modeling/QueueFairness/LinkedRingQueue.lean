import Mathlib.Logic.Function.Basic
import QueueFairness.HazardPointers
import QueueFairness.Heap

/-!
# The list of ring segments

`LinkedRingQueue.hpp`, one atomic access a step, over any segment type: an enqueue goes to the last
segment and appends a new one when that is closed, a dequeue goes to the first and moves on when it
is empty and another follows. The segments are at addresses the allocator hands out, which it may do
again after a deletion. Items are pointers, and only their addresses matter.

A ticket is below 2^63: bit 63 of the words it is stored in is a flag of its own.
-/

namespace QueueFairness

open Interleaving HazardPointers

/-- A 64-bit word: bit 63 and the other bits. -/
structure Word where
  flag : Bool
  index : Nat
  deriving DecidableEq

/-- What the steps of a segment's operations tell. A dequeue leaves its cell with `take` when it has
got the item and with `leave` when it gives the ticket up. -/
inductive SegmentEvent where
  | drawTail (t : Tid) (ticket : Nat)
  | drawHead (t : Tid) (ticket : Nat)
  | deposit (t : Tid) (a ticket : Nat)
  | take (t : Tid) (a ticket : Nat)
  | leave (t : Tid) (ticket : Nat)
  | stampEnq (t : Tid) (a ts : Nat)
  | stampDeq (t : Tid) (a ts : Nat)
  deriving DecidableEq

/-- The two counters of `QueueSegmentBase`. -/
structure SegmentBase where
  head : Nat
  tail : Word

namespace SegmentBase

/-- `tail.fetch_add(1)`. -/
def drawTail (b : SegmentBase) : SegmentBase :=
  { b with tail := { b.tail with index := b.tail.index + 1 } }

/-- `head.fetch_add(1)`. -/
def drawHead (b : SegmentBase) : SegmentBase :=
  { b with head := b.head + 1 }

def closeSegment (b : SegmentBase) (tailticket : Nat) (force : Bool) : SegmentBase × Bool :=
  if force then
    ({ b with tail := { b.tail with flag := true } }, !b.tail.flag)
  else if b.tail = ⟨false, tailticket + 1⟩ then
    ({ b with tail := ⟨true, tailticket + 1⟩ }, true)
  else
    (b, false)

/-- Where a thread stands in `fixState`. -/
inductive Fix where
  | loadTail
  | loadHead (t : Word)
  | reload (t : Word) (h : Nat)
  | cas (t : Word) (h : Nat)
  deriving DecidableEq

/-- A step of `fixState`; `none` when it is over. -/
def fixStep (b : SegmentBase) : Fix → SegmentBase × Option Fix
  | .loadTail => (b, some (.loadHead b.tail))
  | .loadHead t => (b, some (.reload t b.head))
  | .reload t h =>
      if b.tail ≠ t then (b, some .loadTail)
      -- A closed tail is greater than any head.
      else if t.flag = false ∧ t.index < h then (b, some (.cas t h))
      else (b, none)
  | .cas t h =>
      if b.tail = t then ({ b with tail := ⟨false, h⟩ }, none) else (b, some .loadTail)

end SegmentBase

/-- A segment type: what the template parameter `Segment` provides, with one step of its operations
at a time. An operation that is over has a result in place of a control state. -/
structure SegmentType (σ κe κd : Type) where
  new : Nat → σ
  enqueue : κe
  dequeue : κd
  enqueueStep : Tid → Nat → Nat → σ → κe → σ × (κe ⊕ Bool) × List SegmentEvent
  dequeueStep : Tid → Nat → σ → κd → σ × (κd ⊕ Option Nat) × List SegmentEvent
  base : σ → SegmentBase

namespace LinkedRingQueue

variable {σ κe κd : Type}

structure Node (σ : Type) where
  segment : σ
  next : Option Nat

structure Shared (σ : Type) where
  nodes : Nat → Node σ
  status : Nat → Status
  head : Nat
  tail : Nat
  hp : HazardPointers

inductive Op where
  | enqueue (item : Nat)
  | dequeue
  | estimateSize
  deriving DecidableEq

/-- Where a thread stands in `enqueue`, `dequeue` or `estimateSize`, with the local variables live
there; `l` is where it stands in an operation of the segment. -/
inductive Local (κe κd : Type) where
  | idle
  | enqLoadTail (item : Nat)
  | enqProtect (item ltail : Nat)
  | enqReload (item ltail : Nat)
  | enqLoadNext (item ltail : Nat)
  | enqHelpTail (item ltail lnext : Nat)
  | enqSegment (item ltail : Nat) (l : κe)
  | enqLoadStart (item ltail : Nat)
  | enqNew (item ltail start : Nat)
  | enqNewSegment (item ltail newTail : Nat) (l : κe)
  | enqCasNext (item ltail newTail : Nat)
  | enqCasTail (item ltail newTail : Nat)
  | enqDelete (item newTail lnext : Nat)
  | enqClear (item : Nat)
  | deqLoadHead
  | deqProtect (lhead : Nat)
  | deqReload (lhead : Nat)
  | deqSegment (lhead : Nat) (l : κd)
  | deqLoadNext (lhead : Nat)
  | deqSegmentAgain (lhead lnext : Nat) (l : κd)
  | deqCasHead (lhead lnext : Nat)
  | deqRetire (lhead lnext : Nat)
  | deqScan (lnext : Nat) (scan : Scan)
  | deqClear (item : Option Nat)
  | sizeProtectHead (n : Option Nat)
  | sizePublishHead (ret : Nat)
  | sizeProtectTail (lhead : Nat) (n : Option Nat)
  | sizePublishTail (lhead ret : Nat)
  | sizeLoadTail (lhead ltail : Nat)
  | sizeLoadHead (lhead t : Nat)
  | sizeClear (ihp size : Nat)
  deriving DecidableEq

/-- What the program text leaves open: the next call, what the clock reads, and which address `new`
returns. -/
structure Input where
  op : Option Op := none
  ts : Nat := 0
  addr : Nat := 0

inductive Event where
  | call (t : Tid) (op : Op)
  | segment (s : Nat) (e : SegmentEvent)
  | alloc (t : Tid) (s : Nat)
  | link (t : Tid) (s : Nat)
  | retEnq (t : Tid) (a : Nat)
  | retDeq (t : Tid) (item : Option Nat)
  | retSize (t : Tid) (size : Nat)
  deriving DecidableEq

def Shared.setSegment (g : Shared σ) (s : Nat) (segment : σ) : Shared σ :=
  { g with nodes := Function.update g.nodes s { g.nodes s with segment := segment } }

def Shared.setNext (g : Shared σ) (s : Nat) (next : Option Nat) : Shared σ :=
  { g with nodes := Function.update g.nodes s { g.nodes s with next := next } }

def Shared.setSlot (g : Shared σ) (t : Tid) (index : Nat) (p : Option Nat) : Shared σ :=
  { g with hp := g.hp.setSlot t index p }

def Shared.setStatus (g : Shared σ) (s : Nat) (st : Status) : Shared σ :=
  { g with status := Function.update g.status s st }

/-- `new Segment(start)` at address `s`. -/
def Shared.new (S : SegmentType σ κe κd) (g : Shared σ) (s start : Nat) : Shared σ :=
  { g.setStatus s .allocated with nodes := Function.update g.nodes s ⟨S.new start, none⟩ }

/-- Where a dequeue goes on during and after `retire`. -/
def afterScan (lnext : Nat) : Option Scan → Local κe κd
  | some scan => .deqScan lnext scan
  | none => .deqProtect lnext

variable (S : SegmentType σ κe κd)

/-- A step of `enqueue` on segment `s`. -/
def enqueueStep (t : Tid) (i : Input) (g : Shared σ) (item s : Nat) (l : κe)
    (next : κe ⊕ Bool → Local κe κd) : Shared σ × Local κe κd × List Event :=
  let r := S.enqueueStep t i.ts item (g.nodes s).segment l
  (g.setSegment s r.1, next r.2.1, r.2.2.map (.segment s))

/-- A step of `dequeue` on segment `s`. -/
def dequeueStep (t : Tid) (i : Input) (g : Shared σ) (s : Nat) (l : κd)
    (next : κd ⊕ Option Nat → Local κe κd) : Shared σ × Local κe κd × List Event :=
  let r := S.dequeueStep t i.ts (g.nodes s).segment l
  (g.setSegment s r.1, next r.2.1, r.2.2.map (.segment s))

/-- A step of thread `t`. -/
def step (maxThreads : Nat) (t : Tid) (i : Input) (g : Shared σ) :
    Local κe κd → Option (Shared σ × Local κe κd × List Event)
  | .idle =>
      i.op.map fun
        | .enqueue item => (g, .enqLoadTail item, [.call t (.enqueue item)])
        | .dequeue => (g, .deqLoadHead, [.call t .dequeue])
        | .estimateSize => (g, .sizeProtectHead none, [.call t .estimateSize])
  | .enqLoadTail item => some (g, .enqProtect item g.tail, [])
  | .enqProtect item ltail => some (g.setSlot t kHpTail (some ltail), .enqReload item ltail, [])
  | .enqReload item ltail =>
      if g.tail ≠ ltail then some (g, .enqProtect item g.tail, [])
      else some (g, .enqLoadNext item ltail, [])
  | .enqLoadNext item ltail =>
      match (g.nodes ltail).next with
      | some lnext => some (g, .enqHelpTail item ltail lnext, [])
      | none => some (g, .enqSegment item ltail S.enqueue, [])
  | .enqHelpTail item ltail lnext =>
      if g.tail = ltail then some ({ g with tail := lnext }, .enqProtect item lnext, [])
      else some (g, .enqLoadTail item, [])
  | .enqSegment item ltail l =>
      some (enqueueStep S t i g item ltail l fun
        | .inl l' => .enqSegment item ltail l'
        | .inr true => .enqClear item
        | .inr false => .enqLoadStart item ltail)
  | .enqLoadStart item ltail =>
      -- `getNextSegmentStartIndex`
      some (g, .enqNew item ltail ((S.base (g.nodes ltail).segment).tail.index - 1), [])
  | .enqNew item ltail start =>
      if g.status i.addr ≠ .allocated then
        some (g.new S i.addr start, .enqNewSegment item ltail i.addr S.enqueue, [.alloc t i.addr])
      else
        none
  | .enqNewSegment item ltail newTail l =>
      some (enqueueStep S t i g item newTail l fun
        | .inl l' => .enqNewSegment item ltail newTail l'
        | .inr _ => .enqCasNext item ltail newTail)
  | .enqCasNext item ltail newTail =>
      match (g.nodes ltail).next with
      | none =>
          some (g.setNext ltail (some newTail), .enqCasTail item ltail newTail, [.link t newTail])
      | some lnext => some (g, .enqDelete item newTail lnext, [])
  | .enqCasTail item ltail newTail =>
      some (if g.tail = ltail then { g with tail := newTail } else g, .enqClear item, [])
  | .enqDelete item newTail lnext =>
      some (g.setStatus newTail .deleted, .enqProtect item lnext, [])
  | .enqClear item => some (g.setSlot t kHpTail none, .idle, [.retEnq t item])
  | .deqLoadHead => some (g, .deqProtect g.head, [])
  | .deqProtect lhead => some (g.setSlot t kHpHead (some lhead), .deqReload lhead, [])
  | .deqReload lhead =>
      if g.head ≠ lhead then some (g, .deqProtect g.head, [])
      else some (g, .deqSegment lhead S.dequeue, [])
  | .deqSegment lhead l =>
      some (dequeueStep S t i g lhead l fun
        | .inl l' => .deqSegment lhead l'
        | .inr (some item) => .deqClear (some item)
        | .inr none => .deqLoadNext lhead)
  | .deqLoadNext lhead =>
      match (g.nodes lhead).next with
      | none => some (g, .deqClear none, [])
      | some lnext => some (g, .deqSegmentAgain lhead lnext S.dequeue, [])
  | .deqSegmentAgain lhead lnext l =>
      some (dequeueStep S t i g lhead l fun
        | .inl l' => .deqSegmentAgain lhead lnext l'
        | .inr (some item) => .deqClear (some item)
        | .inr none => .deqCasHead lhead lnext)
  | .deqCasHead lhead lnext =>
      if g.head = lhead then some ({ g with head := lnext }, .deqRetire lhead lnext, [])
      else some (g, .deqProtect g.head, [])
  | .deqRetire lhead lnext =>
      let ptrs := g.hp.retiredList t ++ [lhead]
      some
        ({ g with hp := g.hp.setRetired t ptrs }, afterScan lnext (scanFrom maxThreads ptrs 0), [])
  | .deqScan lnext scan =>
      let r := scanStep maxThreads t g.hp scan
      let g' := { g with hp := r.1 }
      some (r.2.2.elim g' (g'.setStatus · .deleted), afterScan lnext r.2.1, [])
  | .deqClear item => some (g.setSlot t kHpHead none, .idle, [.retDeq t item])
  | .sizeProtectHead n =>
      if some g.head = n then some (g, .sizeProtectTail g.head none, [])
      else some (g, .sizePublishHead g.head, [])
  | .sizePublishHead ret => some (g.setSlot t kHpHead (some ret), .sizeProtectHead (some ret), [])
  | .sizeProtectTail lhead n =>
      if some g.tail = n then some (g, .sizeLoadTail lhead g.tail, [])
      else some (g, .sizePublishTail lhead g.tail, [])
  | .sizePublishTail lhead ret =>
      some (g.setSlot t kHpTail (some ret), .sizeProtectTail lhead (some ret), [])
  | .sizeLoadTail lhead ltail =>
      some (g, .sizeLoadHead lhead (S.base (g.nodes ltail).segment).tail.index, [])
  | .sizeLoadHead lhead t' =>
      some (g, .sizeClear 0 (t' - (S.base (g.nodes lhead).segment).head), [])
  | .sizeClear ihp size =>
      let g' := g.setSlot t ihp none
      if ihp + 1 < maxHPs then some (g', .sizeClear (ihp + 1) size, [])
      else some (g', .idle, [.retSize t size])

/-- What the next step of thread `t` gets at in the arrays of the table. -/
def Local.tableAccesses (t : Tid) : Local κe κd → List Access
  | .enqProtect _ _ | .enqClear _ | .sizePublishTail _ _ => [slotOf t kHpTail]
  | .deqProtect _ | .deqClear _ | .sizePublishHead _ => [slotOf t kHpHead]
  | .sizeClear ihp _ => [slotOf t ihp]
  | .deqRetire _ _ => [listOf t]
  | .deqScan _ scan => scan.tableAccesses t
  | _ => []

/-- `MAX_THREADS`, which the default constructor passes on. -/
def defaultMaxThreads : Nat := 128

/-- The address of the segment the constructor allocates. -/
def sentinel : Nat := 0

/-- `LinkedRingQueue(maxThreads)`. -/
def program (maxThreads : Nat) : Program (Shared σ) (Local κe κd) Input Event where
  start :=
    { nodes := fun _ => ⟨S.new 0, none⟩
      status := fun s => if s = sentinel then .allocated else .unallocated
      head := sentinel
      tail := sentinel
      hp := .init }
  idle := .idle
  step := step S maxThreads

/-- What `~LinkedRingQueue` deletes, in order, when its loop is over: the last segment, and then
what `hp` deletes. -/
def Shared.destroyed (g : Shared σ) : List Nat := g.head :: g.hp.destroyed

/-! ### One segment -/

/-- Where a thread stands in the operations of one segment. -/
inductive SegmentLocal (κe κd : Type) where
  | idle
  | enqueue (item : Nat) (l : κe)
  | dequeue (l : κd)
  deriving DecidableEq

/-- Which operation the thread calls next, and what the clock reads. -/
structure SegmentInput where
  op : Option (Option Nat) := none
  ts : Nat := 0

/-- A step of thread `t` on a segment that threads use as they like. -/
def segmentStep (t : Tid) (i : SegmentInput) (s : σ) :
    SegmentLocal κe κd → Option (σ × SegmentLocal κe κd × List SegmentEvent)
  | .idle =>
      i.op.map fun
        | some item => (s, .enqueue item S.enqueue, [])
        | none => (s, .dequeue S.dequeue, [])
  | .enqueue item l =>
      let r := S.enqueueStep t i.ts item s l
      some (r.1, r.2.1.elim (.enqueue item) fun _ => .idle, r.2.2)
  | .dequeue l =>
      let r := S.dequeueStep t i.ts s l
      some (r.1, r.2.1.elim .dequeue fun _ => .idle, r.2.2)

/-- Threads working on the segment `Segment(start)`. -/
def segmentProgram (start : Nat) :
    Program σ (SegmentLocal κe κd) SegmentInput SegmentEvent where
  start := S.new start
  idle := .idle
  step := segmentStep S

/-! ### What the history says -/

def depositOf : SegmentEvent → Option (Tid × Nat)
  | .deposit t a _ => some (t, a)
  | _ => none

def takeOf : SegmentEvent → Option (Tid × Nat)
  | .take t a _ => some (t, a)
  | _ => none

def calledOf : Event → Option (Tid × Nat)
  | .call t (.enqueue a) => some (t, a)
  | _ => none

def finishedOf : Event → Option (Tid × Nat)
  | .retEnq t a => some (t, a)
  | _ => none

def returnedOf : Event → Option (Tid × Nat)
  | .retDeq t (some a) => some (t, a)
  | _ => none

def linkedSegment : Event → Option Nat
  | .link _ s => some s
  | _ => none

/-- Every segment that was ever part of the list, in its order. -/
def chain (history : List Event) : List Nat :=
  sentinel :: history.filterMap linkedSegment

def segmentEvent (s : Nat) : Event → Option SegmentEvent
  | .segment s' e => if s' = s then some e else none
  | _ => none

end LinkedRingQueue

end QueueFairness
