import QueueFairness.FlatCombiningLog

/-!
# The flat combining invariant

A slot belongs to its thread while its opcode is `Done` and to the holder of the lock otherwise. In
between the two lies the effect: after the combiner has applied the operation and before it stores
`Done`, the slot is *served*. The ghost state is the atomic queue the run is matched against, and
the served slot, of which there is at most one because there is one holder.
-/

namespace QueueFairness.FlatCombiningQueue

open Interleaving AtomicQueue

variable {α : Type}

def opcodeOf : Op α → Opcode
  | .enqueue _ => .enqueue
  | .dequeue => .dequeue

theorem opcodeOf_ne_done (op : Op α) : opcodeOf op ≠ .done := by
  cases op <;> simp [opcodeOf]

def FCNode.record (n : FCNode α) : LogRecord :=
  ⟨n.enqInvTs, n.enqLinTs, n.deqInvTs, n.deqLinTs⟩

/-- The slot carries the request of a call whose invocation stamp is `inv`. -/
def Request (o : Operation α) (inv : Nat) : Op α → Prop
  | .enqueue item => o.node.value = item ∧ o.node.enqInvTs = inv
  | .dequeue => o.node.deqInvTs = inv

/-- The slot carries the reply to an operation that gave `res` and took the item `popped` tells. -/
def Reply (o : Operation α) (popped : Option LogRecord) : Op α → Res α → Prop
  | .enqueue _, _ => True
  | .dequeue, .dequeued false none => o.success = false
  | .dequeue, .dequeued true (some v) =>
      o.success = true ∧ o.node.value = v ∧ popped = some o.node.record
  | .dequeue, _ => False

structure Ghost (α : Type) where
  abs : AtomicQueue.State α
  served : Option Nat

abbrev W (α : Type) := World (Ghost α) (Shared α) (Event α)

def obs (w : W α) : Observer := observe w.history

def codeAt (w : W α) (i : Nat) : Opcode := (w.shared.operations i).opcode

/-- The call of thread `i` is `op`, applied or not. -/
def PhaseOf (w : W α) (i : Nat) (op : Op α) : Prop :=
  w.ghost.abs.phase i = .called op ∨ ∃ res, w.ghost.abs.phase i = .done op res

/-- The call `op` of thread `i` has been applied and its slot holds the reply. -/
def Answered (w : W α) (i : Nat) (op : Op α) : Prop :=
  ∃ res, w.ghost.abs.phase i = .done op res
    ∧ Reply (w.shared.operations i) ((obs w).popped i) op res

/-- The combiner has read slot `i`, whose operation it has not applied. -/
structure Unserved (w : W α) (i : Nat) (c : Opcode) : Prop where
  opcode : codeAt w i = c
  served : w.ghost.served = none

/-- The combiner has applied the operation of slot `i`, which gave `res`. -/
structure Served (w : W α) (i : Nat) (op : Op α) (res : Res α) : Prop where
  opcode : codeAt w i = opcodeOf op
  served : w.ghost.served = some i
  phase : w.ghost.abs.phase i = .done op res

structure Glob (w : W α) : Prop where
  run : AtomicQueue.Run (acts w.history) w.ghost.abs
  items : w.ghost.abs.items = w.shared.q.map FCNode.value
  stamps : (obs w).items = w.shared.q.map fun n => (n.enqInvTs, n.enqLinTs)
  log : ∀ t, w.shared.log t = (obs w).log t
  timely : (obs w).Timely w.shared.clock
  unlocked : w.shared.lock = none → w.ghost.served = none
  served : ∀ i, w.ghost.served = some i → codeAt w i ≠ .done
  slots : ∀ i, codeAt w i ≠ .done → w.ghost.served ≠ some i →
    ∃ op, codeAt w i = opcodeOf op ∧ w.ghost.abs.phase i = .called op
      ∧ Request (w.shared.operations i) ((obs w).inv i) op

/-- A thread that does not hold the lock and whose slot is its own. -/
structure Private (w : W α) (t : Tid) (p : Phase α) : Prop where
  lock : w.shared.lock ≠ some t
  opcode : codeAt w t = .done
  phase : w.ghost.abs.phase t = p

/-- A thread that has published `op` and not yet seen the reply. -/
structure Waiting (w : W α) (t : Tid) (op : Op α) : Prop where
  phase : PhaseOf w t op
  answered : codeAt w t = .done → Answered w t op

def Scan.index (numThreads : Nat) : Scan α → Nat
  | .loadOpcode i | .copyValue i | .copyEnqInv i _ | .copyRest i _ _ | .nowEnqLin i _ | .push i _
  | .testEmpty i | .front i | .nowDeqLin i _ | .pop i _ _ | .storeValue i _ _
  | .storeEnqInv i _ _ | .storeEnqLin i _ _ | .storeDeqLin i _ | .storeSuccess i _
  | .storeDone i => i
  | .unlock => numThreads

/-- A stamp a combiner has read for slot `i`, and not yet used. -/
structure Stamp (w : W α) (i : Nat) (ts : Nat) : Prop where
  lin : (obs w).lin i = ts
  inv : (obs w).inv i ≤ ts
  before : (obs w).Before ts
  clock : ts ≤ w.shared.clock

def nodeAt (w : W α) (i : Nat) : FCNode α := (w.shared.operations i).node

def ScanLoc (w : W α) : Scan α → Prop
  | .loadOpcode _ | .unlock => w.ghost.served = none
  | .copyValue i => Unserved w i .enqueue
  | .copyEnqInv i v => Unserved w i .enqueue ∧ v = (nodeAt w i).value
  | .copyRest i v enqInvTs =>
      Unserved w i .enqueue ∧ v = (nodeAt w i).value ∧ enqInvTs = (nodeAt w i).enqInvTs
  | .nowEnqLin i n =>
      Unserved w i .enqueue ∧ n.value = (nodeAt w i).value ∧ n.enqInvTs = (nodeAt w i).enqInvTs
  | .push i n =>
      Unserved w i .enqueue ∧ n.value = (nodeAt w i).value ∧ n.enqInvTs = (nodeAt w i).enqInvTs
        ∧ Stamp w i n.enqLinTs
  | .testEmpty i => Unserved w i .dequeue
  | .front i => Unserved w i .dequeue ∧ w.shared.q ≠ []
  | .nowDeqLin i n => Unserved w i .dequeue ∧ w.shared.q.head? = some n
  | .pop i n deqLinTs =>
      Unserved w i .dequeue ∧ w.shared.q.head? = some n ∧ Stamp w i deqLinTs
  | .storeValue i n deqLinTs =>
      Served w i .dequeue (.dequeued true (some n.value))
        ∧ (obs w).popped i = some ⟨n.enqInvTs, n.enqLinTs, (nodeAt w i).deqInvTs, deqLinTs⟩
  | .storeEnqInv i n deqLinTs =>
      Served w i .dequeue (.dequeued true (some (nodeAt w i).value))
        ∧ (obs w).popped i = some ⟨n.enqInvTs, n.enqLinTs, (nodeAt w i).deqInvTs, deqLinTs⟩
  | .storeEnqLin i n deqLinTs =>
      Served w i .dequeue (.dequeued true (some (nodeAt w i).value))
        ∧ (obs w).popped i
          = some ⟨(nodeAt w i).enqInvTs, n.enqLinTs, (nodeAt w i).deqInvTs, deqLinTs⟩
  | .storeDeqLin i deqLinTs =>
      Served w i .dequeue (.dequeued true (some (nodeAt w i).value))
        ∧ (obs w).popped i
          = some ⟨(nodeAt w i).enqInvTs, (nodeAt w i).enqLinTs, (nodeAt w i).deqInvTs, deqLinTs⟩
  | .storeSuccess i success =>
      ∃ res, Served w i .dequeue res
        ∧ Reply { w.shared.operations i with success := success } ((obs w).popped i) .dequeue res
  | .storeDone i =>
      ∃ op res, Served w i op res ∧ Reply (w.shared.operations i) ((obs w).popped i) op res

/-- The slot of thread `t` holds the reply to its successful dequeue. -/
structure Taken (w : W α) (t : Tid) : Prop where
  lock : w.shared.lock ≠ some t
  opcode : codeAt w t = .done
  phase : w.ghost.abs.phase t = .done .dequeue (.dequeued true (some (nodeAt w t).value))
  success : (w.shared.operations t).success = true
  popped : (obs w).popped t = some (nodeAt w t).record

def Loc (numThreads : Nat) (w : W α) (t : Tid) : Local α → Prop
  | .idle => Private w t .idle
  | .nowInv op => t < numThreads ∧ Private w t (.called op)
  | .storeEnqInv item enqInvTs =>
      t < numThreads ∧ Private w t (.called (.enqueue item)) ∧ enqInvTs = (obs w).inv t
  | .storeItem item =>
      t < numThreads ∧ Private w t (.called (.enqueue item))
        ∧ (nodeAt w t).enqInvTs = (obs w).inv t
  | .publishEnqueue item =>
      t < numThreads ∧ Private w t (.called (.enqueue item))
        ∧ Request (w.shared.operations t) ((obs w).inv t) (.enqueue item)
  | .clearValue deqInvTs | .clearSuccess deqInvTs | .storeDeqInv deqInvTs =>
      t < numThreads ∧ Private w t (.called .dequeue) ∧ deqInvTs = (obs w).inv t
  | .publishDequeue =>
      t < numThreads ∧ Private w t (.called .dequeue)
        ∧ Request (w.shared.operations t) ((obs w).inv t) .dequeue
  | .tryLock op | .loadDone op =>
      t < numThreads ∧ w.shared.lock ≠ some t ∧ Waiting w t op
  | .combine op scan =>
      t < numThreads ∧ w.shared.lock = some t ∧ Waiting w t op
        ∧ (t < scan.index numThreads → codeAt w t = .done) ∧ ScanLoc w scan
  | .readSuccess =>
      w.shared.lock ≠ some t ∧ codeAt w t = .done ∧ Answered w t .dequeue
  | .readValue => Taken w t
  | .readEnqInv out => Taken w t ∧ out = (nodeAt w t).value
  | .readEnqLin out enqInvTs =>
      Taken w t ∧ out = (nodeAt w t).value ∧ enqInvTs = (nodeAt w t).enqInvTs
  | .readDeqInv out enqInvTs enqLinTs =>
      Taken w t ∧ out = (nodeAt w t).value ∧ enqInvTs = (nodeAt w t).enqInvTs
        ∧ enqLinTs = (nodeAt w t).enqLinTs
  | .logRecord out enqInvTs enqLinTs deqInvTs =>
      Taken w t ∧ out = (nodeAt w t).value ∧ enqInvTs = (nodeAt w t).enqInvTs
        ∧ enqLinTs = (nodeAt w t).enqLinTs ∧ deqInvTs = (nodeAt w t).deqInvTs
  | .returnSuccess out =>
      Private w t (.done .dequeue (.dequeued (w.shared.operations t).success out))

/-! ### What a thread relies on -/

/-- What the holder of the lock relies on: nobody else touches the inner queue, its stamps, or a
slot that has been published. -/
structure Held (w w' : W α) : Prop where
  q : w'.shared.q = w.shared.q
  served : w'.ghost.served = w.ghost.served
  slots : ∀ i, codeAt w i ≠ .done → w'.shared.operations i = w.shared.operations i
    ∧ w'.ghost.abs.phase i = w.ghost.abs.phase i ∧ (obs w').inv i = (obs w).inv i
    ∧ (obs w').popped i = (obs w).popped i
  lin : (obs w').lin = (obs w).lin
  items : (obs w').items = (obs w).items
  records : (obs w').records = (obs w).records
  clock : w.shared.clock ≤ w'.shared.clock

/-- What thread `t` relies on: only it takes and releases the lock for itself, its slot is its own
while its opcode is `Done`, and a published operation is applied as it is and answered. -/
structure Rely (t : Tid) (w w' : W α) : Prop where
  lock : w'.shared.lock = some t ↔ w.shared.lock = some t
  inv : (obs w').inv t = (obs w).inv t
  own : codeAt w t = .done → w'.shared.operations t = w.shared.operations t
    ∧ w'.ghost.abs.phase t = w.ghost.abs.phase t ∧ (obs w').popped t = (obs w).popped t
  published : codeAt w t ≠ .done → ∀ op, PhaseOf w t op → Waiting w' t op
  holder : w.shared.lock = some t → Held w w'

section Stable

variable {w w' : W α} {t : Tid}

theorem Rely.opcode_eq (h : Rely t w w') (hdone : codeAt w t = .done) :
    codeAt w' t = .done := by
  rw [codeAt, (h.own hdone).1]
  exact hdone

theorem Rely.private {p : Phase α} (h : Rely t w w') (hp : Private w t p) : Private w' t p where
  lock := fun hlock => hp.lock (h.lock.mp hlock)
  opcode := h.opcode_eq hp.opcode
  phase := (h.own hp.opcode).2.1.trans hp.phase

theorem Rely.node_eq (h : Rely t w w') (hdone : codeAt w t = .done) : nodeAt w' t = nodeAt w t := by
  rw [nodeAt, (h.own hdone).1, nodeAt]

theorem Rely.answered {op : Op α} (h : Rely t w w') (hdone : codeAt w t = .done)
    (ha : Answered w t op) : Answered w' t op := by
  obtain ⟨hslot, hphase, hpopped⟩ := h.own hdone
  unfold Answered
  rw [hslot, hphase, hpopped]
  exact ha

theorem Rely.waiting {op : Op α} (h : Rely t w w') (hw : Waiting w t op) : Waiting w' t op := by
  by_cases hdone : codeAt w t = .done
  · have hans := h.answered hdone (hw.answered hdone)
    have ⟨res, hres, _⟩ := hans
    exact ⟨Or.inr ⟨res, hres⟩, fun _ => hans⟩
  · exact h.published hdone op hw.phase

theorem Rely.taken (h : Rely t w w') (ht : Taken w t) : Taken w' t := by
  obtain ⟨hslot, hphase, hpopped⟩ := h.own ht.opcode
  have hnode := h.node_eq ht.opcode
  exact ⟨fun hlock => ht.lock (h.lock.mp hlock), h.opcode_eq ht.opcode,
    by rw [hphase, hnode]; exact ht.phase, by rw [hslot]; exact ht.success,
    by rw [hpopped, hnode]; exact ht.popped⟩

theorem Held.unserved (h : Held w w') {i : Nat} {c : Opcode} (hc : c ≠ .done)
    (hu : Unserved w i c) : Unserved w' i c where
  opcode := by
    rw [codeAt, (h.slots i (by rw [hu.opcode]; exact hc)).1]
    exact hu.opcode
  served := h.served.trans hu.served

theorem Held.served_stable (h : Held w w') {i : Nat} {op : Op α} {res : Res α}
    (hs : Served w i op res) : Served w' i op res := by
  have hslot := h.slots i (by rw [hs.opcode]; exact opcodeOf_ne_done op)
  exact ⟨by rw [codeAt, hslot.1]; exact hs.opcode, h.served.trans hs.served,
    hslot.2.1.trans hs.phase⟩

theorem Held.node_eq (h : Held w w') {i : Nat} (hbusy : codeAt w i ≠ .done) :
    nodeAt w' i = nodeAt w i := by
  rw [nodeAt, (h.slots i hbusy).1, nodeAt]

theorem Held.stamp (h : Held w w') {i ts : Nat} (hbusy : codeAt w i ≠ .done)
    (hs : Stamp w i ts) : Stamp w' i ts where
  lin := by rw [h.lin]; exact hs.lin
  inv := by rw [(h.slots i hbusy).2.2.1]; exact hs.inv
  before := ⟨by rw [h.items]; exact hs.before.items, by rw [h.records]; exact hs.before.records⟩
  clock := hs.clock.trans h.clock

theorem Unserved.busy {i : Nat} {c : Opcode} (hu : Unserved w i c) (hc : c ≠ .done) :
    codeAt w i ≠ .done := by
  rw [hu.opcode]
  exact hc

theorem Served.busy {i : Nat} {op : Op α} {res : Res α} (hs : Served w i op res) :
    codeAt w i ≠ .done := by
  rw [hs.opcode]
  exact opcodeOf_ne_done op

/-- The holder's place in the scan survives what the others do. -/
theorem Held.scanLoc (h : Held w w') {scan : Scan α} (hs : ScanLoc w scan) : ScanLoc w' scan := by
  have henq : Opcode.enqueue ≠ .done := by decide
  have hdeq : Opcode.dequeue ≠ .done := by decide
  cases scan with
  | loadOpcode i => exact h.served.trans hs
  | unlock => exact h.served.trans hs
  | copyValue i => exact h.unserved henq hs
  | copyEnqInv i v =>
      obtain ⟨hu, hv⟩ := hs
      exact ⟨h.unserved henq hu, by rw [h.node_eq (hu.busy henq)]; exact hv⟩
  | copyRest i v ts =>
      obtain ⟨hu, hv⟩ := hs
      exact ⟨h.unserved henq hu, by rw [h.node_eq (hu.busy henq)]; exact hv⟩
  | nowEnqLin i n =>
      obtain ⟨hu, hv⟩ := hs
      exact ⟨h.unserved henq hu, by rw [h.node_eq (hu.busy henq)]; exact hv⟩
  | push i n =>
      obtain ⟨hu, hv, hts, hstamp⟩ := hs
      rw [← h.node_eq (hu.busy henq)] at hv hts
      exact ⟨h.unserved henq hu, hv, hts, h.stamp (hu.busy henq) hstamp⟩
  | testEmpty i => exact h.unserved hdeq hs
  | front i => exact ⟨h.unserved hdeq hs.1, by rw [h.q]; exact hs.2⟩
  | nowDeqLin i n => exact ⟨h.unserved hdeq hs.1, by rw [h.q]; exact hs.2⟩
  | pop i n ts =>
      exact ⟨h.unserved hdeq hs.1, by rw [h.q]; exact hs.2.1,
        h.stamp (hs.1.busy hdeq) hs.2.2⟩
  | storeValue i n ts =>
      obtain ⟨hserved, hpopped⟩ := hs
      exact ⟨h.served_stable hserved,
        by rw [(h.slots i hserved.busy).2.2.2, h.node_eq hserved.busy]; exact hpopped⟩
  | storeEnqInv i n ts =>
      obtain ⟨hserved, hpopped⟩ := hs
      rw [← h.node_eq hserved.busy] at hpopped
      refine ⟨?_, by rw [(h.slots i hserved.busy).2.2.2]; exact hpopped⟩
      rw [h.node_eq hserved.busy]
      exact h.served_stable hserved
  | storeEnqLin i n ts =>
      obtain ⟨hserved, hpopped⟩ := hs
      rw [← h.node_eq hserved.busy] at hpopped
      refine ⟨?_, by rw [(h.slots i hserved.busy).2.2.2]; exact hpopped⟩
      rw [h.node_eq hserved.busy]
      exact h.served_stable hserved
  | storeDeqLin i ts =>
      obtain ⟨hserved, hpopped⟩ := hs
      rw [← h.node_eq hserved.busy] at hpopped
      refine ⟨?_, by rw [(h.slots i hserved.busy).2.2.2]; exact hpopped⟩
      rw [h.node_eq hserved.busy]
      exact h.served_stable hserved
  | storeSuccess i b =>
      obtain ⟨res, hserved, hreply⟩ := hs
      have hslot := h.slots i hserved.busy
      exact ⟨res, h.served_stable hserved, by rw [hslot.1, hslot.2.2.2]; exact hreply⟩
  | storeDone i =>
      obtain ⟨op, res, hserved, hreply⟩ := hs
      have hslot := h.slots i hserved.busy
      exact ⟨op, res, h.served_stable hserved, by rw [hslot.1, hslot.2.2.2]; exact hreply⟩

theorem Rely.loc {numThreads : Nat} {l : Local α} (h : Rely t w w') (hl : Loc numThreads w t l) :
    Loc numThreads w' t l := by
  cases l with
  | idle => exact h.private hl
  | nowInv op => exact ⟨hl.1, h.private hl.2⟩
  | storeEnqInv item ts => exact ⟨hl.1, h.private hl.2.1, by rw [h.inv]; exact hl.2.2⟩
  | storeItem item =>
      obtain ⟨ht, hp, hts⟩ := hl
      exact ⟨ht, h.private hp, by rw [h.node_eq hp.opcode, h.inv]; exact hts⟩
  | publishEnqueue item =>
      obtain ⟨ht, hp, hreq⟩ := hl
      exact ⟨ht, h.private hp, by rw [(h.own hp.opcode).1, h.inv]; exact hreq⟩
  | clearValue ts => exact ⟨hl.1, h.private hl.2.1, by rw [h.inv]; exact hl.2.2⟩
  | clearSuccess ts => exact ⟨hl.1, h.private hl.2.1, by rw [h.inv]; exact hl.2.2⟩
  | storeDeqInv ts => exact ⟨hl.1, h.private hl.2.1, by rw [h.inv]; exact hl.2.2⟩
  | publishDequeue =>
      obtain ⟨ht, hp, hreq⟩ := hl
      exact ⟨ht, h.private hp, by rw [(h.own hp.opcode).1, h.inv]; exact hreq⟩
  | tryLock op => exact ⟨hl.1, fun hlock => hl.2.1 (h.lock.mp hlock), h.waiting hl.2.2⟩
  | loadDone op => exact ⟨hl.1, fun hlock => hl.2.1 (h.lock.mp hlock), h.waiting hl.2.2⟩
  | combine op scan =>
      obtain ⟨ht, hlock, hwait, hpast, hscan⟩ := hl
      exact ⟨ht, h.lock.mpr hlock, h.waiting hwait, fun hlt => h.opcode_eq (hpast hlt),
        (h.holder hlock).scanLoc hscan⟩
  | readSuccess =>
      exact ⟨fun hlock => hl.1 (h.lock.mp hlock), h.opcode_eq hl.2.1, h.answered hl.2.1 hl.2.2⟩
  | readValue => exact h.taken hl
  | readEnqInv out => exact ⟨h.taken hl.1, by rw [h.node_eq hl.1.opcode]; exact hl.2⟩
  | readEnqLin out ei => exact ⟨h.taken hl.1, by rw [h.node_eq hl.1.opcode]; exact hl.2⟩
  | readDeqInv out ei el => exact ⟨h.taken hl.1, by rw [h.node_eq hl.1.opcode]; exact hl.2⟩
  | logRecord out ei el di => exact ⟨h.taken hl.1, by rw [h.node_eq hl.1.opcode]; exact hl.2⟩
  | returnSuccess out =>
      have hp := h.private hl
      rwa [← (h.own hl.opcode).1] at hp

end Stable

end QueueFairness.FlatCombiningQueue
