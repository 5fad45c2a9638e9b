import QueueFairness.Proof.MSQueueStep

/-!
# The log of MSQueue

An enqueue writes its second stamp into a node that is already in the list, so a dequeue may read
the field before it is written. Whatever it reads that has been written is right: the stamp the
node's enqueuer wrote, ordered with the other three. The log is faithful in the runs whose dequeues
read the field only after the write.
-/

namespace QueueFairness.MSQueue

open Interleaving AtomicQueue LinkedList

variable {α : Type}

/-- The nodes linked, in order: the list without the constructor's node. -/
def links (history : List (Event α)) : List Nat := history.filterMap linkedNode

def loggedBy (t : Tid) : Event α → Option MSLogRecord
  | .logged u _ r => if u = t then some r else none
  | _ => none

/-- The record of a dequeue that took node `n` carries the stamps written for that node, both of
them, and its four stamps are in order. -/
def Faithful (c : Config (Shared α) (Local α) (Event α)) (n : Nat) (r : MSLogRecord) : Prop :=
  ∃ enqInv enqLin u,
    r.enqInvTs = some enqInv ∧ r.enqLinTs = some enqLin ∧ (c.shared.heap n).enqInvTs = some enqInv
      ∧ .stamp u n enqLin ∈ c.history ∧ .link u n ∈ c.history
      ∧ enqInv ≤ enqLin ∧ enqLin ≤ r.deqLinTs ∧ r.deqInvTs ≤ r.deqLinTs

def LogFaithful (c : Config (Shared α) (Local α) (Event α)) : Prop :=
  ∀ t, ∀ r ∈ c.shared.log t, ∃ n, .logged t n r ∈ c.history ∧ Faithful c n r

/-- What a record says of the node it was taken from, unless the second stamp was missing. -/
structure Recorded (g : Shared α) (n : Nat) (r : MSLogRecord) : Prop where
  inv : (g.heap n).enqInvTs = r.enqInvTs
  lin : ∀ x, r.enqLinTs = some x → (g.heap n).enqLinTs = some x ∧ x ≤ r.deqLinTs
  deq : r.deqInvTs ≤ r.deqLinTs

structure Stamps (w : W α) : Prop where
  fresh : ∀ {n}, w.shared.status n = .unallocated → (w.shared.heap n).enqLinTs = none
  inv : ∀ n ∈ links w.history, (w.shared.heap n).enqInvTs ≠ none
  invClock : ∀ {n x}, (w.shared.heap n).enqInvTs = some x → x ≤ w.shared.clock
  lin : ∀ {n x}, (w.shared.heap n).enqLinTs = some x → x ≤ w.shared.clock
    ∧ (∃ y, (w.shared.heap n).enqInvTs = some y ∧ y ≤ x)
    ∧ ∃ u, .stamp u n x ∈ w.history ∧ .link u n ∈ w.history
  alloc : ∀ {u n}, .link u n ∈ w.history → .alloc u n ∈ w.history
  log : ∀ t, w.shared.log t = w.history.filterMap (loggedBy t)
  logged : ∀ {t n r}, .logged t n r ∈ w.history → n ∈ links w.history ∧ Recorded w.shared n r

/-- The node of an enqueue that has not written its second stamp. -/
structure Unstamped (w : W α) (t : Tid) (n : Nat) : Prop where
  alloc : .alloc t n ∈ w.history
  lin : (w.shared.heap n).enqLinTs = none

/-- What a dequeue has read from the node `next` points to. -/
def Reads (w : W α) (next : MSPointer) (ei : Option Nat) (el : Option Nat) : Prop :=
  ∃ n ∈ links w.history, next.ptr = some n ∧ (w.shared.heap n).enqInvTs = ei
    ∧ ∀ x, el = some x → (w.shared.heap n).enqLinTs = some x

def StampLoc (w : W α) (t : Tid) : Local α → Prop
  | .idle | .enqNowInv _ | .enqSwingTail _ _ | .deqNowInv | .deqDelete _ _ => True
  | .enqNew _ inv => inv ≤ w.shared.clock
  | .enqStoreInv node inv => Unstamped w t node ∧ inv ≤ w.shared.clock
  | .enqLoadTail node | .enqRetry node | .enqLoadNext node _ | .enqCheckTail node _ _
  | .enqCasNext node _ _ | .enqHelpTail node _ _ =>
      Unstamped w t node ∧ (w.shared.heap node).enqInvTs ≠ none
  | .enqNowLin node _ => Unstamped w t node ∧ .link t node ∈ w.history
  | .enqStoreLin node _ lin =>
      Unstamped w t node ∧ .link t node ∈ w.history ∧ lin ≤ w.shared.clock
        ∧ ∃ x, (w.shared.heap node).enqInvTs = some x ∧ x ≤ lin
  | .deqLoadHead inv | .deqLoadTail inv _ | .deqLoadNext inv _ _ | .deqCheckHead inv _ _ _
  | .deqHelpTail inv _ _ | .deqReadValue inv _ _ | .deqReadInv inv _ _ _ => inv ≤ w.shared.clock
  | .deqReadLin inv _ next _ ei => inv ≤ w.shared.clock ∧ Reads w next ei none
  | .deqCasHead inv _ next _ ei el | .deqNowLin inv _ next _ ei el =>
      inv ≤ w.shared.clock ∧ Reads w next ei el

structure StampRely (t : Tid) (w w' : W α) : Prop where
  history : ∀ {e}, e ∈ w.history → e ∈ w'.history
  clock : w.shared.clock ≤ w'.shared.clock
  own : ∀ {n}, .alloc t n ∈ w.history →
    (w'.shared.heap n).enqInvTs = (w.shared.heap n).enqInvTs
      ∧ (w'.shared.heap n).enqLinTs = (w.shared.heap n).enqLinTs
  inv : ∀ n ∈ links w.history, (w'.shared.heap n).enqInvTs = (w.shared.heap n).enqInvTs
  lin : ∀ {n x}, (w.shared.heap n).enqLinTs = some x → (w'.shared.heap n).enqLinTs = some x

theorem mem_links {h : List (Event α)} {n : Nat} : n ∈ links h ↔ ∃ u, .link u n ∈ h := by
  rw [links, List.mem_filterMap]
  constructor
  · rintro ⟨e, he, hn⟩
    cases e <;> simp only [linkedNode, Option.some.injEq, reduceCtorEq] at hn
    subst hn
    exact ⟨_, he⟩
  · rintro ⟨u, hu⟩
    exact ⟨_, hu, rfl⟩

section Stable

variable {t : Tid} {w w' : W α}

theorem StampRely.links (h : StampRely t w w') {n : Nat} (hn : n ∈ links w.history) :
    n ∈ MSQueue.links w'.history := by
  obtain ⟨u, hu⟩ := mem_links.mp hn
  exact mem_links.mpr ⟨u, h.history hu⟩

theorem StampRely.unstamped (h : StampRely t w w') {n : Nat} (hn : Unstamped w t n) :
    Unstamped w' t n :=
  ⟨h.history hn.alloc, (h.own hn.alloc).2.trans hn.lin⟩

theorem StampRely.reads (h : StampRely t w w') {next : MSPointer} {ei el : Option Nat}
    (hr : Reads w next ei el) : Reads w' next ei el := by
  obtain ⟨n, hn, hptr, hei, hel⟩ := hr
  exact ⟨n, h.links hn, hptr, (h.inv n hn).trans hei, fun x hx => h.lin (hel x hx)⟩

theorem StampRely.loc {l : Local α} (h : StampRely t w w') (hl : StampLoc w t l) :
    StampLoc w' t l := by
  cases l with
  | idle | enqNowInv | enqSwingTail | deqNowInv | deqDelete => trivial
  | enqNew => exact Nat.le_trans hl h.clock
  | enqStoreInv => exact ⟨h.unstamped hl.1, hl.2.trans h.clock⟩
  | enqLoadTail | enqRetry | enqLoadNext | enqCheckTail | enqCasNext | enqHelpTail =>
      exact ⟨h.unstamped hl.1, by rw [(h.own hl.1.alloc).1]; exact hl.2⟩
  | enqNowLin => exact ⟨h.unstamped hl.1, h.history hl.2⟩
  | enqStoreLin =>
      obtain ⟨hun, hlink, hclock, x, hx, hle⟩ := hl
      exact ⟨h.unstamped hun, h.history hlink, hclock.trans h.clock, x,
        (h.own hun.alloc).1.trans hx, hle⟩
  | deqLoadHead | deqLoadTail | deqLoadNext | deqCheckHead | deqHelpTail | deqReadValue
  | deqReadInv => exact Nat.le_trans hl h.clock
  | deqReadLin | deqCasHead | deqNowLin => exact ⟨hl.1.trans h.clock, h.reads hl.2⟩

end Stable

/-- What a step of thread `t` from `w` has to achieve. -/
def StampsPreserved (t : Tid) (w : W α) (g : Shared α) (l : Local α) (es : List (Event α)) : Prop :=
  Stamps ⟨(), g, w.history ++ es⟩ ∧ StampLoc ⟨(), g, w.history ++ es⟩ t l
    ∧ ∀ u, u ≠ t → StampRely u w ⟨(), g, w.history ++ es⟩

/-- Events that neither link nor log. -/
structure Unlogged (es : List (Event α)) : Prop where
  link : es.filterMap linkedNode = []
  log : ∀ t, es.filterMap (loggedBy t) = []
  notMem : ∀ t n r, .logged t n r ∉ es

section Steps

variable {t : Tid} {g g' : Shared α} {h es : List (Event α)} {l : Local α}

theorem links_append : links (h ++ es) = links h ++ links es := by
  simp [links]

theorem unlogged_nil : Unlogged ([] : List (Event α)) := ⟨rfl, fun _ => rfl, by simp⟩

theorem unlogged_act (a : Act α) : Unlogged [Event.act a] := ⟨rfl, fun _ => rfl, by simp⟩

/-- A step that writes no stamp, links nothing and logs nothing. -/
theorem stamps_still (hs : Stamps ⟨(), g, h⟩)
    (hheap : ∀ n, (g'.heap n).enqInvTs = (g.heap n).enqInvTs
      ∧ (g'.heap n).enqLinTs = (g.heap n).enqLinTs)
    (hstatus : ∀ n, g'.status n = .unallocated → g.status n = .unallocated)
    (hclock : g.clock ≤ g'.clock) (hlog : g'.log = g.log) (hes : Unlogged es)
    (hl : StampRely t ⟨(), g, h⟩ ⟨(), g', h ++ es⟩ → StampLoc ⟨(), g', h ++ es⟩ t l) :
    StampsPreserved t ⟨(), g, h⟩ g' l es := by
  have hlinks : links (h ++ es) = links h := by
    rw [links_append, show links es = [] from hes.link, List.append_nil]
  have hrely : ∀ u, StampRely u ⟨(), g, h⟩ ⟨(), g', h ++ es⟩ := fun u =>
    ⟨fun he => List.mem_append_left _ he, hclock, fun {n} _ => hheap n, fun n _ => (hheap n).1,
      fun {n x} hx => by rw [(hheap n).2]; exact hx⟩
  refine ⟨⟨fun {n} hn => ?_, fun n hn => ?_, fun {n x} hx => ?_, fun {n x} hx => ?_,
    fun {u n} hn => ?_, fun u => ?_, fun {u n r} hr => ?_⟩, hl (hrely t), fun u _ => hrely u⟩
  · rw [(hheap n).2]
    exact hs.fresh (hstatus n hn)
  · rw [hlinks] at hn
    rw [(hheap n).1]
    exact hs.inv n hn
  · rw [(hheap n).1] at hx
    exact (hs.invClock hx).trans hclock
  · rw [(hheap n).2] at hx
    obtain ⟨hle, hinv, u, hstamp, hlink⟩ := hs.lin hx
    exact ⟨hle.trans hclock, by rw [(hheap n).1]; exact hinv, u,
      List.mem_append_left _ hstamp, List.mem_append_left _ hlink⟩
  · have hmem : n ∈ links (h ++ es) := mem_links.mpr ⟨u, hn⟩
    rcases List.mem_append.mp hn with hn | hn
    · exact List.mem_append_left _ (hs.alloc hn)
    · have : n ∈ es.filterMap linkedNode := List.mem_filterMap.mpr ⟨_, hn, rfl⟩
      simp [hes.link] at this
  · rw [hlog, hs.log u, List.filterMap_append, hes.log u, List.append_nil]
  · rcases List.mem_append.mp hr with hr | hr
    · obtain ⟨hmem, hrec⟩ := hs.logged hr
      exact ⟨by rw [hlinks]; exact hmem, by rw [(hheap n).1]; exact hrec.inv,
        fun x hx => by rw [(hheap n).2]; exact hrec.lin x hx, hrec.deq⟩
    · exact absurd hr (hes.notMem u n r)

theorem stamps_of_eq (hs : Stamps ⟨(), g, h⟩) (hheap : g'.heap = g.heap)
    (hstatus : g'.status = g.status) (hclock : g.clock ≤ g'.clock) (hlog : g'.log = g.log)
    (hes : Unlogged es)
    (hl : StampRely t ⟨(), g, h⟩ ⟨(), g', h ++ es⟩ → StampLoc ⟨(), g', h ++ es⟩ t l) :
    StampsPreserved t ⟨(), g, h⟩ g' l es :=
  stamps_still hs (fun n => by simp [hheap]) (fun n hn => by rwa [hstatus] at hn) hclock hlog hes hl

/-- A new node has neither stamp. -/
theorem stamps_alloc (hw : Glob ⟨(), g, h⟩) (hs : Stamps ⟨(), g, h⟩) {addr inv : Nat} {value : α}
    (hfree : g.status addr = .unallocated) (hinv : inv ≤ g.clock) :
    StampsPreserved t ⟨(), g, h⟩ ((g.setStatus addr .allocated).setNode addr { value })
      (.enqStoreInv addr inv) [.alloc t addr] := by
  have hlinks : links (h ++ [.alloc t addr]) = links h := by simp [links, linkedNode]
  have halloc : ∀ {u n}, Event.alloc u n ∈ h → n ≠ addr := fun hn heq => hw.alloc hn (heq ▸ hfree)
  have hlink : ∀ {n}, n ∈ links h → n ≠ addr := fun hn => by
    obtain ⟨u, hu⟩ := mem_links.mp hn
    exact halloc (hs.alloc hu)
  refine ⟨⟨fun {n} hn => ?_, fun n hn => ?_, fun {n x} hx => ?_, fun {n x} hx => ?_,
    fun {u n} hn => ?_, fun u => ?_, fun {u n r} hr => ?_⟩, ⟨⟨by simp, by simp⟩, hinv⟩, fun u _ =>
    ⟨fun he => List.mem_append_left _ he, le_rfl, fun hn => by simp [halloc hn],
      fun n hn => by simp [hlink hn], fun {n x} hx => ?_⟩⟩
  · by_cases hna : n = addr
    · subst hna
      simp
    · simpa [hna] using hs.fresh (n := n) (by simpa [hna] using hn)
  · rw [hlinks] at hn
    simpa [hlink hn] using hs.inv n hn
  · by_cases hna : n = addr
    · subst hna
      simp at hx
    · exact hs.invClock (n := n) (by simpa [hna] using hx)
  · by_cases hna : n = addr
    · subst hna
      simp at hx
    · obtain ⟨hle, hy, v, hstamp, hlk⟩ := hs.lin (n := n) (x := x) (by simpa [hna] using hx)
      exact ⟨hle, by simpa [hna] using hy, v, by simpa using hstamp, by simpa using hlk⟩
  · have hn' : Event.link u n ∈ h := by simpa using hn
    exact List.mem_append_left _ (hs.alloc hn')
  · exact (hs.log u).trans (by simp [loggedBy])
  · obtain ⟨hmem, hrec⟩ := hs.logged (t := u) (n := n) (r := r) (by simpa using hr)
    exact ⟨by rw [hlinks]; exact hmem, by simpa [hlink hmem] using hrec.inv,
      by simpa [hlink hmem] using hrec.lin, hrec.deq⟩
  · have hna : n ≠ addr := by
      rintro rfl
      exact absurd ((hs.fresh hfree).symm.trans hx) (by simp)
    simpa [hna] using hx

/-- The first stamp is written into a node nobody else knows. -/
theorem stamps_storeInv (hw : Glob ⟨(), g, h⟩) (hs : Stamps ⟨(), g, h⟩) {node inv : Nat}
    (hown : Private ⟨(), g, h⟩ t node) (hun : Unstamped ⟨(), g, h⟩ t node) (hinv : inv ≤ g.clock) :
    StampsPreserved t ⟨(), g, h⟩ (g.setNode node { g.heap node with enqInvTs := some inv })
      (.enqLoadTail node) [] := by
  have hlink : ∀ {n}, n ∈ links h → n ≠ node := fun hn heq =>
    hown.notMem (List.mem_cons_of_mem _ (heq ▸ hn))
  have hlin : ∀ n, ((g.setNode node { g.heap node with enqInvTs := some inv }).heap n).enqLinTs
      = (g.heap n).enqLinTs := by
    intro n
    by_cases hn : n = node
    · subst hn
      simp
    · simp [hn]
  rw [StampsPreserved, List.append_nil]
  refine ⟨⟨fun {n} hn => ?_, fun n hn => ?_, fun {n x} hx => ?_, fun {n x} hx => ?_,
    hs.alloc, hs.log, fun {u n r} hr => ?_⟩, ⟨⟨hun.alloc, (hlin node).trans hun.lin⟩, by simp⟩,
    fun u hu => ⟨id, le_rfl, fun {n} hn => ?_, fun n hn => by simp [hlink hn],
      fun {n x} hx => (hlin n).trans hx⟩⟩
  · exact (hlin n).trans (hs.fresh hn)
  · simpa [hlink hn] using hs.inv n hn
  · by_cases hn : n = node
    · subst hn
      obtain rfl : inv = x := by simpa using hx
      exact hinv
    · exact hs.invClock (n := n) (by simpa [hn] using hx)
  · replace hx := (hlin n).symm.trans hx
    have hn : n ≠ node := by
      rintro rfl
      exact absurd (hun.lin.symm.trans hx) (by simp)
    rw [Shared.setNode_of_ne _ _ _ hn]
    exact hs.lin hx
  · obtain ⟨hmem, hrec⟩ := hs.logged hr
    exact
      ⟨hmem, by simpa [hlink hmem] using hrec.inv, by simpa [hlink hmem] using hrec.lin, hrec.deq⟩
  · have hne : n ≠ node := fun heq => hu (hw.owner (heq ▸ hn) hown.alloc)
    simp [hne]

/-- The node is linked, with its first stamp and without its second. -/
theorem stamps_link (hs : Stamps ⟨(), g, h⟩) {node n : Nat} {curTail : MSPointer} {next : MSPointer}
    {a : Act α} (hun : Unstamped ⟨(), g, h⟩ t node) (hinv : (g.heap node).enqInvTs ≠ none) :
    StampsPreserved t ⟨(), g, h⟩ (g.setNode n { g.heap n with next := next })
      (.enqNowLin node curTail) [.link t node, .act a] := by
  have hlinks : links (h ++ [.link t node, .act a]) = links h ++ [node] := by
    simp [links, linkedNode]
  have hheap : ∀ m, ((g.setNode n { g.heap n with next := next }).heap m).enqInvTs
      = (g.heap m).enqInvTs ∧ ((g.setNode n { g.heap n with next := next }).heap m).enqLinTs
        = (g.heap m).enqLinTs := by
    intro m
    by_cases hm : m = n
    · subst hm
      simp
    · simp [hm]
  refine ⟨⟨fun {m} hm => ?_, fun m hm => ?_, fun {m x} hx => ?_, fun {m x} hx => ?_,
    fun {u m} hm => ?_, fun u => ?_, fun {u m r} hr => ?_⟩,
    ⟨⟨List.mem_append_left _ hun.alloc, (hheap node).2.trans hun.lin⟩, by simp⟩, fun u _ =>
    ⟨fun he => List.mem_append_left _ he, le_rfl, fun {m} _ => hheap m, fun m _ => (hheap m).1,
      fun {m x} hx => (hheap m).2.trans hx⟩⟩
  · exact (hheap m).2.trans (hs.fresh hm)
  · rw [hlinks] at hm
    rw [(hheap m).1]
    rcases List.mem_append.mp hm with hm | hm
    · exact hs.inv m hm
    · exact List.mem_singleton.mp hm ▸ hinv
  · exact hs.invClock ((hheap m).1.symm.trans hx)
  · obtain ⟨hle, hy, u, hstamp, hlink⟩ := hs.lin ((hheap m).2.symm.trans hx)
    exact ⟨hle, by rw [(hheap m).1]; exact hy, u, by simp [hstamp], by simp [hlink]⟩
  · rcases List.mem_append.mp hm with hm | hm
    · exact List.mem_append_left _ (hs.alloc hm)
    · obtain ⟨rfl, rfl⟩ : u = t ∧ m = node := by simpa using hm
      exact List.mem_append_left _ hun.alloc
  · exact (hs.log u).trans (by simp [loggedBy])
  · obtain ⟨hmem, hrec⟩ := hs.logged (t := u) (n := m) (r := r) (by simpa using hr)
    exact ⟨by simp [hlinks, hmem], (hheap m).1.trans hrec.inv,
      fun x hx => ⟨(hheap m).2.trans (hrec.lin x hx).1, (hrec.lin x hx).2⟩, hrec.deq⟩

/-- The second stamp is written, once. -/
theorem stamps_storeLin (hw : Glob ⟨(), g, h⟩) (hs : Stamps ⟨(), g, h⟩) {node lin : Nat}
    {curTail : MSPointer} (hl : StampLoc ⟨(), g, h⟩ t (.enqStoreLin node curTail lin)) :
    StampsPreserved t ⟨(), g, h⟩ (g.setNode node { g.heap node with enqLinTs := some lin })
      (.enqSwingTail node curTail) [.stamp t node lin] := by
  obtain ⟨hun, hlink, hclock, hinv⟩ := hl
  have hlinks : links (h ++ [.stamp t node lin]) = links h := by simp [links, linkedNode]
  have hheap : ∀ n, ((g.setNode node { g.heap node with enqLinTs := some lin }).heap n).enqInvTs
      = (g.heap n).enqInvTs := by
    intro n
    by_cases hn : n = node
    · subst hn
      simp
    · simp [hn]
  have hkeep : ∀ {n x}, (g.heap n).enqLinTs = some x →
      ((g.setNode node { g.heap node with enqLinTs := some lin }).heap n).enqLinTs = some x := by
    intro n x hx
    have hn : n ≠ node := by
      rintro rfl
      exact absurd (hun.lin.symm.trans hx) (by simp)
    simpa [hn] using hx
  refine ⟨⟨fun {n} hn => ?_, fun n hn => ?_, fun {n x} hx => ?_, fun {n x} hx => ?_,
    fun {u n} hn => ?_, fun u => ?_, fun {u n r} hr => ?_⟩, trivial, fun u hu =>
    ⟨fun he => List.mem_append_left _ he, le_rfl, fun {n} hn => ?_, fun n _ => hheap n, hkeep⟩⟩
  · have hne : n ≠ node := fun heq => hw.alloc hun.alloc (heq ▸ hn)
    simpa [hne] using hs.fresh hn
  · rw [hlinks] at hn
    rw [hheap n]
    exact hs.inv n hn
  · exact hs.invClock ((hheap n).symm.trans hx)
  · by_cases hn : n = node
    · subst hn
      obtain rfl : lin = x := by simpa using hx
      exact ⟨hclock, by rw [hheap n]; exact hinv, t, by simp, by simp [hlink]⟩
    · obtain ⟨hle, hy, u, hstamp, hlk⟩ := hs.lin (n := n) (x := x) (by simpa [hn] using hx)
      exact ⟨hle, by rw [hheap n]; exact hy, u, by simp [hstamp], by simp [hlk]⟩
  · exact List.mem_append_left _ (hs.alloc (by simpa using hn))
  · exact (hs.log u).trans (by simp [loggedBy])
  · obtain ⟨hmem, hrec⟩ := hs.logged (t := u) (n := n) (r := r) (by simpa using hr)
    exact ⟨by rw [hlinks]; exact hmem, (hheap n).trans hrec.inv,
      fun x hx => ⟨hkeep (hrec.lin x hx).1, (hrec.lin x hx).2⟩, hrec.deq⟩
  · have hne : n ≠ node := fun heq => hu (hw.owner (heq ▸ hn) hun.alloc)
    simp [hne]

/-- A record is logged. -/
theorem stamps_logged (hs : Stamps ⟨(), g, h⟩) {n ts inv : Nat} {curHead next : MSPointer} {v : α}
    {ei el : Option Nat} (hts : g.clock ≤ ts) (hinv : inv ≤ g.clock) (hn : next.ptr = some n)
    (hreads : Reads ⟨(), g, h⟩ next ei el) :
    StampsPreserved t ⟨(), g, h⟩
      { g with clock := ts, log := Function.update g.log t (g.log t ++ [⟨ei, el, inv, ts⟩]) }
      (.deqDelete curHead v) [.logged t n ⟨ei, el, inv, ts⟩] := by
  obtain ⟨m, hmem, hm, hei, hel⟩ := hreads
  obtain rfl : m = n := Option.some.inj (hm.symm.trans hn)
  have hlinks : links (h ++ [.logged t m ⟨ei, el, inv, ts⟩]) = links h := by
    simp [links, linkedNode]
  refine ⟨⟨hs.fresh, fun k hk => ?_, fun {k x} hx => (hs.invClock hx).trans hts, fun {k x} hx => ?_,
    fun {u k} hk => ?_, fun u => ?_, fun {u k r} hr => ?_⟩, trivial, fun u _ =>
    ⟨fun he => List.mem_append_left _ he, hts, fun _ => ⟨rfl, rfl⟩, fun _ _ => rfl, id⟩⟩
  · exact hs.inv k (hlinks ▸ hk)
  · obtain ⟨hle, hy, u, hstamp, hlk⟩ := hs.lin hx
    exact ⟨hle.trans hts, hy, u, by simp [hstamp], by simp [hlk]⟩
  · exact List.mem_append_left _ (hs.alloc (by simpa using hk))
  · have hlog : g.log u = h.filterMap (loggedBy u) := hs.log u
    by_cases hu : u = t
    · subst hu
      simp [loggedBy, hlog]
    · simp [loggedBy, hlog, hu, Ne.symm hu]
  · rcases List.mem_append.mp hr with hr | hr
    · obtain ⟨hmem', hrec⟩ := hs.logged hr
      exact ⟨by rw [hlinks]; exact hmem', hrec.inv, hrec.lin, hrec.deq⟩
    · obtain ⟨rfl, rfl, rfl⟩ : u = t ∧ k = m ∧ r = ⟨ei, el, inv, ts⟩ := by simpa using hr
      exact ⟨by rw [hlinks]; exact hmem, hei,
        fun x hx => ⟨hel x hx, (hs.lin (hel x hx)).1.trans hts⟩, hinv.trans hts⟩

section States

variable {i : Input α} (hs : Stamps ⟨(), g, h⟩)

include hs

/-- The node just linked has its first stamp. -/
theorem enqNowLin_stamps {node : Nat} {curTail : MSPointer}
    (hsl : StampLoc ⟨(), g, h⟩ t (.enqNowLin node curTail)) :
    Leads (StampsPreserved t ⟨(), g, h⟩) (step t i g (.enqNowLin node curTail)) := by
  refine .ite (fun hts => .into ?_) fun _ => .nowhere
  refine stamps_of_eq hs rfl rfl hts rfl unlogged_nil fun hr =>
    ⟨hr.unstamped hsl.1, hr.history hsl.2, le_rfl, ?_⟩
  obtain ⟨x, hx⟩ := Option.ne_none_iff_exists'.mp (hs.inv node (mem_links.mpr ⟨t, hsl.2⟩))
  exact ⟨x, hx, (hs.invClock hx).trans hts⟩

theorem deqCheckHead_stamps {inv : Nat} {curHead curTail next : MSPointer}
    (hsl : StampLoc ⟨(), g, h⟩ t (.deqCheckHead inv curHead curTail next)) :
    Leads (StampsPreserved t ⟨(), g, h⟩) (step t i g (.deqCheckHead inv curHead curTail next)) := by
  have hretry : ∀ l : Local α, StampLoc ⟨(), g, h⟩ t l → StampsPreserved t ⟨(), g, h⟩ g l [] :=
    fun l hl => stamps_of_eq hs rfl rfl le_rfl rfl unlogged_nil fun hr => hr.loc hl
  refine .ite (fun _ => .ite (fun _ => ?_) fun _ => ?_) fun _ => .into <| hretry _ hsl
  · split
    · exact .into <| stamps_of_eq hs rfl rfl le_rfl rfl (unlogged_act _) fun _ => trivial
    · exact .into <| hretry _ hsl
  · split <;> exact .into <| hretry _ hsl

theorem deqReadInv_stamps {inv : Nat} {curHead next : MSPointer} {value : α}
    (hl : Loc ⟨(), g, h⟩ t (.deqReadInv inv curHead next value))
    (hsl : StampLoc ⟨(), g, h⟩ t (.deqReadInv inv curHead next value)) :
    Leads (StampsPreserved t ⟨(), g, h⟩) (step t i g (.deqReadInv inv curHead next value)) := by
  refine .map fun n hn => ?_
  obtain ⟨⟨p, -, ⟨m, hm, hat⟩, -⟩, -⟩ := hl
  obtain rfl : m = n := Option.some.inj (hm.symm.trans hn)
  have hmem : m ∈ links h := List.mem_of_getElem? (by simpa [chain, links] using hat)
  exact stamps_of_eq hs rfl rfl le_rfl rfl unlogged_nil fun hr =>
    ⟨hsl, hr.reads ⟨m, hmem, hn, rfl, by simp⟩⟩

theorem deqReadLin_stamps {inv : Nat} {curHead next : MSPointer} {value : α} {ei : Option Nat}
    (hsl : StampLoc ⟨(), g, h⟩ t (.deqReadLin inv curHead next value ei)) :
    Leads (StampsPreserved t ⟨(), g, h⟩)
      (step t i g (.deqReadLin inv curHead next value ei)) := by
  refine .map fun n hn => ?_
  obtain ⟨hinv, m, hmem, hm, hei, -⟩ := hsl
  obtain rfl : m = n := Option.some.inj (hm.symm.trans hn)
  exact stamps_of_eq hs rfl rfl le_rfl rfl unlogged_nil fun hr =>
    ⟨hinv, hr.reads ⟨m, hmem, hn, hei, fun _ hx => hx⟩⟩

theorem deqDelete_stamps {curHead : MSPointer} {value : α} :
    Leads (StampsPreserved t ⟨(), g, h⟩) (step t i g (.deqDelete curHead value)) := by
  refine .map fun n _ => ?_
  refine stamps_still hs (fun m => ⟨rfl, rfl⟩) (fun m hm => ?_) le_rfl rfl (unlogged_act _)
    fun _ => trivial
  by_cases hmn : m = n
  · subst hmn
    simp at hm
  · simpa [hmn] using hm

end States

/-- **Every step keeps what the stamps say.** -/
theorem step_stamps {i : Input α} {l' : Local α} (hw : Glob ⟨(), g, h⟩) (hs : Stamps ⟨(), g, h⟩)
    (hl : Loc ⟨(), g, h⟩ t l) (hsl : StampLoc ⟨(), g, h⟩ t l)
    (hstep : step t i g l = some (g', l', es)) : StampsPreserved t ⟨(), g, h⟩ g' l' es := by
  suffices hleads : Leads (StampsPreserved t ⟨(), g, h⟩) (step t i g l) from
    hleads.of_some hstep
  cases l with
  | idle =>
      refine .map fun op _ => ?_
      cases op <;> exact stamps_of_eq hs rfl rfl le_rfl rfl (unlogged_act _) fun _ => trivial
  | enqNowInv | deqNowInv =>
      refine .ite (fun hts => .into ?_) fun _ => .nowhere
      exact stamps_of_eq hs rfl rfl hts rfl unlogged_nil fun _ => Nat.le_refl i.ts
  | enqNew value inv =>
      exact .ite (fun hfree => .into <| stamps_alloc hw hs hfree hsl) fun _ => .nowhere
  | enqStoreInv node inv => exact .into <| stamps_storeInv hw hs hl hsl.1 hsl.2
  | enqLoadTail node | enqRetry node =>
      exact .into <| stamps_of_eq hs rfl rfl le_rfl rfl unlogged_nil fun hr =>
        hr.loc (l := .enqLoadTail node) hsl
  | enqLoadNext node curTail =>
      refine .map fun n _ => ?_
      exact stamps_of_eq hs rfl rfl le_rfl rfl unlogged_nil fun hr =>
        hr.loc (l := .enqLoadTail node) hsl
  | enqCheckTail node curTail next =>
      have hretry : ∀ l : Local α, StampLoc ⟨(), g, h⟩ t l →
          StampsPreserved t ⟨(), g, h⟩ g l [] := fun l hl =>
        stamps_of_eq hs rfl rfl le_rfl rfl unlogged_nil fun hr => hr.loc hl
      refine .ite (fun _ => ?_) fun _ => .into <| hretry _ hsl
      split <;> exact .into <| hretry _ hsl
  | enqCasNext node curTail next =>
      refine .map fun n _ => ?_
      split
      · exact stamps_link hs hsl.1 hsl.2
      · exact stamps_of_eq hs rfl rfl le_rfl rfl unlogged_nil fun hr =>
          hr.loc (l := .enqRetry node) hsl
  | enqHelpTail node curTail next =>
      refine .into ?_
      exact stamps_of_eq hs (by simp) (by simp) (Shared.casTail_clock ..).ge (by simp)
        unlogged_nil fun hr => hr.loc (l := .enqLoadTail node) hsl
  | enqNowLin node curTail => exact enqNowLin_stamps hs hsl
  | enqStoreLin node curTail lin => exact .into <| stamps_storeLin hw hs hsl
  | enqSwingTail node curTail =>
      refine .into ?_
      exact stamps_of_eq hs (by simp) (by simp) (Shared.casTail_clock ..).ge (by simp)
        (unlogged_act _) fun _ => trivial
  | deqLoadHead inv | deqLoadTail inv curHead =>
      refine .into ?_
      exact stamps_of_eq hs rfl rfl le_rfl rfl unlogged_nil fun hr =>
        hr.loc (l := .deqLoadHead inv) hsl
  | deqLoadNext inv curHead curTail =>
      refine .map fun n _ => ?_
      exact stamps_of_eq hs rfl rfl le_rfl rfl unlogged_nil fun hr =>
        hr.loc (l := .deqLoadHead inv) hsl
  | deqCheckHead inv curHead curTail next => exact deqCheckHead_stamps hs hsl
  | deqHelpTail inv curTail next =>
      refine .into ?_
      exact stamps_of_eq hs (by simp) (by simp) (Shared.casTail_clock ..).ge (by simp)
        unlogged_nil fun hr => hr.loc (l := .deqLoadHead inv) hsl
  | deqReadValue inv curHead next =>
      refine .map fun n _ => ?_
      exact stamps_of_eq hs rfl rfl le_rfl rfl ⟨rfl, fun _ => rfl, by simp⟩ fun hr =>
        hr.loc (l := .deqLoadHead inv) hsl
  | deqReadInv inv curHead next value => exact deqReadInv_stamps hs hl hsl
  | deqReadLin inv curHead next value ei => exact deqReadLin_stamps hs hsl
  | deqCasHead inv curHead next value ei el =>
      refine .map fun n _ => ?_
      split
      · exact stamps_of_eq hs rfl rfl le_rfl rfl ⟨rfl, fun _ => rfl, by simp⟩ fun hr =>
          hr.loc (l := .deqCasHead inv curHead next value ei el) hsl
      · exact stamps_of_eq hs rfl rfl le_rfl rfl unlogged_nil fun hr =>
          hr.loc (l := .deqLoadHead inv) hsl.1
  | deqNowLin inv curHead next value ei el =>
      exact .ite (fun hts => .map fun n hn => stamps_logged hs hts hsl.1 hn hsl.2) fun _ => .nowhere
  | deqDelete curHead value => exact deqDelete_stamps hs

end Steps

section Results

variable [Inhabited α] {c : Config (Shared α) (Local α) (Event α)}

/-- What the stamps say, as a rely-guarantee proof over the list invariant. -/
def stampInvariant (α : Type) [Inhabited α] :
    RelyGuarantee (program α) (fun c _ _ => (program α).Reachable c ∧ True) Unit where
  glob := Stamps
  loc := StampLoc
  rely := StampRely
  init := by
    refine ⟨(), ⟨fun {_} _ => rfl, by simp [links], fun {_ _} hx => ?_, fun {_ _} hx => ?_,
      fun {_ _} hn => ?_, fun _ => rfl, fun {_ _ _} hr => ?_⟩, fun _ => trivial⟩
    · simp [program] at hx
    · simp [program] at hx
    · simp at hn
    · simp at hr
  stable := StampRely.loc
  step hok hs hsl hstep := by
    obtain ⟨hw, hl⟩ := Reach.list hok.1
    exact ⟨(), step_stamps hw hs (hl _) (hsl _) hstep⟩

theorem Reach.stamps (h : (program α).Reachable c) :
    Stamps ⟨(), c.shared, c.history⟩ ∧ ∀ t, StampLoc ⟨(), c.shared, c.history⟩ t (c.locals t) := by
  obtain ⟨_, hc⟩ := (stampInvariant α).holds h.along
  exact hc

/-- A record is faithful as soon as its second stamp is there. -/
theorem faithful_iff (h : (program α).Reachable c) {t : Tid} {n : Nat} {r : MSLogRecord}
    (hr : .logged t n r ∈ c.history) : Faithful c n r ↔ r.enqLinTs ≠ none := by
  obtain ⟨hs, -⟩ := Reach.stamps h
  obtain ⟨-, hrec⟩ := hs.logged hr
  constructor
  · rintro ⟨-, lin, -, -, hlin, -⟩
    simp [hlin]
  · intro hne
    obtain ⟨x, hx⟩ := Option.ne_none_iff_exists'.mp hne
    obtain ⟨hlin, hle⟩ := hrec.lin x hx
    obtain ⟨-, ⟨y, hy, hyx⟩, u, hstamp, hlink⟩ := hs.lin hlin
    exact ⟨y, x, u, hrec.inv.symm.trans hy, hx, hy, hstamp, hlink, hyx, hle, hrec.deq⟩

/-- The thread is not about to read a second stamp that is not there. -/
def Local.readsStamped (g : Shared α) : Local α → Bool
  | .deqReadLin _ _ next _ _ => next.ptr.all fun n => (g.heap n).enqLinTs.isSome
  | _ => true

/-- The second stamp a dequeue holds. -/
def Local.heldStamp : Local α → Option (Option Nat)
  | .deqCasHead _ _ _ _ _ el | .deqNowLin _ _ _ _ _ el => some el
  | _ => none

omit [Inhabited α] in
/-- A dequeue comes to hold a stamp by reading it, and logs the one it holds. -/
theorem step_heldStamp {t : Tid} {i : Input α} {g g' : Shared α} {l l' : Local α}
    {es : List (Event α)} (hstep : step t i g l = some (g', l', es))
    (hread : l.readsStamped g = true) (hheld : l.heldStamp ≠ some none) :
    l'.heldStamp ≠ some none ∧ ∀ u n r, .logged u n r ∈ es → r.enqLinTs ≠ none := by
  cases l with
  | idle =>
      obtain ⟨op, -, heq⟩ := Option.map_eq_some_iff.mp hstep
      cases op <;> simp only [Prod.mk.injEq] at heq <;> obtain ⟨rfl, rfl, rfl⟩ := heq <;>
        simp [Local.heldStamp]
  | enqNowInv | enqNew | enqNowLin | deqNowInv =>
      simp only [step, Option.ite_none_right_eq_some, Option.some.injEq, Prod.mk.injEq] at hstep
      obtain ⟨-, rfl, rfl, rfl⟩ := hstep
      simp [Local.heldStamp]
  | enqStoreInv | enqLoadTail | enqRetry | enqHelpTail | enqStoreLin | enqSwingTail | deqLoadHead
  | deqLoadTail | deqHelpTail =>
      simp only [step, Option.some.injEq, Prod.mk.injEq] at hstep
      obtain ⟨rfl, rfl, rfl⟩ := hstep
      simp [Local.heldStamp]
  | enqCheckTail =>
      simp only [step] at hstep
      split at hstep <;> [split at hstep; skip] <;>
        simp only [Option.some.injEq, Prod.mk.injEq] at hstep <;>
        obtain ⟨rfl, rfl, rfl⟩ := hstep <;>
        simp [Local.heldStamp]
  | deqCheckHead =>
      simp only [step] at hstep
      split at hstep <;> [split at hstep <;> split at hstep; skip] <;>
        simp only [Option.some.injEq, Prod.mk.injEq] at hstep <;>
        obtain ⟨rfl, rfl, rfl⟩ := hstep <;>
        simp [Local.heldStamp]
  | enqLoadNext | deqLoadNext | deqReadValue | deqReadInv | deqDelete =>
      obtain ⟨n, -, heq⟩ := Option.map_eq_some_iff.mp hstep
      simp only [Prod.mk.injEq] at heq
      obtain ⟨rfl, rfl, rfl⟩ := heq
      simp [Local.heldStamp]
  | deqReadLin inv curHead next value ei =>
      obtain ⟨n, hn, heq⟩ := Option.map_eq_some_iff.mp hstep
      simp only [Prod.mk.injEq] at heq
      obtain ⟨rfl, rfl, rfl⟩ := heq
      have hsome : (g.heap n).enqLinTs.isSome := by simpa [Local.readsStamped, hn] using hread
      refine ⟨fun hnone => ?_, by simp⟩
      simp [Option.some.inj hnone] at hsome
  | enqCasNext =>
      obtain ⟨n, -, heq⟩ := Option.map_eq_some_iff.mp hstep
      split at heq <;> simp only [Prod.mk.injEq] at heq <;> obtain ⟨rfl, rfl, rfl⟩ := heq <;>
        simp [Local.heldStamp]
  | deqCasHead =>
      obtain ⟨n, -, heq⟩ := Option.map_eq_some_iff.mp hstep
      split at heq <;> simp only [Prod.mk.injEq] at heq <;> obtain ⟨rfl, rfl, rfl⟩ := heq
      · exact ⟨hheld, by simp⟩
      · simp [Local.heldStamp]
  | deqNowLin inv curHead next value ei el =>
      simp only [step, Option.ite_none_right_eq_some] at hstep
      obtain ⟨n, -, heq⟩ := Option.map_eq_some_iff.mp hstep.2
      simp only [Prod.mk.injEq] at heq
      obtain ⟨rfl, rfl, rfl⟩ := heq
      refine ⟨by simp [Local.heldStamp], fun u m r hr => ?_⟩
      obtain ⟨-, -, rfl⟩ : u = t ∧ m = n ∧ r = ⟨ei, el, inv, i.ts⟩ := by simpa using hr
      exact fun hnone => hheld (congrArg some hnone)

/-- **The log is faithful when every stamp is written before it is read.** -/
theorem log_faithful_of_readsStamped
    (h : (program α).Reach (fun c t _ => (c.locals t).readsStamped c.shared) c) :
    LogFaithful c := by
  have hreach : (program α).Reachable c := h.mono fun _ _ _ _ => trivial
  have hheld : (∀ t, (c.locals t).heldStamp ≠ some none)
      ∧ ∀ t n r, .logged t n r ∈ c.history → r.enqLinTs ≠ none := by
    clear hreach
    induction h with
    | init => simp [Program.init, program, Local.heldStamp]
    | @step c _ t i hreach hok hnext ih =>
        obtain ⟨hheld, hlogged⟩ := ih
        obtain ⟨g, l, es, hstep, rfl⟩ := Program.next_eq_some hnext
        obtain ⟨hown, hnew⟩ := step_heldStamp hstep hok (hheld t)
        refine ⟨fun u => ?_, fun u n r hr => ?_⟩
        · by_cases hu : u = t
          · subst hu
            simpa using hown
          · simpa [hu] using hheld u
        · rcases List.mem_append.mp hr with hr | hr
          · exact hlogged u n r hr
          · exact hnew u n r hr
  intro t r hr
  have hlog : c.shared.log t = c.history.filterMap (loggedBy t) := (Reach.stamps hreach).1.log t
  rw [hlog] at hr
  obtain ⟨e, he, hre⟩ := List.mem_filterMap.mp hr
  obtain ⟨u, n, rfl⟩ : ∃ u n, e = .logged u n r := by
    cases e with
    | logged u n s =>
        obtain ⟨-, rfl⟩ : u = t ∧ s = r := by simpa [loggedBy] using hre
        exact ⟨u, n, rfl⟩
    | _ => simp [loggedBy] at hre
  have hut : u = t := by
    by_contra hut
    simp [loggedBy, hut] at hre
  exact ⟨n, hut ▸ he, (faithful_iff hreach he).mpr (hheld.2 u n r he)⟩

/-- Thread 0 links the node of 7 while thread 1 prepares that of 8; thread 1 is the first to call
`dequeue`, and the second to take an item. -/
def loggedSchedule : List (Tid × Input Nat) :=
  List.replicate 8 (0, { op := some (.enqueue 7), ts := 1, addr := 1 })
    ++ List.replicate 4 (1, { op := some (.enqueue 8), ts := 2, addr := 2 })
    ++ List.replicate 3 (0, { ts := 3 })
    ++ List.replicate 7 (1, { ts := 4 })
    ++ List.replicate 2 (1, { op := some .dequeue, ts := 5 })
    ++ List.replicate 2 (0, { op := some .dequeue, ts := 6 })
    ++ List.replicate 10 (0, { ts := 7 })
    ++ List.replicate 10 (1, { ts := 8 })

theorem log_faithful_of_readsStamped_overlapping :
    ∃ c, (c.shared.log 0, c.shared.log 1)
        = ([⟨some 1, some 3, 6, 7⟩], [⟨some 2, some 4, 5, 8⟩])
      ∧ (program Nat).Reach (fun c t _ => (c.locals t).readsStamped c.shared) c
      ∧ LogFaithful c := by
  have hrun : ((program Nat).execIf 2 (fun c t _ => (c.locals t).readsStamped c.shared)
      (program Nat).init loggedSchedule).map (fun c => (c.shared.log 0, c.shared.log 1))
      = some ([⟨some 1, some 3, 6, 7⟩], [⟨some 2, some 4, 5, 8⟩]) := by
    decide +kernel
  obtain ⟨c, hexec, hlog⟩ := Option.map_eq_some_iff.mp hrun
  have hreach : (program Nat).Reach (fun c t _ => (c.locals t).readsStamped c.shared) c :=
    .execIf (fun _ _ _ _ hok => hok) .init (fun _ _ => rfl) hexec
  exact ⟨c, hlog, hreach, log_faithful_of_readsStamped hreach⟩

/-- Thread 0 links its node and stops before it writes the second stamp; thread 1 dequeues it. -/
def overtakenSchedule : List (Tid × Input Nat) :=
  List.replicate 8 (0, { op := some (.enqueue 7), ts := 5, addr := 1 })
    ++ List.replicate 16 (1, { op := some .dequeue, ts := 9 })

/-- A dequeue that overtakes the enqueuer logs a field nobody has written. -/
theorem log_not_faithful : ¬ ∀ c, (program Nat).Reachable c → LogFaithful c := by
  intro hall
  have hrun : ((program Nat).exec (program Nat).init overtakenSchedule).map
      (fun c => c.shared.log 1) = some [⟨some 5, none, 9, 9⟩] := by
    decide
  obtain ⟨c, hexec, hlog⟩ := Option.map_eq_some_iff.mp hrun
  have hreach : (program Nat).Reachable c := .exec (fun _ _ _ => trivial) .init hexec
  obtain ⟨n, -, -, lin, -, -, hlin, -⟩ := hall c hreach 1 _ (hlog ▸ List.mem_singleton_self _)
  cases hlin

end Results

end QueueFairness.MSQueue
