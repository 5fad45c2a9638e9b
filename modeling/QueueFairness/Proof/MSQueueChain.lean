import QueueFairness.Lib.LinkedList
import QueueFairness.MSQueue

/-!
# The list invariant of MSQueue

The nodes linked so far form one list that only grows at its end. `head` stands on the node it has
been moved to, `tail` on that node or behind it, and a node is deleted only after `head` has moved
off it, by the thread that moved it. What a thread has read may be stale, but a node keeps its place
and its successor, so what was read still says where it was read.
-/

namespace QueueFairness.MSQueue

open Interleaving AtomicQueue LinkedList

variable {α : Type}

abbrev W (α : Type) := World Unit (Shared α) (Event α)

/-- The number of nodes `head` has moved off. -/
def passed (history : List (Event α)) : Nat := (unlinked history).length

def nextPtr (g : Shared α) (n : Nat) : Option Nat := (g.heap n).next.ptr

/-- The pointer stands on the `i`th node of the list. -/
def PointsAt (history : List (Event α)) (p : MSPointer) (i : Nat) : Prop :=
  ∃ n, p.ptr = some n ∧ (chain history)[i]? = some n

/-- `tail` stands on the `i`th node or behind it. -/
def TailFrom (w : W α) (i : Nat) : Prop :=
  ∃ k, i ≤ k ∧ PointsAt w.history w.shared.tail k

structure Glob (w : W α) : Prop where
  linked : Linked (nextPtr w.shared) (chain w.history)
  head : PointsAt w.history w.shared.head (passed w.history)
  tail : TailFrom w (passed w.history)
  unlinked_eq : (unlinked w.history).map Prod.snd = (chain w.history).take (passed w.history)
  used : ∀ n ∈ chain w.history, w.shared.status n ≠ .unallocated
  live : ∀ {i n}, passed w.history ≤ i → (chain w.history)[i]? = some n →
    w.shared.status n = .allocated
  alloc : ∀ {t n}, Event.alloc t n ∈ w.history → w.shared.status n ≠ .unallocated
  owner : ∀ {t u n}, Event.alloc t n ∈ w.history → Event.alloc u n ∈ w.history → t = u

/-- A node thread `t` has allocated and not yet linked. -/
structure Private (w : W α) (t : Tid) (n : Nat) : Prop where
  alloc : .alloc t n ∈ w.history
  notMem : n ∉ chain w.history
  status : w.shared.status n = .allocated
  next : nextPtr w.shared n = none

/-- `next` was read from the node `p` stands on, if it is not null. -/
def NextOf (w : W α) (p next : MSPointer) : Prop :=
  ∃ k, PointsAt w.history p k ∧ (next.ptr ≠ none → PointsAt w.history next (k + 1))

/-- Node `n` was linked behind the one `curTail` stands on. -/
def LinkedBehind (w : W α) (curTail : MSPointer) (n : Nat) : Prop :=
  ∃ k, PointsAt w.history curTail k ∧ (chain w.history)[k + 1]? = some n

/-- `head` and then `tail` were read. -/
def Snapshot (w : W α) (curHead curTail : MSPointer) : Prop :=
  ∃ p q, p ≤ passed w.history ∧ p ≤ q ∧ PointsAt w.history curHead p
    ∧ PointsAt w.history curTail q ∧ TailFrom w q

/-- `next` is the successor of `curHead` and `tail` is no longer on `curHead`. -/
def Front (w : W α) (curHead next : MSPointer) : Prop :=
  ∃ p, PointsAt w.history curHead p ∧ PointsAt w.history next (p + 1) ∧ TailFrom w (p + 1)

/-- Thread `t` has moved `head` off the node and not yet deleted it. -/
structure Removed (w : W α) (t : Tid) (p : MSPointer) (n : Nat) : Prop where
  ptr : p.ptr = some n
  unlinked : (t, n) ∈ unlinked w.history
  status : w.shared.status n = .allocated

def ValueOf (w : W α) (p : MSPointer) (value : α) : Prop :=
  ∃ n ∈ chain w.history, p.ptr = some n ∧ (w.shared.heap n).value = value

def Loc (w : W α) (t : Tid) : Local α → Prop
  | .idle | .enqNowInv _ | .enqNew _ _ | .deqNowInv | .deqLoadHead _ => True
  | .enqStoreInv node _ | .enqLoadTail node | .enqRetry node => Private w t node
  | .enqLoadNext node curTail => Private w t node ∧ ∃ k, PointsAt w.history curTail k
  | .enqCheckTail node curTail next => Private w t node ∧ NextOf w curTail next
  | .enqCasNext node curTail next =>
      Private w t node ∧ (∃ k, PointsAt w.history curTail k) ∧ next.ptr = none
  | .enqHelpTail node curTail next =>
      Private w t node ∧ NextOf w curTail next ∧ next.ptr ≠ none
  | .enqNowLin node curTail | .enqStoreLin node curTail _ | .enqSwingTail node curTail =>
      LinkedBehind w curTail node
  | .deqLoadTail _ curHead => ∃ p ≤ passed w.history, PointsAt w.history curHead p
  | .deqLoadNext _ curHead curTail => Snapshot w curHead curTail
  | .deqCheckHead _ curHead curTail next => Snapshot w curHead curTail ∧ NextOf w curHead next
  | .deqHelpTail _ curTail next => NextOf w curTail next ∧ next.ptr ≠ none
  | .deqReadValue _ curHead next => Front w curHead next
  | .deqReadInv _ curHead next value | .deqReadLin _ curHead next value _
  | .deqCasHead _ curHead next value _ _ => Front w curHead next ∧ ValueOf w next value
  | .deqNowLin _ curHead _ _ _ _ | .deqDelete curHead _ => ∃ n, Removed w t curHead n

/-- What thread `t` relies on. -/
structure Rely (t : Tid) (w w' : W α) : Prop where
  chain : chain w.history <+: chain w'.history
  passed : passed w.history ≤ passed w'.history
  tail : ∀ {i}, TailFrom w i → TailFrom w' i
  value : ∀ n ∈ MSQueue.chain w.history, (w'.shared.heap n).value = (w.shared.heap n).value
  own : ∀ {n}, Private w t n → Private w' t n
  removed : ∀ {p n}, Removed w t p n → Removed w' t p n

section Stable

variable {t : Tid} {w w' : W α}

theorem PointsAt.mono {h h' : List (Event α)} (hle : chain h <+: chain h') {p : MSPointer} {i : Nat}
    (hp : PointsAt h p i) : PointsAt h' p i := by
  obtain ⟨n, hptr, hn⟩ := hp
  obtain ⟨more, hmore⟩ := hle
  exact ⟨n, hptr, hmore ▸ getElem?_append_of_some hn more⟩

theorem Rely.nextOf (h : Rely t w w') {p next : MSPointer} (hnext : NextOf w p next) :
    NextOf w' p next := by
  obtain ⟨k, hp, hk⟩ := hnext
  exact ⟨k, hp.mono h.chain, fun hne => (hk hne).mono h.chain⟩

theorem Rely.linkedBehind (h : Rely t w w') {p : MSPointer} {n : Nat} (hl : LinkedBehind w p n) :
    LinkedBehind w' p n := by
  obtain ⟨k, hp, hn⟩ := hl
  obtain ⟨more, hmore⟩ := h.chain
  exact ⟨k, hp.mono h.chain, hmore ▸ getElem?_append_of_some hn more⟩

theorem Rely.snapshot (h : Rely t w w') {ch ct : MSPointer} (hs : Snapshot w ch ct) :
    Snapshot w' ch ct := by
  obtain ⟨p, q, hp, hpq, hch, hct, htail⟩ := hs
  exact ⟨p, q, hp.trans h.passed, hpq, hch.mono h.chain, hct.mono h.chain, h.tail htail⟩

theorem Rely.front (h : Rely t w w') {ch next : MSPointer} (hf : Front w ch next) :
    Front w' ch next := by
  obtain ⟨p, hch, hnext, htail⟩ := hf
  exact ⟨p, hch.mono h.chain, hnext.mono h.chain, h.tail htail⟩

theorem Rely.valueOf (h : Rely t w w') {p : MSPointer} {v : α} (hv : ValueOf w p v) :
    ValueOf w' p v := by
  obtain ⟨n, hn, hptr, rfl⟩ := hv
  exact ⟨n, h.chain.subset hn, hptr, h.value n hn⟩

theorem Rely.loc {l : Local α} (h : Rely t w w') (hl : Loc w t l) : Loc w' t l := by
  cases l with
  | idle | enqNowInv | enqNew | deqNowInv | deqLoadHead => trivial
  | enqStoreInv | enqLoadTail | enqRetry => exact h.own hl
  | enqLoadNext =>
      obtain ⟨hown, k, hk⟩ := hl
      exact ⟨h.own hown, k, hk.mono h.chain⟩
  | enqCheckTail => exact ⟨h.own hl.1, h.nextOf hl.2⟩
  | enqCasNext =>
      obtain ⟨hown, ⟨k, hk⟩, hnone⟩ := hl
      exact ⟨h.own hown, ⟨k, hk.mono h.chain⟩, hnone⟩
  | enqHelpTail => exact ⟨h.own hl.1, h.nextOf hl.2.1, hl.2.2⟩
  | enqNowLin | enqStoreLin | enqSwingTail => exact h.linkedBehind hl
  | deqLoadTail =>
      obtain ⟨p, hle, hp⟩ := hl
      exact ⟨p, hle.trans h.passed, hp.mono h.chain⟩
  | deqLoadNext => exact h.snapshot hl
  | deqCheckHead => exact ⟨h.snapshot hl.1, h.nextOf hl.2⟩
  | deqHelpTail => exact ⟨h.nextOf hl.1, hl.2⟩
  | deqReadValue => exact h.front hl
  | deqReadInv | deqReadLin | deqCasHead => exact ⟨h.front hl.1, h.valueOf hl.2⟩
  | deqNowLin | deqDelete =>
      obtain ⟨n, hn⟩ := hl
      exact ⟨n, h.removed hn⟩

end Stable

end QueueFairness.MSQueue
