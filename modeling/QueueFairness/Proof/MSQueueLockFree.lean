import QueueFairness.Lib.CoveredCalls
import QueueFairness.Lib.LockFree
import QueueFairness.Lib.Solo
import QueueFairness.Proof.MSQueueLinearizable
import QueueFairness.Proof.MSQueueMoves

/-!
# MSQueue is lock-free

A thread goes round its loop again only because of what others have done since it last looked: a
link, a move of `head`, or a move of `tail`. The first two let a call take effect, and `tail` is
moved at most once for each link, since it is never further than one node behind. So as long as no
call takes effect every thread goes round a few times at most.
-/

namespace QueueFairness.MSQueue

open Interleaving AtomicQueue LinkedList

variable {α : Type}

/-! ### How far `tail` is behind -/

/-- `tail` stands on the last node or on the one before. -/
def Close (w : W α) : Prop :=
  ∃ k, PointsAt w.history w.shared.tail k ∧ (chain w.history).length ≤ k + 2

/-- `tail` has been where the pointer stands. -/
def Visited (w : W α) (p : MSPointer) : Prop := ∃ k, PointsAt w.history p k ∧ TailFrom w k

/-- What an enqueue has read from `tail`. -/
def Local.readTail : Local α → Option MSPointer
  | .enqLoadNext _ curTail | .enqCheckTail _ curTail _ | .enqCasNext _ curTail _ => some curTail
  | _ => none

section Close

variable {t u : Tid} {i : Input α} {g g' : Shared α} {h es : List (Event α)} {l l' : Local α}
  {w w' : W α} {p : MSPointer}

theorem Visited.mono (hr : Rely u w w') (hp : Visited w p) : Visited w' p := by
  obtain ⟨k, hk, htail⟩ := hp
  exact ⟨k, hk.mono hr.chain, hr.tail htail⟩

theorem Glob.tail_visited (hw : Glob w) : Visited w w.shared.tail := by
  obtain ⟨k, -, hk⟩ := hw.tail
  exact ⟨k, hk, k, Nat.le_refl k, hk⟩

/-- What a thread has read from `tail` it reads now, or it had read it before. -/
theorem move_readTail (hmove : Move t i g l g' l' es) (hp : l'.readTail = some p) :
    l.readTail = some p ∨ p = g.tail := by
  cases hmove with
  | enqLoadTail => exact .inr (Option.some.inj hp).symm
  | enqLoadNext | enqAtEnd => exact .inl hp
  | _ => cases hp

/-- Only a link adds to the list. -/
theorem move_chain (hmove : Move t i g l g' l' es) : chain (h ++ es) = chain h
    ∨ ∃ node curTail next n, l = .enqCasNext node curTail next ∧ curTail.ptr = some n
        ∧ (g.heap n).next = next ∧ chain (h ++ es) = chain h ++ [node] := by
  rw [chain_append]
  cases hmove with
  | link hn hcas => exact .inr ⟨_, _, _, _, rfl, hn, hcas, rfl⟩
  | _ => exact .inl (List.append_nil _)

theorem move_close (hw : Glob ⟨(), g, h⟩) (hl : Loc ⟨(), g, h⟩ t l)
    (hclose : Close ⟨(), g, h⟩) (hvisited : ∀ p, l.readTail = some p → Visited ⟨(), g, h⟩ p)
    (hr : Rely u ⟨(), g, h⟩ ⟨(), g', h ++ es⟩) (hmove : Move t i g l g' l' es) :
    Close ⟨(), g', h ++ es⟩ := by
  rcases move_chain (h := h) hmove with hchain | ⟨node, curTail, next, n, rfl, hn, hcas, hchain⟩
  · obtain ⟨k, hk, hlength⟩ := hclose
    obtain ⟨j, hj, hpoint⟩ := hr.tail ⟨k, Nat.le_refl k, hk⟩
    refine ⟨j, hpoint, ?_⟩
    change (chain (h ++ es)).length ≤ j + 2
    rw [hchain]
    exact hlength.trans (Nat.add_le_add_right hj 2)
  · -- The new node hangs behind one on which `tail` has been.
    obtain ⟨k, ⟨m, hm, hat⟩, htail⟩ := hvisited curTail rfl
    obtain rfl : m = n := Option.some.inj (hm.symm.trans hn)
    have hlast : nextPtr g m = none := by
      rw [nextPtr, hcas]
      exact hl.2.2
    have hlength : (chain h).length = k + 1 := hw.linked.length_of_next_none hat hlast
    obtain ⟨j, hj, hpoint⟩ := hr.tail htail
    refine ⟨j, hpoint, ?_⟩
    change (chain (h ++ es)).length ≤ j + 2
    rw [hchain, List.length_append, hlength, List.length_singleton]
    omega

end Close

/-- Along every run `tail` is at most one node behind, and has been wherever an enqueue has read
it. -/
theorem Reach.close [Inhabited α] {c : Config (Shared α) (Local α) (Event α)}
    (h : (program α).Reachable c) : Close ⟨(), c.shared, c.history⟩
      ∧ ∀ t p, (c.locals t).readTail = some p → Visited ⟨(), c.shared, c.history⟩ p := by
  induction h with
  | init => exact ⟨⟨0, ⟨dummyNode, rfl, rfl⟩, Nat.le_succ 1⟩, fun t p hp => by cases hp⟩
  | @step c _ t i hreach _ hnext ih =>
      obtain ⟨g, l, es, hstep, rfl⟩ := Program.next_eq_some hnext
      obtain ⟨hw, hl⟩ := Reach.list hreach
      obtain ⟨hclose, hvisited⟩ := ih
      have hmove := step_move hstep
      have hrely : ∀ u, u ≠ t → Rely u ⟨(), c.shared, c.history⟩ ⟨(), g, c.history ++ es⟩ :=
        (step_preserves hw (hl t) hstep).2.2
      have hr := hrely (t + 1) (Nat.succ_ne_self t)
      refine ⟨move_close hw (hl t) hclose (hvisited t) hr hmove, fun u p hp => ?_⟩
      by_cases hu : u = t
      · subst hu
        rcases move_readTail hmove (by simpa using hp) with hold | rfl
        · exact (hvisited u p hold).mono hr
        · exact hw.tail_visited.mono hr
      · exact (hvisited u p (by simpa [hu] using hp)).mono hr

/-! ### Ranks -/

/-- What the rank of every thread loses when `tail` is moved onto the last node. -/
def lag (g : Shared α) : Nat := if (g.tail.ptr.bind (nextPtr g)).isSome then 8 else 0

/-- What a load of `p.ptr->next` gives. -/
def readNext (g : Shared α) (p : MSPointer) : Option MSPointer := p.ptr.map fun n => (g.heap n).next

/-- The steps a thread has left until its call takes effect or returns, if nobody else's does. What
the thread has read may be out of date, and then it has to go round once more. -/
def rank (g : Shared α) : Local α → Nat
  | .idle => lag g + 10
  | .enqNowInv _ => lag g + 7
  | .enqNew _ _ => lag g + 6
  | .enqStoreInv _ _ => lag g + 5
  | .enqLoadTail _ => lag g + 4
  | .enqLoadNext _ curTail => lag g + if curTail = g.tail then 3 else 8
  | .enqCheckTail _ curTail next =>
      lag g + if curTail = g.tail ∧ readNext g curTail = some next then 2 else 7
  | .enqCasNext _ curTail next => lag g + if readNext g curTail = some next then 1 else 6
  | .enqRetry _ => lag g + 5
  | .enqHelpTail _ curTail _ => lag g + if curTail = g.tail then 1 else 5
  | .enqNowLin _ _ => 3
  | .enqStoreLin _ _ _ => 2
  | .enqSwingTail _ _ => 1
  | .deqNowInv => lag g + 9
  | .deqLoadHead _ => lag g + 8
  | .deqLoadTail _ curHead => lag g + if curHead = g.head then 7 else 12
  | .deqLoadNext _ curHead curTail =>
      lag g + if curHead = g.head ∧ curTail = g.tail then 6 else 11
  | .deqCheckHead _ curHead curTail next =>
      lag g + if curHead = g.head ∧ readNext g curHead = some next
        ∧ (curHead.ptr = curTail.ptr → curTail = g.tail) then 5 else 10
  | .deqHelpTail _ curTail _ => lag g + if curTail = g.tail then 1 else 9
  | .deqReadValue _ curHead _ => lag g + if curHead = g.head then 4 else 12
  | .deqReadInv _ curHead _ _ => lag g + if curHead = g.head then 3 else 11
  | .deqReadLin _ curHead _ _ _ => lag g + if curHead = g.head then 2 else 10
  | .deqCasHead _ curHead _ _ _ _ => lag g + if curHead = g.head then 1 else 9
  | .deqNowLin _ _ _ _ _ _ => 2
  | .deqDelete _ _ => 1

/-- The call of the thread has taken effect. -/
def Local.won : Local α → Bool
  | .enqNowLin _ _ | .enqStoreLin _ _ _ | .enqSwingTail _ _ | .deqNowLin _ _ _ _ _ _
  | .deqDelete _ _ => true
  | _ => false

section Ranks

variable {t : Tid} {i : Input α} {g g' : Shared α} {h es : List (Event α)} {l l' : Local α}

theorem lag_le : lag g ≤ 8 := by
  unfold lag
  split <;> omega

theorem rank_le (g : Shared α) (l : Local α) : rank g l ≤ 20 := by
  have hlag := lag_le (g := g)
  cases l <;> simp only [rank] <;> (try split_ifs) <;> omega

/-- `tail` lags when the list goes on behind it. -/
theorem lag_eq (hw : Glob ⟨(), g, h⟩) {k : Nat} (hk : PointsAt h g.tail k) :
    lag g = if k + 1 < (chain h).length then 8 else 0 := by
  obtain ⟨n, hn, hat⟩ := hk
  have hnext : g.tail.ptr.bind (nextPtr g) = (chain h)[k + 1]? := by
    rw [hn, Option.bind_some]
    exact hw.linked.next_eq hat
  rw [lag, hnext]
  simp

/-- Nothing that a rank speaks of has changed. -/
structure Still (g g' : Shared α) : Prop where
  head : g'.head = g.head
  tail : g'.tail = g.tail
  next : ∀ n, g.status n ≠ .unallocated → (g'.heap n).next = (g.heap n).next

/-- `tail` has been moved onto the last node. -/
structure Swung (g g' : Shared α) : Prop where
  heap : g'.heap = g.heap
  head : g'.head = g.head
  before : lag g = 8
  after : lag g' = 0

theorem Still.of_eq (hheap : g'.heap = g.heap) (hhead : g'.head = g.head)
    (htail : g'.tail = g.tail) : Still g g' :=
  ⟨hhead, htail, fun n _ => by rw [hheap]⟩

theorem Still.setNode {n : Nat} {node : MSNode α} (hnext : node.next = (g.heap n).next) :
    Still g (g.setNode n node) := by
  refine ⟨rfl, rfl, fun m _ => ?_⟩
  by_cases hm : m = n
  · rw [hm, Shared.setNode_self, hnext]
  · rw [Shared.setNode_of_ne _ _ _ hm]

theorem Still.new {n : Nat} {value : α} (hfree : g.status n = .unallocated) :
    Still g ((g.setStatus n .allocated).setNode n { value }) := by
  refine ⟨rfl, rfl, fun m hm => ?_⟩
  have hmn : m ≠ n := fun heq => hm (heq ▸ hfree)
  rw [Shared.setNode_of_ne _ _ _ hmn, Shared.setStatus_heap]

theorem PointsAt.used (hw : Glob ⟨(), g, h⟩) {p : MSPointer} {k n : Nat} (hk : PointsAt h p k)
    (hn : p.ptr = some n) : g.status n ≠ .unallocated := by
  obtain ⟨m, hm, hat⟩ := hk
  obtain rfl : m = n := Option.some.inj (hm.symm.trans hn)
  exact hw.used m (List.mem_of_getElem? hat)

theorem Still.readNext (hs : Still g g') (hw : Glob ⟨(), g, h⟩) {p : MSPointer} {k : Nat}
    (hk : PointsAt h p k) : MSQueue.readNext g' p = MSQueue.readNext g p :=
  Option.map_congr fun n hn => hs.next n (hk.used hw hn)

theorem Still.lag (hs : Still g g') (hw : Glob ⟨(), g, h⟩) : MSQueue.lag g' = MSQueue.lag g := by
  obtain ⟨k, -, hk⟩ := hw.tail
  have hbind : g'.tail.ptr.bind (nextPtr g') = g.tail.ptr.bind (nextPtr g) := by
    rw [hs.tail]
    refine Option.bind_congr fun n hn => ?_
    rw [nextPtr, nextPtr, hs.next n (hk.used hw hn)]
  rw [MSQueue.lag, MSQueue.lag, hbind]

/-- A rank only looks at nodes that are in use. -/
theorem Still.rank (hs : Still g g') (hw : Glob ⟨(), g, h⟩) (hl : Loc ⟨(), g, h⟩ t l) :
    MSQueue.rank g' l = MSQueue.rank g l := by
  have hlag := hs.lag hw
  have hhead := hs.head
  have htail := hs.tail
  cases l with
  | enqCheckTail node curTail next =>
      obtain ⟨-, k, hk, -⟩ := hl
      have hnext := hs.readNext hw hk
      simp only [MSQueue.rank, hlag, htail, hnext]
  | enqCasNext node curTail next =>
      obtain ⟨-, ⟨k, hk⟩, -⟩ := hl
      have hnext := hs.readNext hw hk
      simp only [MSQueue.rank, hlag, hnext]
  | deqCheckHead inv curHead curTail next =>
      obtain ⟨-, k, hk, -⟩ := hl
      have hnext := hs.readNext hw hk
      simp only [MSQueue.rank, hlag, hhead, htail, hnext]
  | _ => simp only [MSQueue.rank, hlag, hhead, htail]

/-- The other threads may have to go round once more, which the move of `tail` makes up for. -/
theorem Swung.rank (hs : Swung g g') (l : Local α) : MSQueue.rank g' l ≤ MSQueue.rank g l := by
  have hbefore := hs.before
  have hafter := hs.after
  have hhead := hs.head
  have hnext : ∀ p, readNext g' p = readNext g p := fun p => by
    unfold readNext
    rw [hs.heap]
  cases l <;> simp only [MSQueue.rank, hbefore, hafter, hhead, hnext] <;>
    (try split_ifs) <;> omega

/-- A swing of `tail` to the node behind it. -/
theorem swung (hw : Glob ⟨(), g, h⟩) (hclose : Close ⟨(), g, h⟩) {k : Nat} {desired : MSPointer}
    (hk : PointsAt h g.tail k) (hk' : PointsAt h desired (k + 1)) :
    Swung g { g with tail := desired } := by
  obtain ⟨j, hj, hlength⟩ := hclose
  obtain rfl : j = k := hw.pointsAt_unique hj hk
  have hlt : j + 1 < (chain h).length := by
    obtain ⟨n, -, hat⟩ := hk'
    exact (List.getElem?_eq_some_iff.mp hat).1
  refine ⟨rfl, rfl, ?_, ?_⟩
  · rw [lag_eq hw hk, if_pos hlt]
  · have hw' : Glob ⟨(), { g with tail := desired }, h⟩ := by
      obtain ⟨i, hi, hi'⟩ := hw.tail
      obtain rfl : i = j := hw.pointsAt_unique hi' hk
      exact
        ⟨hw.linked, hw.head, ⟨i + 1, Nat.le_succ_of_le hi, hk'⟩, hw.unlinked_eq, hw.used, hw.live,
        hw.alloc, hw.owner⟩
    rw [lag_eq hw' hk', if_neg]
    have hle : (chain h).length ≤ j + 2 := hlength
    omega

/-- The compare-and-swap that helps `tail` on. -/
theorem casTail_cases (hw : Glob ⟨(), g, h⟩) (hclose : Close ⟨(), g, h⟩) {fail : Bool}
    (hfail : fail = false) {curTail next : MSPointer} (count : UInt32)
    (hnext : NextOf ⟨(), g, h⟩ curTail next) (hne : next.ptr ≠ none) :
    curTail = g.tail ∧ Swung g (g.casTail fail curTail ⟨next.ptr, count⟩)
      ∨ curTail ≠ g.tail ∧ g.casTail fail curTail ⟨next.ptr, count⟩ = g := by
  by_cases htail : curTail = g.tail
  · obtain ⟨k, hk, hk'⟩ := hnext
    refine .inl ⟨htail, ?_⟩
    rw [Shared.casTail, if_pos ⟨htail.symm, hfail⟩]
    exact swung hw hclose (htail ▸ hk) (hk' hne)
  · refine .inr ⟨htail, ?_⟩
    rw [Shared.casTail, if_neg fun heq => htail heq.1.symm]

/-- What a move that is not a return does: the call of the thread takes effect, or the thread comes
nearer to that and the others lose nothing. -/
def Advances (g : Shared α) (l : Local α) (g' : Shared α) (l' : Local α) : Prop :=
  l.won = false ∧ l'.won = true
    ∨ l'.won = l.won ∧ rank g' l' < rank g l ∧ (Still g g' ∨ Swung g g')

theorem Still.advances (hs : Still g g') (hw : Glob ⟨(), g, h⟩) (hwon : l'.won = l.won)
    (hrank : MSQueue.lag g' = MSQueue.lag g → MSQueue.rank g' l' < MSQueue.rank g l) :
    Advances g l g' l' :=
  .inr ⟨hwon, hrank (hs.lag hw), .inl hs⟩

/-- A dequeue that has seen `tail` behind `head` finds a node behind `head`. -/
theorem Snapshot.readNext_ne (hw : Glob ⟨(), g, h⟩) {curHead curTail next : MSPointer}
    (hs : Snapshot ⟨(), g, h⟩ curHead curTail) (hptr : curHead.ptr ≠ curTail.ptr)
    (hnext : next.ptr = none) : readNext g curHead ≠ some next := by
  intro hread
  obtain ⟨p, q, -, hpq, ⟨n, hn, hp⟩, ⟨m, hm, hq⟩, -⟩ := hs
  have hne : p ≠ q := fun heq => hptr (by rw [hn, hm, ← hp, ← hq, heq])
  have hlast : nextPtr g n = none := by
    rw [readNext, hn] at hread
    exact (congrArg MSPointer.ptr (Option.some.inj hread)).trans hnext
  have hlength : (chain h).length = p + 1 := hw.linked.length_of_next_none hp hlast
  have hlt : q < (chain h).length := (List.getElem?_eq_some_iff.mp hq).1
  omega

/-- A thread that helps `tail` on goes round again, and needs no help then. -/
theorem help_advances (hw : Glob ⟨(), g, h⟩) (hclose : Close ⟨(), g, h⟩) (hfail : i.fail = false)
    {curTail next : MSPointer} {count : UInt32} (hnext : NextOf ⟨(), g, h⟩ curTail next)
    (hne : next.ptr ≠ none) (hwon : l'.won = l.won) {again : Nat} (hagain : again ≤ 8)
    (hrank : rank g l = MSQueue.lag g + if curTail = g.tail then 1 else again + 1)
    (hrank' : ∀ g', rank g' l' = MSQueue.lag g' + again) :
    Advances g l (g.casTail i.fail curTail ⟨next.ptr, count⟩) l' := by
  rcases casTail_cases hw hclose hfail count hnext hne with ⟨htail, hs⟩ | ⟨htail, hg⟩
  · refine .inr ⟨hwon, ?_, .inr hs⟩
    rw [hrank, hrank', hs.before, hs.after, if_pos htail]
    omega
  · rw [hg]
    refine Still.advances (.of_eq rfl rfl rfl) hw hwon fun _ => ?_
    rw [hrank, hrank', if_neg htail]
    omega

theorem move_advances (hw : Glob ⟨(), g, h⟩) (hclose : Close ⟨(), g, h⟩) (hl : Loc ⟨(), g, h⟩ t l)
    (hfail : i.fail = false) (hret : ∀ res, .act (.ret t res) ∉ es)
    (hmove : Move t i g l g' l' es) : Advances g l g' l' := by
  cases hmove with
  | link | unlink => exact .inl ⟨rfl, rfl⟩
  | enqSwingTail | deqEmpty | deqDelete => exact absurd List.mem_cons_self (hret _)
  | enqHelpTail =>
      exact help_advances hw hclose hfail hl.2.1 hl.2.2 rfl (by decide) rfl fun _ => rfl
  | deqHelpTail => exact help_advances hw hclose hfail hl.1 hl.2 rfl (by decide) rfl fun _ => rfl
  | enqNew hfree =>
      refine Still.advances (.new hfree) hw rfl fun hlag => ?_
      simp only [rank, hlag]
      omega
  | enqStoreInv | enqStoreLin =>
      refine Still.advances (.setNode rfl) hw rfl fun hlag => ?_
      simp only [rank, hlag]
      omega
  | @linkFailed node n curTail next hn hcas =>
      refine Still.advances (.of_eq rfl rfl rfl) hw rfl fun _ => ?_
      have hread : readNext g curTail ≠ some next := by
        rw [readNext, hn]
        exact fun heq => hcas hfail (Option.some.inj heq)
      rw [rank, rank, if_neg hread]
      omega
  | deqTorn hhead hptr hnext =>
      refine Still.advances (.of_eq rfl rfl rfl) hw rfl fun _ => ?_
      rw [rank, rank, if_neg fun hgood => hl.1.readNext_ne hw hptr hnext hgood.2.1]
      omega
  | unlinkFailed hcas =>
      refine Still.advances (.of_eq rfl rfl rfl) hw rfl fun _ => ?_
      rw [rank, rank, if_neg (Ne.symm (hcas hfail))]
      omega
  | enqAtEnd htail | enqBehind htail =>
      refine Still.advances (.of_eq rfl rfl rfl) hw rfl fun _ => ?_
      simp only [rank, htail, true_and, if_true]
      split_ifs <;> omega
  | enqPassed htail =>
      refine Still.advances (.of_eq rfl rfl rfl) hw rfl fun _ => ?_
      rw [rank, rank, if_neg fun hgood => htail hgood.1]
      omega
  | @enqLoadNext node n curTail hn =>
      refine Still.advances (.of_eq rfl rfl rfl) hw rfl fun _ => ?_
      have hread : readNext g curTail = some (g.heap n).next := by
        rw [readNext, hn, Option.map_some]
      simp only [rank, hread, and_true]
      split_ifs <;> omega
  | @deqLoadNext inv n curHead curTail hn =>
      refine Still.advances (.of_eq rfl rfl rfl) hw rfl fun _ => ?_
      have hread : readNext g curHead = some (g.heap n).next := by
        rw [readNext, hn, Option.map_some]
      by_cases hgood : curHead = g.head ∧ curTail = g.tail
      · rw [rank, rank, if_pos hgood, if_pos ⟨hgood.1, hread, fun _ => hgood.2⟩]
        omega
      · rw [rank, rank, if_neg hgood]
        split_ifs <;> omega
  | @deqBehind inv curHead curTail next hhead hptr hnext =>
      refine Still.advances (.of_eq rfl rfl rfl) hw rfl fun _ => ?_
      by_cases htail : curTail = g.tail
      · rw [rank, rank, if_pos htail]
        split_ifs <;> omega
      · rw [rank, rank, if_neg htail, if_neg fun hgood => htail (hgood.2.2 hptr)]
        omega
  | deqFront hhead =>
      refine Still.advances (.of_eq rfl rfl rfl) hw rfl fun _ => ?_
      rw [rank, rank, if_pos hhead]
      split_ifs <;> omega
  | deqPassed hhead =>
      refine Still.advances (.of_eq rfl rfl rfl) hw rfl fun _ => ?_
      rw [rank, rank, if_neg fun hgood => hhead hgood.1]
      omega
  | enqLoadTail | deqLoadHead =>
      refine Still.advances (.of_eq rfl rfl rfl) hw rfl fun _ => ?_
      rw [rank, rank, if_pos rfl]
      omega
  | deqLoadTail | deqReadValue | deqReadInv | deqReadLin =>
      refine Still.advances (.of_eq rfl rfl rfl) hw rfl fun _ => ?_
      simp only [rank, and_true]
      split_ifs <;> omega
  | _ =>
      refine Still.advances (.of_eq rfl rfl rfl) hw rfl fun hlag => ?_
      simp only [rank, hlag]
      omega

/-- A dequeue that goes for a node has seen one. -/
def Local.Seen : Local α → Prop
  | .deqReadValue _ _ next | .deqReadInv _ _ next _ | .deqReadLin _ _ next _ _
  | .deqCasHead _ _ next _ _ _ | .deqNowLin _ _ next _ _ _ => next.ptr.isSome
  | _ => True

theorem move_seen (hmove : Move t i g l g' l' es) (hseen : l.Seen) : l'.Seen := by
  cases hmove with
  | deqFront _ _ hnext => exact Option.isSome_iff_ne_none.mpr hnext
  | deqReadValue | deqReadInv | deqReadLin | unlink => exact hseen
  | _ => trivial

/-- A thread in a call is not blocked, as long as there is memory. -/
theorem Loc.enabled (hl : Loc ⟨(), g, h⟩ t l) (hseen : l.Seen) (hbusy : l ≠ .idle) {addr : Nat}
    (hfree : g.status addr = .unallocated) :
    (step t { ts := g.clock, addr := addr } g l).isSome := by
  have hpoint : ∀ {p : MSPointer} {k : Nat}, PointsAt h p k → p.ptr.isSome := by
    rintro p k ⟨n, hn, -⟩
    rw [hn]
    rfl
  cases l with
  | idle => exact absurd rfl hbusy
  | enqNew => simp [step, hfree]
  | enqNowInv | enqNowLin | deqNowInv => simp [step]
  | enqStoreInv | enqLoadTail | enqRetry | enqHelpTail | enqStoreLin | enqSwingTail | deqLoadHead
  | deqLoadTail | deqHelpTail => rfl
  | enqCheckTail | deqCheckHead =>
      simp only [step]
      split_ifs <;> (try split) <;> rfl
  | enqLoadNext node curTail =>
      obtain ⟨-, k, hk⟩ := hl
      simpa [step] using hpoint hk
  | enqCasNext node curTail next =>
      obtain ⟨-, ⟨k, hk⟩, -⟩ := hl
      simpa [step] using hpoint hk
  | deqLoadNext inv curHead curTail =>
      obtain ⟨p, q, -, -, hp, -⟩ := hl
      simpa [step] using hpoint hp
  | deqReadValue | deqReadInv | deqReadLin | deqNowLin => simpa [step, Local.Seen] using hseen
  | deqCasHead inv curHead next value ei el =>
      obtain ⟨⟨p, hp, -⟩, -⟩ := hl
      simpa [step] using hpoint hp
  | deqDelete curHead value =>
      obtain ⟨n, hn⟩ := hl
      simp [step, hn.ptr]

end Ranks

section Results

variable [Inhabited α] {c : Config (Shared α) (Local α) (Event α)}

/-- The addresses in use are bounded. -/
theorem Reach.unallocated (h : (program α).Reachable c) :
    ∃ bound, ∀ n, bound ≤ n → c.shared.status n = .unallocated := by
  induction h with
  | init => exact ⟨1, fun n hn => if_neg (Nat.ne_of_gt hn)⟩
  | @step c _ t i _ _ hnext ih =>
      obtain ⟨g, l, es, hstep, rfl⟩ := Program.next_eq_some hnext
      obtain ⟨bound, hbound⟩ := ih
      have hset : ∀ m s n, max bound (m + 1) ≤ n →
          (c.shared.setStatus m s).status n = .unallocated := by
        intro m s n hn
        rw [Shared.setStatus_of_ne _ _ _ (by omega)]
        exact hbound n (by omega)
      generalize c.locals t = l₀ at hstep
      cases step_nodes hstep with
      | none hheap hstatus => exact ⟨bound, fun n hn => by rw [hstatus, hbound n hn]⟩
      | alloc => exact ⟨_, hset i.addr .allocated⟩
      | write => exact ⟨bound, hbound⟩
      | @delete _ _ m _ => exact ⟨_, hset m .deleted⟩

/-- Lock-freedom, when no weak compare-and-swap fails without a reason. -/
def lockFree (α : Type) [Inhabited α] : LockFree (program α) (program α).Reachable
    (fun _ _ i => i.fail = false) (fun e => ∃ t res, e = .act (.ret t res)) where
  keep h _ hnext := h.step trivial hnext
  rank _ c u := rank c.shared (c.locals u)
  won := Local.won
  raise := 20
  step {c t i g l es} _ h hfail hstep hnone := by
    obtain ⟨hw, hl⟩ := Reach.list h
    have hadvances := move_advances hw (Reach.close h).1 (hl t) hfail
      (fun res he => hnone _ he ⟨t, res, rfl⟩) (step_move hstep)
    rcases hadvances with ⟨hbefore, hafter⟩ | ⟨hwon, hrank, hshared⟩
    · exact .inl ⟨hbefore, hafter, fun u => (rank_le _ _).trans (Nat.le_add_left ..)⟩
    · refine .inr ⟨hwon, by simpa using hrank, fun u hu => ?_⟩
      have hlocal : Function.update c.locals t l u = c.locals u := Function.update_of_ne hu ..
      simp only [hlocal]
      rcases hshared with hstill | hswung
      · exact Nat.le_of_eq (hstill.rank hw (hl u))
      · exact hswung.rank (c.locals u)

/-- A thread in a call can take a step. -/
theorem Reach.enabled (h : (program α).Reachable c) {t : Tid} (hbusy : c.locals t ≠ .idle) :
    ∃ i : Input α, i.fail = false ∧ ((program α).next c t i).isSome := by
  obtain ⟨hw, hl⟩ := Reach.list h
  obtain ⟨bound, hbound⟩ := Reach.unallocated h
  have hidle : (program α).idle.Seen := trivial
  have hseen : (c.locals t).Seen :=
    h.locals hidle (fun hstep hseen => move_seen (step_move hstep) hseen) t
  refine ⟨{ ts := c.shared.clock, addr := bound }, rfl, ?_⟩
  rw [Program.next, Option.isSome_map]
  exact (hl t).enabled hseen hbusy (hbound bound (Nat.le_refl bound))

/-- The steps that a thread takes to the end of its call when it is alone are bounded by this. -/
def aloneRank (g : Shared α) (l : Local α) : Nat := rank g l + if l.won then 0 else 21

/-- Since `c` only thread `t` has taken steps, and it has made no call. -/
structure Goes (t : Tid) (c d : Config (Shared α) (Local α) (Event α)) : Prop where
  others : ∀ u, u ≠ t → d.locals u = c.locals u
  calls : ∀ u, callsOf u (acts d.history) = callsOf u (acts c.history)

theorem Goes.next {t : Tid} {i : Input α} {d e : Config (Shared α) (Local α) (Event α)}
    (h : Goes t c d) (hbusy : d.locals t ≠ .idle) (hnext : (program α).next d t i = some e) :
    Goes t c e := by
  obtain ⟨g, l, es, hstep, rfl⟩ := Program.next_eq_some hnext
  refine ⟨fun u hu => ?_, fun u => ?_⟩
  · rw [← h.others u hu]
    exact Function.update_of_ne hu ..
  · have hnone : callsOf u (acts es) = [] := by
      generalize d.locals t = l₀ at hstep hbusy
      cases step_move hstep with
      | callEnqueue | callDequeue => exact absurd rfl hbusy
      | _ => rfl
    change callsOf u (acts (d.history ++ es)) = _
    rw [acts_append, callsOf_append, hnone, List.append_nil, h.calls]

/-- A step that a thread in a call takes alone brings it nearer to the end of the call. -/
theorem Reach.nearer {t : Tid} {i : Input α} {d : Config (Shared α) (Local α) (Event α)}
    (h : (program α).Reachable c) (hfail : i.fail = false)
    (hnext : (program α).next c t i = some d) (hbusy : d.locals t ≠ .idle) :
    aloneRank d.shared (d.locals t) < aloneRank c.shared (c.locals t) := by
  obtain ⟨hw, hl⟩ := Reach.list h
  obtain ⟨g, l, es, hstep, rfl⟩ := Program.next_eq_some hnext
  have hmove := step_move hstep
  have hlocal : Function.update c.locals t l t = l := Function.update_self ..
  simp only [hlocal] at hbusy ⊢
  have hret : ∀ res, .act (.ret t res) ∉ es := fun res hmem => by
    generalize c.locals t = l₀ at hmove
    cases hmove with
    | enqSwingTail | deqEmpty | deqDelete => exact hbusy rfl
    | _ => simp at hmem
  rcases move_advances hw (Reach.close h).1 (hl t) hfail hret hmove with
    ⟨hbefore, hafter⟩ | ⟨hsame, hrank, -⟩
  · have hle := rank_le g l
    simp only [aloneRank, hbefore, hafter, if_true, Bool.false_eq_true, if_false]
    omega
  · rw [aloneRank, aloneRank, hsame]
    exact Nat.add_lt_add_right hrank _

/-- **Alone a thread comes to the end of its call.** -/
theorem Reach.exists_returned (h : (program α).Reachable c) (t : Tid) :
    ∃ d, (program α).Reachable d ∧ Goes t c d ∧ d.locals t = .idle := by
  refine h.exists_idle aloneRank (fun {e} he hgoes hbusy => ?_) ⟨fun _ _ => rfl, fun _ => rfl⟩
  obtain ⟨i, hfail, hsome⟩ := Reach.enabled he hbusy
  obtain ⟨d, hnext⟩ := Option.isSome_iff_exists.mp hsome
  exact ⟨i, d, trivial, hnext, hgoes.next hbusy hnext, Reach.nearer he hfail hnext⟩

/-- **The threads can come to the ends of whatever calls they are to make.** -/
theorem exists_calls (calls : Tid → List (Op α)) (T : Nat) : ∃ c, (program α).Reachable c
    ∧ (∀ u, c.locals u = .idle)
    ∧ ∀ u, callsOf u (acts c.history) = if u < T then calls u else [] := by
  have hinit : ∀ u, (program α).init.locals u = .idle := fun _ => rfl
  let made (u : Tid) (history : List (Event α)) : List (Op α) := callsOf u (acts history)
  have hnil : ∀ u, made u [] = [] := fun _ => rfl
  refine Program.exists_made hinit hnil (fun {c t op} _ hc hidle => ?_) calls
  obtain ⟨l, hcall⟩ : ∃ l, step t { op := some op } c.shared (.idle : Local α)
      = some (c.shared, l, [.act (.call t op)]) := by
    cases op <;> exact ⟨_, rfl⟩
  obtain ⟨d, hd, hgoes, hreturned⟩ :=
    Reach.exists_returned (hc.snoc (i := { op := some op }) trivial ((hidle t).symm ▸ hcall)) t
  refine ⟨d, hd, fun u => ?_, fun u => ?_⟩
  · by_cases hu : u = t
    · exact hu ▸ hreturned
    · exact (hgoes.others u hu).trans ((Function.update_of_ne hu ..).trans (hidle u))
  · refine (hgoes.calls u).trans ?_
    rw [acts_append, callsOf_append]
    refine congrArg (callsOf u (acts c.history) ++ ·) ?_
    by_cases hu : u = t
    · simp [acts, queueAct, callsOf, hu]
    · simp [acts, queueAct, callsOf, hu, Ne.symm hu]

/-- **Lock-freedom.** In every configuration that is reached each thread in a call can take a step;
and from there on, whichever of `n` threads take the steps, some call returns among any
`n * (20 + (20 * n + 1)) + 1` of them, if no weak compare-and-swap fails without a reason. -/
theorem lock_free (h : (program α).Reachable c) :
    (∀ t, c.locals t ≠ .idle → ∃ i : Input α, i.fail = false ∧ ((program α).next c t i).isSome)
      ∧ ∀ (threads : Finset Tid) (sched : List (Tid × Input α)) c',
        (program α).exec c sched = some c' →
        (∀ x ∈ sched, x.1 ∈ threads ∧ x.2.fail = false) →
        threads.card * (20 + (20 * threads.card + 1)) < sched.length →
        ∃ es, c'.history = c.history ++ es ∧ ∃ e ∈ es, ∃ t res, e = .act (.ret t res) := by
  refine ⟨fun t hbusy => ?_, fun threads sched c' hexec hsched hlong => ?_⟩
  · exact Reach.enabled h hbusy
  · have hruns : (program α).Runs (fun _ _ i => i.fail = false) c sched c' :=
      .of_exec hexec fun x hx _ => (hsched x hx).2
    have hpotential : (lockFree α).potential threads c
        ≤ threads.card * (20 + (20 * threads.card + 1)) :=
      (lockFree α).potential_le fun _ u => rank_le c.shared (c.locals u)
    exact (lockFree α).returns h hruns (fun x hx => (hsched x hx).1)
      (Nat.lt_of_le_of_lt hpotential hlong)

/-- Two threads take turns, one of them enqueuing and the other dequeuing. -/
def turnsSchedule : List (Tid × Input Nat) :=
  (List.range 62).flatMap fun k =>
    [(0, { op := some (.enqueue k), addr := k + 1 }), (1, { op := some .dequeue })]

theorem lock_free_turns : ∃ c', (program Nat).exec (program Nat).init turnsSchedule = some c'
    ∧ ∃ es, c'.history = [] ++ es ∧ ∃ e ∈ es, ∃ t res, e = .act (.ret t res) := by
  have hrun : ((program Nat).exec (program Nat).init turnsSchedule).isSome = true := by
    decide +kernel
  obtain ⟨c', hexec⟩ := Option.isSome_iff_exists.mp hrun
  refine ⟨c', hexec, (lock_free .init).2 {0, 1} turnsSchedule c' hexec ?_ (by decide +kernel)⟩
  decide +kernel

end Results

end QueueFairness.MSQueue
