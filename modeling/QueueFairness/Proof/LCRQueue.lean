import QueueFairness.Proof.CRQueueStep
import QueueFairness.Proof.RingSpec

/-!
# The ring queue with double-word cells is a first-in first-out queue

The segment with double-word cells is what the list needs: nothing is taken but what was put under
the same ticket, tickets are drawn in order, and a dequeue gives up on its segment only when the
tail is no further than its ticket.
-/

namespace QueueFairness

namespace CRQueue

open Interleaving LinkedRingQueue
open PRQueue (exists_ticket le_of_residue)

variable {L : Layout} {start : Nat} {c : Config Segment (SegmentLocal Enq Deq) SegmentEvent}
  {t u : Tid} {s : Segment} {now item a k : Nat}

/-- What an enqueue finds in a segment nobody else knows. -/
def Alone (L : Layout) (s : Segment) : Enq → Prop
  | .fetchAdd _ => s.base.tail.flag = false
      ∧ s.cell L s.base.tail.index = ⟨none, ⟨false, s.base.tail.index⟩⟩
  | .loadIdx _ k => s.cell L k = ⟨none, ⟨false, k⟩⟩
  | .loadVal _ k idx | .cas2 _ k idx => s.cell L k = ⟨none, idx⟩ ∧ idx = ⟨false, k⟩
  | .nowLin | .stampLin _ => True
  | _ => False

theorem alone_start (L : Layout) (start : Nat) : Alone L (new L start) (.fetchAdd 0) := by
  obtain ⟨i, hle, hlt, hres, hcell⟩ := cell_new L start start
  obtain rfl : i = start := Nat.le_antisymm (le_of_residue hres hlt) hle
  exact ⟨rfl, hcell⟩

theorem alone_step {l : Enq} (hl : Alone L s l) :
    (enqueueStep L t now item s l).2.1.elim (Alone L (enqueueStep L t now item s l).1)
      (· = true) := by
  cases l with
  | fetchAdd n =>
      simp only [enqueueStep, hl.1]
      exact hl.2
  | loadIdx n k =>
      have hl : s.cell L k = ⟨none, ⟨false, k⟩⟩ := hl
      simp [enqueueStep, Alone, hl]
  | loadVal n k idx =>
      obtain ⟨hcell, rfl⟩ := hl
      simp [enqueueStep, Alone, hcell]
  | cas2 n k idx =>
      obtain ⟨hcell, rfl⟩ := hl
      simp [enqueueStep, Segment.cas2, Alone, hcell]
  | nowLin => trivial
  | stampLin ts => rfl
  | _ => exact absurd hl id

/-- With nobody about, what is left in a cell waits for a dequeue still to come. -/
theorem stored_drained (h : (segmentProgram (type L) start).Reachable c)
    (hidle : ∀ t, c.locals t = .idle) (hdrained : Drained (type L) c.shared c.history) :
    stored L c.shared = [] := by
  obtain ⟨htickets, hw, -⟩ := Reachable.holds h
  refine List.filterMap_eq_nil_iff.mpr fun p hp => ?_
  obtain ⟨k, rfl⟩ := exists_ticket (List.mem_range.mp hp)
  by_contra hval
  obtain ⟨a, hval⟩ := Option.ne_none_iff_exists'.mp hval
  obtain ⟨⟨t, hput⟩, hleft⟩ := hw.cells.item (k := k) hval
  exact hleft ((ring L).left_of_drained h hidle hdrained (htickets.deposited hput))

/-- What the list needs to know of `CRQueue`. -/
def spec (L : Layout) : SegmentSpec (type L) fun _ _ => True where
  stored := stored L
  deposited := (ring L).deposited
  held := (ring L).held
  emptied := (ring L).emptied
  alone _ := Alone L
  ok_idle _ := trivial
  enqueue_start := rfl
  dequeue_start := ⟨rfl, rfl⟩
  enqueue_events := (ring L).enqueue_events
  dequeue_events := (ring L).dequeue_events
  account h := (Reachable.holds h).2.1.account
  stored_drained h := stored_drained h
  closed_step h _ hstep := (ring L).closed_step h hstep
  refused := (ring L).refused
  emptied_step h _ hlocal hclosed hres :=
    ((ring L).emptied_now h hlocal hres).imp_right (⟨hclosed, ·⟩)
  alone_start _ := alone_start L
  alone_step _ _ := alone_step

/-- What was put in a cell and not taken waits there for the dequeue of its ticket. -/
theorem waits (h : (segmentProgram (type L) start).Reachable c) (hd : .deposit t a k ∈ c.history) :
    (∃ u, .take u a k ∈ c.history)
      ∨ ((c.shared.cell L k).val = some a ∧ (c.shared.cell L k).idx.index = k)
        ∧ ∀ u, .drawHead u k ∈ c.history →
          ∃ l, c.locals u = .dequeue l ∧ (ring L).deqTicket l = some k := by
  obtain ⟨-, hw, hl⟩ := Reachable.holds h
  refine (hw.kept hd).imp_right fun ⟨hval, hidx⟩ => ⟨⟨hval, hidx⟩, fun u hu => ?_⟩
  obtain ⟨-, hleft⟩ := hw.cells.item hval
  rcases (hl u).busy k hu with hdone | hbusy
  · exact absurd hdone (hidx ▸ hleft)
  · cases hlocal : c.locals u with
    | dequeue l =>
        rw [hlocal] at hbusy
        exact ⟨l, rfl, hbusy⟩
    | idle | enqueue =>
        rw [hlocal] at hbusy
        cases hbusy

/-- How `CRQueue` keeps the order of its tickets. -/
def ticketSpec (L : Layout) : TicketSpec (spec L) where
  tailTicket := (ring L).enqTicket
  headTicket := (ring L).deqTicket
  holds s k a := (s.cell L k).val = some a ∧ (s.cell L k).idx.index = k
  enqueue_start := rfl
  dequeue_start := rfl
  enqueue_ticket := (ring L).enqueue_ticket
  enqueue_deposit := (ring L).enqueue_deposit
  enqueue_drawHead := ((ring L).enqueueStep ..).not_drawHead
  dequeue_ticket := (ring L).dequeue_ticket
  dequeue_drawHead hk := (((ring L).dequeueStep ..).drawHead hk).1
  dequeue_take hd := ((ring L).dequeueStep ..).take_eq hd
  tail_grows h _ hstep hk hj := by
    obtain ⟨-, rfl⟩ := (ring L).step_drawTail hstep hk
    exact ((ring L).tickets h).1.tail hj
  deposited h hd := ((ring L).tickets h).1.deposited hd
  taken h hd := (Reachable.holds h).2.1.taken hd
  drawn h hd := ((ring L).tickets h).1.drawn hd
  draws h hd hlt := (ring L).draws h hd hlt
  emptied_now h _ hlocal hres := (ring L).emptied_now h hlocal hres
  kept h hd := waits h hd

end CRQueue

namespace LCRQueue

open Interleaving LinkedRingQueue CRQueue

/-- Item `a` is in the cell of ticket `k`. -/
def holds (L : Layout) (s : Segment) (k a : Nat) : Prop :=
  (s.cell L k).val = some a ∧ (s.cell L k).idx.index = k

/-- **LCRQ is a first-in first-out queue**, as long as neither an address nor an item is used
again. -/
theorem lcrq_fifo {L : Layout} {maxThreads : Nat}
    {c : Config (Shared Segment) (Local Enq Deq) Event}
    (h : (program L maxThreads).Reach (fun c t i => FreshAddress c t i ∧ FreshItem c t i) c) :
    Fifo (holds L) c :=
  Reach.ring_fifo (ticketSpec L) (h.mono fun _ _ _ hc => ⟨⟨hc.1, fun _ => trivial⟩, hc.2⟩)

/-- Thread 0 enqueues 7 and, in a new segment, 8; thread 1 dequeues both. -/
def twoSegmentsSchedule : List (Tid × Input) :=
  List.replicate 12 (0, { op := some (.enqueue 7) })
    ++ List.replicate 21 (0, { op := some (.enqueue 8), addr := 1 })
    ++ List.replicate 48 (1, { op := some .dequeue })

theorem lcrq_fifo_twoSegments :
    ∃ c : Config (Shared Segment) (Local Enq Deq) Event,
      (returnedItems c.history, c.shared.head) = ([7, 8], 1)
        ∧ Fifo (holds (.identity 1 (by decide))) c := by
  have hrun : ((program (.identity 1 (by decide)) 2).execIf 2 freshCheck
      (program (.identity 1 (by decide)) 2).init twoSegmentsSchedule).map
      (fun c => (returnedItems c.history, c.shared.head)) = some ([7, 8], 1) := by
    decide +kernel
  obtain ⟨c, hexec, heq⟩ := Option.map_eq_some_iff.mp hrun
  exact ⟨c, heq, lcrq_fifo (.execIf (fun _ _ _ _ hcheck => fresh_of_check hcheck) .init
    (fun _ _ => rfl) hexec)⟩

end LCRQueue

end QueueFairness
