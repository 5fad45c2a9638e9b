import QueueFairness.Proof.LinkedRingFifo
import QueueFairness.Proof.RingSegment

/-!
# What the list needs to know of a ring segment

Which items an operation puts in or takes out, under which tickets, when a segment is closed and
when a closed one is drained: all this the stages of the operations say, whatever the cells are
 like.
-/

namespace QueueFairness.LinkedRingQueue

open Interleaving

variable {σ κe κd : Type}

def EnqStage.isDeposited : EnqStage → Bool
  | .deposited => true
  | _ => false

/-- The item a dequeue has taken out. -/
def DeqStage.held : DeqStage → Option Nat
  | .took a => some a
  | _ => none

def DeqStage.emptied : DeqStage → Bool
  | .fixes _ => true
  | _ => false

section Steps

variable {t u : Tid} {item k a : Nat} {b b' : SegmentBase} {h es : List SegmentEvent}

theorem EnqStep.events {l : EnqStage} {r : EnqStage ⊕ Bool} (hstep : EnqStep t item b l b' r es) :
    pairs t (bif l.isDeposited then some item else none) ++ es.filterMap depositOf
      = pairs t (bif r.elim EnqStage.isDeposited id then some item else none)
    ∧ es.filterMap takeOf = [] := by
  cases hstep with
  | stay => exact ⟨List.append_nil _, rfl⟩
  | _ => exact ⟨rfl, rfl⟩

theorem EnqStep.deposit_eq {l : EnqStage} {r : EnqStage ⊕ Bool}
    (hstep : EnqStep t item b l b' r es) (hd : .deposit u a k ∈ es) :
    a = item ∧ l.ticket = some k := by
  cases hstep with
  | deposit j =>
      obtain ⟨-, rfl, rfl⟩ : u = t ∧ a = item ∧ k = j := by simpa using hd
      exact ⟨rfl, rfl⟩
  | _ => simp at hd

/-- The ticket of an enqueue is one it had or has drawn. -/
theorem EnqStep.ticket {l : EnqStage} {r : EnqStage ⊕ Bool} (hstep : EnqStep t item b l b' r es)
    (hk : r.elim EnqStage.ticket (fun _ => none) = some k) :
    l.ticket = some k ∨ .drawTail t k ∈ es := by
  cases hstep with
  | draw =>
      obtain rfl := Option.some.inj hk
      exact .inr (List.mem_singleton_self _)
  | stay => exact .inl hk
  | _ => cases hk

theorem EnqStep.drawTail_eq {l : EnqStage} {r : EnqStage ⊕ Bool}
    (hstep : EnqStep t item b l b' r es) (hk : .drawTail u k ∈ es) :
    es = [.drawTail u k] ∧ k = b.tail.index := by
  cases hstep with
  | draw =>
      obtain ⟨rfl, rfl⟩ : u = t ∧ k = b.tail.index := by simpa using hk
      exact ⟨rfl, rfl⟩
  | _ => simp at hk

theorem EnqStep.refused {l : EnqStage} (hstep : EnqStep t item b l b' (.inr false) es) :
    b'.tail.flag = true := by
  cases hstep with
  | refuse hclosed => exact hclosed
  | close k force hlast => exact SegmentBase.closeSegment_closed hlast

/-- The counters only grow, and a closed tail stays closed. -/
theorem EnqStep.base {l : EnqStage} {r : EnqStage ⊕ Bool} (hstep : EnqStep t item b l b' r es) :
    b.head ≤ b'.head ∧ b.tail.index ≤ b'.tail.index
      ∧ (b.tail.flag = true → b'.tail.flag = true ∧ ∀ u k, .drawTail u k ∉ es) := by
  cases hstep with
  | draw hopen =>
      exact ⟨Nat.le_refl _, Nat.le_succ _, fun hc => absurd (hopen.symm.trans hc) (by simp)⟩
  | refuse hclosed => exact ⟨Nat.le_refl _, Nat.le_succ _, fun hc => ⟨hc, by simp⟩⟩
  | stay | giveUp | deposit | stamp =>
      exact ⟨Nat.le_refl _, Nat.le_refl _, fun hc => ⟨hc, by simp⟩⟩
  | close k force | tryClose k force =>
      obtain ⟨hhead, htail⟩ := b.closeSegment_tail k force
      exact ⟨Nat.le_of_eq hhead.symm, Nat.le_of_eq htail.symm, fun hc =>
        ⟨b.closeSegment_keeps k force hc, by simp⟩⟩

theorem DeqStep.events {l : DeqStage} {r : DeqStage ⊕ Option Nat} (hstep : DeqStep t b l b' r es) :
    pairs t l.held ++ es.filterMap takeOf = pairs t (r.elim DeqStage.held id)
    ∧ es.filterMap depositOf = [] := by
  cases hstep with
  | stay => exact ⟨List.append_nil _, rfl⟩
  | _ => exact ⟨rfl, rfl⟩

theorem DeqStep.take_eq {l : DeqStage} {r : DeqStage ⊕ Option Nat}
    (hstep : DeqStep t b l b' r es) (hd : .take u a k ∈ es) : l.ticket = some k := by
  rw [hstep.left ⟨u, .inr ⟨a, hd⟩⟩]
  rfl

/-- The ticket of a dequeue is one it had or has drawn. -/
theorem DeqStep.ticket_of {l : DeqStage} {r : DeqStage ⊕ Option Nat}
    (hstep : DeqStep t b l b' r es) (hk : r.elim DeqStage.ticket (fun _ => none) = some k) :
    l.ticket = some k ∨ .drawHead t k ∈ es := by
  cases hstep with
  | draw =>
      obtain rfl := Option.some.inj hk
      exact .inr (List.mem_singleton_self _)
  | stay => exact .inl hk
  | _ => cases hk

theorem DeqStep.drawHead_eq {l : DeqStage} {r : DeqStage ⊕ Option Nat}
    (hstep : DeqStep t b l b' r es) (hk : .drawHead u k ∈ es) :
    es = [.drawHead u k] ∧ k = b.head := by
  cases hstep with
  | draw =>
      obtain ⟨rfl, rfl⟩ : u = t ∧ k = b.head := by simpa using hk
      exact ⟨rfl, rfl⟩
  | _ => simp at hk

theorem DeqStep.not_drawTail {l : DeqStage} {r : DeqStage ⊕ Option Nat}
    (hstep : DeqStep t b l b' r es) : .drawTail u k ∉ es := by
  cases hstep <;> simp

theorem DeqStep.base {l : DeqStage} {r : DeqStage ⊕ Option Nat} (hstep : DeqStep t b l b' r es)
    (hl : l.Stands h t) : b.head ≤ b'.head ∧ b.tail.index ≤ b'.tail.index
      ∧ (b.tail.flag = true → b'.tail.flag = true ∧ ∀ u k, .drawTail u k ∉ es) := by
  have hnot : ∀ u k, .drawTail u k ∉ es := fun _ _ => hstep.not_drawTail
  cases hstep with
  | draw => exact ⟨Nat.le_succ _, Nat.le_refl _, fun hc => ⟨hc, hnot⟩⟩
  | fix l | fixed l =>
      obtain ⟨hhead, htail, -⟩ := b.fixStep_spec hl
      exact ⟨Nat.le_of_eq hhead.symm, htail, fun hc => ⟨SegmentBase.fixStep_keeps hl hc, hnot⟩⟩
  | _ => exact ⟨Nat.le_refl _, Nat.le_refl _, fun hc => ⟨hc, hnot⟩⟩

/-- A dequeue that finds the tail no further than its ticket, finds all tickets of items drawn. -/
theorem DeqStep.emptied_now {l : DeqStage} {r : DeqStage ⊕ Option Nat}
    (hstep : DeqStep t b l b' r es) (hw : Tickets b h) (hl : l.Stands h t)
    (hres : r.elim DeqStage.emptied (fun r => r.isNone) = true) :
    l.emptied = true ∨ ∀ u k, .drawTail u k ∈ h → k < b.head := by
  cases hstep with
  | stay => exact .inl hres
  | fix | fixed => exact .inl rfl
  | empty k htail =>
      refine .inr fun u j hj => ?_
      have hlt : j < b.tail.index := hw.tail hj
      have hhead : k < b.head := hw.drawn hl
      exact Nat.lt_of_lt_of_le hlt (Nat.le_trans htail hhead)
  | _ => cases hres

end Steps

namespace RingType

variable {S : SegmentType σ κe κd} (R : RingType S) {start : Nat}
  {ok : Config σ (SegmentLocal κe κd) SegmentEvent → Tid → SegmentInput → Prop}
  {c : Config σ (SegmentLocal κe κd) SegmentEvent} {t u : Tid} {i : SegmentInput} {s : σ}
  {now item k a : Nat} {es : List SegmentEvent}

include R

def deposited (l : κe) : Bool := (R.enqStage l).isDeposited

def held (l : κd) : Option Nat := (R.deqStage l).held

def emptied (l : κd) : Bool := (R.deqStage l).emptied

/-- The tail ticket an enqueue may put its item under. -/
def enqTicket (l : κe) : Option Nat := (R.enqStage l).ticket

/-- The head ticket a dequeue has and is not done with. -/
def deqTicket (l : κd) : Option Nat := (R.deqStage l).ticket

/-! ### Steps -/

theorem enqueue_events (t : Tid) (now item : Nat) (s : σ) (l : κe) :
    pairs t (bif R.deposited l then some item else none)
        ++ (S.enqueueStep t now item s l).2.2.filterMap depositOf
      = pairs t (bif (S.enqueueStep t now item s l).2.1.elim R.deposited id
          then some item else none)
    ∧ (S.enqueueStep t now item s l).2.2.filterMap takeOf = [] := by
  have hevents := (R.enqueueStep t now item s l).events
  rw [Sum.elim_map] at hevents
  exact hevents

theorem dequeue_events (t : Tid) (now : Nat) (s : σ) (l : κd) :
    pairs t (R.held l) ++ (S.dequeueStep t now s l).2.2.filterMap takeOf
      = pairs t ((S.dequeueStep t now s l).2.1.elim R.held id)
    ∧ (S.dequeueStep t now s l).2.2.filterMap depositOf = [] := by
  have hevents := (R.dequeueStep t now s l).events
  rw [Sum.elim_map] at hevents
  exact hevents

theorem refused {l : κe} (hres : (S.enqueueStep t now item s l).2.1 = .inr false) :
    Closed S (S.enqueueStep t now item s l).1 := by
  have hstep := R.enqueueStep t now item s l
  rw [hres] at hstep
  exact hstep.refused

theorem enqueue_ticket {l l' : κe} (hres : (S.enqueueStep t now item s l).2.1 = .inl l')
    (hk : R.enqTicket l' = some k) :
    R.enqTicket l = some k ∨ .drawTail t k ∈ (S.enqueueStep t now item s l).2.2 := by
  have hstep := R.enqueueStep t now item s l
  rw [hres] at hstep
  exact hstep.ticket hk

theorem enqueue_deposit {l : κe}
    (hd : .deposit u a k ∈ (S.enqueueStep t now item s l).2.2) :
    a = item ∧ R.enqTicket l = some k :=
  (R.enqueueStep t now item s l).deposit_eq hd

theorem dequeue_ticket {l l' : κd} (hres : (S.dequeueStep t now s l).2.1 = .inl l')
    (hk : R.deqTicket l' = some k) :
    R.deqTicket l = some k ∨ .drawHead t k ∈ (S.dequeueStep t now s l).2.2 := by
  have hstep := R.dequeueStep t now s l
  rw [hres] at hstep
  exact hstep.ticket_of hk

theorem step_drawHead {l l' : SegmentLocal κe κd} {s' : σ}
    (hstep : segmentStep S t i s l = some (s', l', es)) (hk : .drawHead u k ∈ es) :
    es = [.drawHead u k] ∧ k = (S.base s).head := by
  cases l with
  | idle =>
      obtain ⟨op, -, hop⟩ := Option.map_eq_some_iff.mp hstep
      cases op <;> cases hop <;> cases hk
  | enqueue item le =>
      cases hstep
      exact absurd hk (R.enqueueStep t i.ts item s le).not_drawHead
  | dequeue ld =>
      cases hstep
      exact (R.dequeueStep t i.ts s ld).drawHead_eq hk

theorem step_drawTail {l l' : SegmentLocal κe κd} {s' : σ}
    (hstep : segmentStep S t i s l = some (s', l', es)) (hk : .drawTail u k ∈ es) :
    es = [.drawTail u k] ∧ k = (S.base s).tail.index := by
  cases l with
  | idle =>
      obtain ⟨op, -, hop⟩ := Option.map_eq_some_iff.mp hstep
      cases op <;> cases hop <;> cases hk
  | enqueue item le =>
      cases hstep
      exact (R.enqueueStep t i.ts item s le).drawTail_eq hk
  | dequeue ld =>
      cases hstep
      exact absurd hk (R.dequeueStep t i.ts s ld).not_drawTail

/-! ### Runs -/

/-- Nothing has to be known of the cells. -/
def anyCells : CellInvariant R (fun _ _ => True) Unit where
  glob _ := True
  enq _ _ _ := True
  deq _ _ _ := True
  rely _ _ _ := True
  init _ := ⟨(), trivial⟩
  enq_start _ _ := trivial
  deq_start _ _ := trivial
  rely_self _ _ := trivial
  enq_stable _ _ := trivial
  deq_stable _ _ _ := trivial
  enq_step {x s h t l} now item _ _ _ _ := by
    refine ⟨x, trivial, ?_, fun _ _ => trivial⟩
    cases (S.enqueueStep t now item s l).2.1 <;> trivial
  deq_step {x s h t l} now _ _ _ _ _ := by
    refine ⟨x, trivial, ?_, fun _ _ => trivial⟩
    cases (S.dequeueStep t now s l).2.1 <;> trivial

/-- **The tickets of a ring segment are in order**, in every run. -/
theorem tickets (h : (segmentProgram S start).Reach ok c) :
    Tickets (S.base c.shared) c.history ∧ ∀ t, R.Thread c.history t (c.locals t) := by
  obtain ⟨_, ⟨htickets, -⟩, hl⟩ := (R.anyCells.segmentInvariant start).holds
    (h.mono fun _ _ _ _ _ _ => trivial)
  exact ⟨htickets, fun t => (hl t).1⟩

/-- The counters only grow, and a closed segment stays closed. -/
theorem step_base (h : (segmentProgram S start).Reach ok c) {l : SegmentLocal κe κd}
    (hstep : segmentStep S t i c.shared (c.locals t) = some (s, l, es)) :
    (S.base c.shared).head ≤ (S.base s).head
      ∧ (S.base c.shared).tail.index ≤ (S.base s).tail.index
      ∧ (Closed S c.shared → Closed S s ∧ ∀ u k, .drawTail u k ∉ es) := by
  have hstands := ((R.tickets h).2 t).stands
  rcases hlocal : c.locals t with _ | ⟨item, le⟩ | ld
  all_goals rw [hlocal] at hstep hstands
  · obtain ⟨op, -, hop⟩ := Option.map_eq_some_iff.mp hstep
    cases op <;> cases hop <;> exact ⟨Nat.le_refl _, Nat.le_refl _, fun hc => ⟨hc, by simp⟩⟩
  · cases hstep
    exact (R.enqueueStep t i.ts item c.shared le).base
  · cases hstep
    exact (R.dequeueStep t i.ts c.shared ld).base hstands

theorem closed_step (h : (segmentProgram S start).Reach ok c) {l : SegmentLocal κe κd}
    (hstep : segmentStep S t i c.shared (c.locals t) = some (s, l, es)) :
    (S.base c.shared).head ≤ (S.base s).head
      ∧ (Closed S c.shared → Closed S s ∧ ∀ u k, .drawTail u k ∉ es) := by
  obtain ⟨hhead, -, hclosed⟩ := R.step_base h hstep
  exact ⟨hhead, hclosed⟩

theorem emptied_now (h : (segmentProgram S start).Reach ok c) {l : κd}
    (hlocal : c.locals t = .dequeue l)
    (hres : (S.dequeueStep t now c.shared l).2.1.elim R.emptied (fun r => r.isNone) = true) :
    R.emptied l = true ∨ ∀ u k, .drawTail u k ∈ c.history → k < (S.base c.shared).head := by
  obtain ⟨hw, hl⟩ := R.tickets h
  have hstands := (hl t).stands
  rw [hlocal] at hstands
  refine (R.dequeueStep t now c.shared l).emptied_now hw hstands ?_
  rw [Sum.elim_map]
  exact hres

/-- With nobody about, the dequeues of a drained segment are done. -/
theorem left_of_drained (h : (segmentProgram S start).Reach ok c) (hidle : ∀ t, c.locals t = .idle)
    (hdrained : Drained S c.shared c.history) (hk : .drawTail t k ∈ c.history) :
    Left c.history k := by
  obtain ⟨hw, hl⟩ := R.tickets h
  obtain ⟨first, -, hfrom, hto⟩ := hw.first
  obtain ⟨u, hu⟩ := hto k (hfrom t k hk) (hdrained.2 t k hk)
  refine ((hl u).busy k hu).resolve_right fun hbusy => ?_
  rw [hidle u] at hbusy
  cases hbusy

theorem draws (h : (segmentProgram S start).Reach ok c) (hd : .drawTail t k ∈ c.history)
    (hlt : k < (S.base c.shared).head) : ∃ u, .drawHead u k ∈ c.history := by
  obtain ⟨first, -, hfrom, hto⟩ := (R.tickets h).1.first
  exact hto k (hfrom t k hd) hlt

end RingType

end QueueFairness.LinkedRingQueue
