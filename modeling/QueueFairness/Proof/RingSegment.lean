import QueueFairness.Proof.SegmentBase

/-!
# The tickets of a ring segment

The ring segments draw their tickets, close and repair themselves alike, and differ in what an
operation does to the cell of its ticket. What a step can do to the counters and the tickets is said
once, by the stage its operation is at, and so is what follows for the tickets in every run. An
invariant of the cells is proved over that.
-/

namespace QueueFairness.LinkedRingQueue

open Interleaving

variable {σ κe κd : Type}

/-! ### Stages -/

/-- How far an enqueue is: without a ticket, with one, or with its item in the cell. -/
inductive EnqStage where
  | draws
  | holds (ticket : Nat)
  | deposited

/-- How far a dequeue is: without a ticket, with one, with an item, with a ticket it has given up,
or repairing a segment it has found empty. -/
inductive DeqStage where
  | draws
  | holds (ticket : Nat)
  | took (a : Nat)
  | left (ticket : Nat)
  | fixes (l : SegmentBase.Fix)

/-- What a step of an enqueue does to the counters, and what it tells. -/
inductive EnqStep (t : Tid) (item : Nat) (b : SegmentBase) :
    EnqStage → SegmentBase → EnqStage ⊕ Bool → List SegmentEvent → Prop
  | draw (hopen : b.tail.flag = false) :
      EnqStep t item b .draws b.drawTail (.inl (.holds b.tail.index)) [.drawTail t b.tail.index]
  | refuse (hclosed : b.tail.flag = true) : EnqStep t item b .draws b.drawTail (.inr false) []
  | stay (l : EnqStage) : EnqStep t item b l b (.inl l) []
  | giveUp (k : Nat) : EnqStep t item b (.holds k) b (.inl .draws) []
  | deposit (k : Nat) :
      EnqStep t item b (.holds k) b (.inl .deposited) [.deposit t item k]
  | stamp (ts : Nat) : EnqStep t item b .deposited b (.inr true) [.stampEnq t item ts]
  | close (k : Nat) (force : Bool) (hlast : (b.closeSegment k force).2 = true) :
      EnqStep t item b .draws (b.closeSegment k force).1 (.inr false) []
  | tryClose (k : Nat) (force : Bool) :
      EnqStep t item b .draws (b.closeSegment k force).1 (.inl .draws) []

/-- What a step of a dequeue does to the counters, and what it tells. -/
inductive DeqStep (t : Tid) (b : SegmentBase) :
    DeqStage → SegmentBase → DeqStage ⊕ Option Nat → List SegmentEvent → Prop
  | draw : DeqStep t b .draws b.drawHead (.inl (.holds b.head)) [.drawHead t b.head]
  | stay (l : DeqStage) : DeqStep t b l b (.inl l) []
  | take (k a : Nat) : DeqStep t b (.holds k) b (.inl (.took a)) [.take t a k]
  | stamp (a ts : Nat) : DeqStep t b (.took a) b (.inr (some a)) [.stampDeq t a ts]
  | leave (k : Nat) : DeqStep t b (.holds k) b (.inl (.left k)) [.leave t k]
  | retry (k : Nat) : DeqStep t b (.left k) b (.inl .draws) []
  | empty (k : Nat) (htail : b.tail.index ≤ k + 1) :
      DeqStep t b (.left k) b (.inl (.fixes .loadTail)) []
  | fix (l l' : SegmentBase.Fix) (hnext : (b.fixStep l).2 = some l') :
      DeqStep t b (.fixes l) (b.fixStep l).1 (.inl (.fixes l')) []
  | fixed (l : SegmentBase.Fix) : DeqStep t b (.fixes l) (b.fixStep l).1 (.inr none) []

/-- A segment type whose operations go through these stages. -/
structure RingType (S : SegmentType σ κe κd) where
  enqStage : κe → EnqStage
  deqStage : κd → DeqStage
  enqueue : enqStage S.enqueue = .draws
  dequeue : deqStage S.dequeue = .draws
  new : ∀ start, (S.base (S.new start)).tail.index = start
    ∧ (S.base (S.new start)).head = start
  enqueueStep : ∀ t now item s l, EnqStep t item (S.base s) (enqStage l)
    (S.base (S.enqueueStep t now item s l).1)
    ((S.enqueueStep t now item s l).2.1.map enqStage id) (S.enqueueStep t now item s l).2.2
  dequeueStep : ∀ t now s l, DeqStep t (S.base s) (deqStage l)
    (S.base (S.dequeueStep t now s l).1)
    ((S.dequeueStep t now s l).2.1.map deqStage id) (S.dequeueStep t now s l).2.2

def EnqStage.ticket : EnqStage → Option Nat
  | .holds k => some k
  | _ => none

def DeqStage.ticket : DeqStage → Option Nat
  | .holds k => some k
  | _ => none

/-! ### Tickets -/

/-- The dequeue with this ticket is done with the cell. -/
def Left (h : List SegmentEvent) (k : Nat) : Prop :=
  ∃ t, .leave t k ∈ h ∨ ∃ a, .take t a k ∈ h

/-- Thread `t` has this head ticket and is not done with the cell. -/
def Owns (h : List SegmentEvent) (t : Tid) (k : Nat) : Prop :=
  .drawHead t k ∈ h ∧ ¬ Left h k

/-- Events that say nothing about a cell. -/
def Quiet : SegmentEvent → Prop
  | .drawTail _ _ | .drawHead _ _ | .stampEnq _ _ _ | .stampDeq _ _ _ => True
  | _ => False

structure Tickets (b : SegmentBase) (h : List SegmentEvent) : Prop where
  drawn : ∀ {t k}, .drawHead t k ∈ h → k < b.head
  drawer : ∀ {t u k}, .drawHead t k ∈ h → .drawHead u k ∈ h → t = u
  owner : ∀ {k}, Left h k → ∃ t, .drawHead t k ∈ h
  tail : ∀ {t k}, .drawTail t k ∈ h → k < b.tail.index
  deposited : ∀ {t a k}, .deposit t a k ∈ h → .drawTail t k ∈ h
  first : ∃ start, start ≤ b.tail.index ∧ (∀ t k, .drawTail t k ∈ h → start ≤ k)
    ∧ ∀ k, start ≤ k → k < b.head → ∃ t, .drawHead t k ∈ h

/-- What thread `t` relies on: nobody draws a ticket in its name or is done with one of its own. -/
structure TicketRely (t : Tid) (h h' : List SegmentEvent) : Prop where
  history : ∀ {e}, e ∈ h → e ∈ h'
  drawHead : ∀ {k}, .drawHead t k ∈ h' → .drawHead t k ∈ h
  owns : ∀ {k}, Owns h t k → Owns h' t k

def EnqStage.Stands (h : List SegmentEvent) (t : Tid) : EnqStage → Prop
  | .holds k => .drawTail t k ∈ h
  | _ => True

def DeqStage.Stands (h : List SegmentEvent) (t : Tid) : DeqStage → Prop
  | .holds k => Owns h t k
  | .left k => .drawHead t k ∈ h
  | .fixes l => l.Raises
  | _ => True

section Tickets

variable {t u : Tid} {b b' : SegmentBase} {h h' es : List SegmentEvent} {k item : Nat}

theorem left_append : Left (h ++ es) k ↔ Left h k ∨ Left es k := by
  simp only [Left, List.mem_append]
  constructor
  · rintro ⟨t, (hl | hl) | ⟨a, ha | ha⟩⟩
    · exact .inl ⟨t, .inl hl⟩
    · exact .inr ⟨t, .inl hl⟩
    · exact .inl ⟨t, .inr ⟨a, ha⟩⟩
    · exact .inr ⟨t, .inr ⟨a, ha⟩⟩
  · rintro (⟨t, hl | ⟨a, ha⟩⟩ | ⟨t, hl | ⟨a, ha⟩⟩)
    · exact ⟨t, .inl (.inl hl)⟩
    · exact ⟨t, .inr ⟨a, .inl ha⟩⟩
    · exact ⟨t, .inl (.inr hl)⟩
    · exact ⟨t, .inr ⟨a, .inr ha⟩⟩

theorem Left.mono (hle : ∀ {e}, e ∈ h → e ∈ h') (hl : Left h k) : Left h' k := by
  obtain ⟨u, hu | ⟨a, ha⟩⟩ := hl
  · exact ⟨u, .inl (hle hu)⟩
  · exact ⟨u, .inr ⟨a, hle ha⟩⟩

@[simp] theorem left_nil : ¬ Left [] k := by simp [Left]
@[simp] theorem left_leave {j : Nat} : Left [.leave t j] k ↔ k = j := by simp [Left]
@[simp] theorem left_take {a j : Nat} : Left [.take t a j] k ↔ k = j := by simp [Left]
@[simp] theorem left_deposit {a j : Nat} : ¬ Left [.deposit t a j] k := by simp [Left]
@[simp] theorem left_drawTail {j : Nat} : ¬ Left [.drawTail t j] k := by simp [Left]
@[simp] theorem left_drawHead {j : Nat} : ¬ Left [.drawHead t j] k := by simp [Left]
@[simp] theorem left_stampEnq {a ts : Nat} : ¬ Left [.stampEnq t a ts] k := by simp [Left]
@[simp] theorem left_stampDeq {a ts : Nat} : ¬ Left [.stampDeq t a ts] k := by simp [Left]

theorem left_quiet (hes : ∀ e ∈ es, Quiet e) : ¬ Left es k := by
  rintro ⟨t, hl | ⟨a, ha⟩⟩
  · exact hes _ hl
  · exact hes _ ha

theorem Tickets.new (start : Nat) (hhead : b.head = start) (htail : b.tail.index = start) :
    Tickets b [] where
  drawn hk := absurd hk List.not_mem_nil
  drawer hk := absurd hk List.not_mem_nil
  owner hk := absurd hk left_nil
  tail hk := absurd hk List.not_mem_nil
  deposited hk := absurd hk List.not_mem_nil
  first := ⟨start, Nat.le_of_eq htail.symm, fun _ _ hk => absurd hk List.not_mem_nil,
    fun _ hk hlt => absurd (hhead ▸ hlt) (Nat.not_lt.mpr hk)⟩

/-- A step that draws no ticket. -/
theorem Tickets.keep (hw : Tickets b h) (hhead : b'.head = b.head)
    (htail : b.tail.index ≤ b'.tail.index)
    (hdraw : ∀ t k, .drawHead t k ∉ es ∧ .drawTail t k ∉ es)
    (howner : ∀ k, Left es k → ∃ t, .drawHead t k ∈ h)
    (hdeposit : ∀ t a k, .deposit t a k ∈ es → .drawTail t k ∈ h) : Tickets b' (h ++ es) := by
  have hmem : ∀ {t k}, .drawHead t k ∈ h ++ es ↔ .drawHead t k ∈ h := by simp [hdraw]
  have hmem' : ∀ {t k}, .drawTail t k ∈ h ++ es ↔ .drawTail t k ∈ h := by simp [hdraw]
  refine ⟨fun hk => ?_, fun ht hu => ?_, fun {k} hk => ?_, fun hk => ?_, fun hk => ?_, ?_⟩
  · exact hhead ▸ hw.drawn (hmem.mp hk)
  · exact hw.drawer (hmem.mp ht) (hmem.mp hu)
  · obtain ⟨t, ht⟩ := (left_append.mp hk).elim hw.owner (howner k)
    exact ⟨t, hmem.mpr ht⟩
  · exact Nat.lt_of_lt_of_le (hw.tail (hmem'.mp hk)) htail
  · exact hmem'.mpr ((List.mem_append.mp hk).elim hw.deposited (hdeposit _ _ _))
  · obtain ⟨start, hle, hfrom, hto⟩ := hw.first
    refine ⟨start, Nat.le_trans hle htail, fun t k hk => hfrom t k (hmem'.mp hk),
      fun k hk hlt => ?_⟩
    obtain ⟨t, ht⟩ := hto k hk (hhead ▸ hlt)
    exact ⟨t, hmem.mpr ht⟩

theorem Tickets.drawTail (hw : Tickets b h) (t : Tid) :
    Tickets b.drawTail (h ++ [.drawTail t b.tail.index]) := by
  refine ⟨fun hk => ?_, fun ht hu => ?_, fun {k} hk => ?_, fun {u k} hk => ?_, fun hk => ?_, ?_⟩
  · exact hw.drawn (by simpa using hk)
  · exact hw.drawer (by simpa using ht) (by simpa using hu)
  · obtain ⟨u, hu⟩ := hw.owner (by simpa [left_append] using hk)
    exact ⟨u, List.mem_append_left _ hu⟩
  · show k < b.tail.index + 1
    rcases List.mem_append.mp hk with hk | hk
    · exact Nat.lt_succ_of_lt (hw.tail hk)
    · obtain ⟨rfl, rfl⟩ : u = t ∧ k = b.tail.index := by simpa using hk
      exact Nat.lt_succ_self _
  · exact List.mem_append_left _ (hw.deposited (by simpa using hk))
  · obtain ⟨start, hle, hfrom, hto⟩ := hw.first
    refine ⟨start, Nat.le_succ_of_le hle, fun u k hk => ?_, fun k hk hlt => ?_⟩
    · rcases List.mem_append.mp hk with hk | hk
      · exact hfrom u k hk
      · obtain ⟨-, rfl⟩ : u = t ∧ k = b.tail.index := by simpa using hk
        exact hle
    · obtain ⟨u, hu⟩ := hto k hk hlt
      exact ⟨u, List.mem_append_left _ hu⟩

theorem Tickets.drawHead (hw : Tickets b h) (t : Tid) :
    Tickets b.drawHead (h ++ [.drawHead t b.head]) := by
  have hhead : ∀ {u k}, .drawHead u k ∈ h ++ [.drawHead t b.head] →
      .drawHead u k ∈ h ∨ u = t ∧ k = b.head := fun {u k} hk => by simpa using hk
  refine ⟨fun {u k} hk => ?_, fun ht hu => ?_, fun {k} hk => ?_, fun hk => ?_, fun hk => ?_, ?_⟩
  · show k < b.head + 1
    rcases hhead hk with hk | ⟨-, rfl⟩
    · exact Nat.lt_succ_of_lt (hw.drawn hk)
    · exact Nat.lt_succ_self _
  · rcases hhead ht with hold | ⟨heq, hk⟩ <;> rcases hhead hu with hold' | ⟨heq', hk'⟩
    · exact hw.drawer hold hold'
    · exact absurd (hk' ▸ hw.drawn hold) (Nat.lt_irrefl _)
    · exact absurd (hk ▸ hw.drawn hold') (Nat.lt_irrefl _)
    · rw [heq, heq']
  · obtain ⟨u, hu⟩ := hw.owner (by simpa [left_append] using hk)
    exact ⟨u, List.mem_append_left _ hu⟩
  · exact hw.tail (by simpa using hk)
  · exact List.mem_append_left _ (hw.deposited (by simpa using hk))
  · obtain ⟨start, hle, hfrom, hto⟩ := hw.first
    refine ⟨start, hle, fun u k hk => hfrom u k (by simpa using hk), fun k hk hlt => ?_⟩
    rcases Nat.lt_succ_iff_lt_or_eq.mp hlt with hlt | rfl
    · obtain ⟨u, hu⟩ := hto k hk hlt
      exact ⟨u, List.mem_append_left _ hu⟩
    · exact ⟨t, by simp⟩

/-- The ticket of a dequeue is one that nobody is done with. -/
theorem Tickets.owns (hw : Tickets b h) (t : Tid) : Owns (h ++ [.drawHead t b.head]) t b.head := by
  refine ⟨by simp, fun hleft => ?_⟩
  obtain ⟨u, hu⟩ := hw.owner (by simpa [left_append] using hleft)
  exact Nat.lt_irrefl _ (hw.drawn hu)

theorem TicketRely.append (hdraw : ∀ k, .drawHead u k ∉ es)
    (hleft : ∀ k, Left es k → ¬ Owns h u k) : TicketRely u h (h ++ es) where
  history := List.mem_append_left _
  drawHead hk := (List.mem_append.mp hk).resolve_right (hdraw _)
  owns {k} hown := ⟨List.mem_append_left _ hown.1, fun hl =>
    (left_append.mp hl).elim hown.2 fun hl => hleft k hl hown⟩

theorem TicketRely.enqStands (hrely : TicketRely t h h') (l : EnqStage) (hl : l.Stands h t) :
    l.Stands h' t := by
  cases l with
  | holds k => exact hrely.history hl
  | draws | deposited => trivial

theorem TicketRely.deqStands (hrely : TicketRely t h h') (l : DeqStage) (hl : l.Stands h t) :
    l.Stands h' t := by
  cases l with
  | holds k => exact hrely.owns hl
  | left k => exact hrely.history hl
  | fixes f => exact hl
  | draws | took => trivial

/-! ### Steps -/

theorem EnqStep.tickets {l : EnqStage} {r : EnqStage ⊕ Bool}
    (hstep : EnqStep t item b l b' r es) (hw : Tickets b h) (hl : l.Stands h t) :
    Tickets b' (h ++ es) := by
  cases hstep with
  | draw hopen => exact hw.drawTail t
  | refuse => exact hw.keep rfl (Nat.le_succ _) (by simp) (by simp) (by simp)
  | stay | giveUp => exact hw.keep rfl (Nat.le_refl _) (by simp) (by simp) (by simp)
  | stamp => exact hw.keep rfl (Nat.le_refl _) (by simp) (by simp) (by simp)
  | deposit k =>
      refine hw.keep rfl (Nat.le_refl _) (by simp) (by simp) fun u a j hj => ?_
      obtain ⟨rfl, -, rfl⟩ : u = t ∧ a = item ∧ j = k := by simpa using hj
      exact hl
  | close k force | tryClose k force =>
      obtain ⟨hhead, htail⟩ := b.closeSegment_tail k force
      exact hw.keep hhead (Nat.le_of_eq htail.symm) (by simp) (by simp) (by simp)

theorem EnqStep.stands {l : EnqStage} {r : EnqStage ⊕ Bool}
    (hstep : EnqStep t item b l b' r es) (hl : l.Stands h t) :
    r.elim (EnqStage.Stands (h ++ es) t) fun _ => True := by
  cases hstep with
  | draw => exact List.mem_append_right _ (List.mem_singleton_self _)
  | stay => rwa [List.append_nil]
  | _ => trivial

theorem EnqStep.not_left {l : EnqStage} {r : EnqStage ⊕ Bool}
    (hstep : EnqStep t item b l b' r es) : ¬ Left es k := by
  cases hstep <;> simp

/-- An enqueue draws no head ticket. -/
theorem EnqStep.not_drawHead {l : EnqStage} {r : EnqStage ⊕ Bool}
    (hstep : EnqStep t item b l b' r es) : .drawHead u k ∉ es := by
  cases hstep <;> simp

theorem DeqStep.tickets {l : DeqStage} {r : DeqStage ⊕ Option Nat}
    (hstep : DeqStep t b l b' r es) (hw : Tickets b h) (hl : l.Stands h t) :
    Tickets b' (h ++ es) := by
  cases hstep with
  | draw => exact hw.drawHead t
  | stay | stamp | retry | empty =>
      exact hw.keep rfl (Nat.le_refl _) (by simp) (by simp) (by simp)
  | take k a =>
      refine hw.keep rfl (Nat.le_refl _) (by simp) (fun j hj => ⟨t, ?_⟩) (by simp)
      exact left_take.mp hj ▸ hl.1
  | leave k =>
      refine hw.keep rfl (Nat.le_refl _) (by simp) (fun j hj => ⟨t, ?_⟩) (by simp)
      exact left_leave.mp hj ▸ hl.1
  | fix l | fixed l =>
      obtain ⟨hhead, htail, -⟩ := b.fixStep_spec hl
      exact hw.keep hhead htail (by simp) (by simp) (by simp)

theorem DeqStep.stands {l : DeqStage} {r : DeqStage ⊕ Option Nat}
    (hstep : DeqStep t b l b' r es) (hw : Tickets b h) (hl : l.Stands h t) :
    r.elim (DeqStage.Stands (h ++ es) t) fun _ => True := by
  cases hstep with
  | draw => exact hw.owns t
  | stay => rwa [List.append_nil]
  | leave k => exact List.mem_append_left _ hl.1
  | fix l l' hnext => exact (b.fixStep_spec hl).2.2 l' hnext
  | _ => trivial

/-- A thread keeps its ticket until it is done with the cell. -/
theorem DeqStep.ticket {l : DeqStage} {r : DeqStage ⊕ Option Nat}
    (hstep : DeqStep t b l b' r es) (hk : l.ticket = some k) :
    Left es k ∨ r.elim DeqStage.ticket (fun _ => none) = some k := by
  cases hstep with
  | stay => exact .inr hk
  | take j a =>
      obtain rfl := Option.some.inj hk
      exact .inl (left_take.mpr rfl)
  | leave j =>
      obtain rfl := Option.some.inj hk
      exact .inl (left_leave.mpr rfl)
  | _ => cases hk

theorem DeqStep.drawHead {l : DeqStage} {r : DeqStage ⊕ Option Nat}
    (hstep : DeqStep t b l b' r es) (hk : .drawHead u k ∈ es) :
    u = t ∧ r = .inl (.holds k) := by
  cases hstep with
  | draw =>
      obtain ⟨rfl, rfl⟩ : u = t ∧ k = b.head := by simpa using hk
      exact ⟨rfl, rfl⟩
  | _ => simp at hk

theorem DeqStep.left {l : DeqStage} {r : DeqStage ⊕ Option Nat}
    (hstep : DeqStep t b l b' r es) (hk : Left es k) : l = .holds k := by
  cases hstep with
  | take j a => rw [left_take.mp hk]
  | leave j => rw [left_leave.mp hk]
  | _ => simp at hk

theorem DeqStep.rely {l : DeqStage} {r : DeqStage ⊕ Option Nat}
    (hstep : DeqStep t b l b' r es) (hw : Tickets b h) (hl : l.Stands h t) (hne : u ≠ t) :
    TicketRely u h (h ++ es) := by
  refine .append (fun k hk => hne (hstep.drawHead hk).1) fun k hk hown => ?_
  obtain rfl := hstep.left hk
  exact hne (hw.drawer hown.1 hl.1)

end Tickets

/-! ### Runs -/

variable {S : SegmentType σ κe κd} {R : RingType S} {ok : σ → κd → Prop} {γ : Type}

/-- What the history says about where a thread stands. -/
def RingType.Stands (R : RingType S) (h : List SegmentEvent) (t : Tid) :
    SegmentLocal κe κd → Prop
  | .idle => True
  | .enqueue _ l => (R.enqStage l).Stands h t
  | .dequeue l => (R.deqStage l).Stands h t

/-- The head ticket a thread has and is not done with. -/
def RingType.headTicket (R : RingType S) : SegmentLocal κe κd → Option Nat
  | .dequeue l => (R.deqStage l).ticket
  | _ => none

structure RingType.Thread (R : RingType S) (h : List SegmentEvent) (t : Tid)
    (l : SegmentLocal κe κd) : Prop where
  stands : R.Stands h t l
  busy : ∀ k, .drawHead t k ∈ h → Left h k ∨ R.headTicket l = some k

/-- An invariant of the cells of a segment, over what holds of its tickets, in runs whose dequeues
take `ok` steps. `enq` and `deq` are what the operations know, `rely` what they let others do. -/
structure CellInvariant (R : RingType S) (ok : σ → κd → Prop) (γ : Type) where
  glob : World γ σ SegmentEvent → Prop
  enq : World γ σ SegmentEvent → Tid → κe → Prop
  deq : World γ σ SegmentEvent → Tid → κd → Prop
  rely : Tid → World γ σ SegmentEvent → World γ σ SegmentEvent → Prop
  init : ∀ start, ∃ x, glob ⟨x, S.new start, []⟩
  enq_start : ∀ w t, enq w t S.enqueue
  deq_start : ∀ w t, deq w t S.dequeue
  rely_self : ∀ t w, rely t w w
  enq_stable : ∀ {w w' t l}, rely t w w' → enq w t l → enq w' t l
  deq_stable : ∀ {w w' t l}, rely t w w' → (R.deqStage l).Stands w.history t → deq w t l →
    deq w' t l
  enq_step : ∀ {x s h t l} now item, Tickets (S.base s) h → (R.enqStage l).Stands h t →
    glob ⟨x, s, h⟩ → enq ⟨x, s, h⟩ t l →
    ∃ x', let w' := ⟨x', (S.enqueueStep t now item s l).1,
        h ++ (S.enqueueStep t now item s l).2.2⟩
      glob w' ∧ ((S.enqueueStep t now item s l).2.1.elim (enq w' t) fun _ => True)
        ∧ ∀ u, u ≠ t → rely u ⟨x, s, h⟩ w'
  deq_step : ∀ {x s h t l} now, Tickets (S.base s) h → (R.deqStage l).Stands h t →
    glob ⟨x, s, h⟩ → deq ⟨x, s, h⟩ t l → ok s l →
    ∃ x', let w' := ⟨x', (S.dequeueStep t now s l).1, h ++ (S.dequeueStep t now s l).2.2⟩
      glob w' ∧ ((S.dequeueStep t now s l).2.1.elim (deq w' t) fun _ => True)
        ∧ ∀ u, u ≠ t → rely u ⟨x, s, h⟩ w'

def CellInvariant.Loc (I : CellInvariant R ok γ) (w : World γ σ SegmentEvent) (t : Tid) :
    SegmentLocal κe κd → Prop
  | .idle => True
  | .enqueue _ l => I.enq w t l
  | .dequeue l => I.deq w t l

section Runs

variable {t u : Tid} {i : SegmentInput} {x : γ} {s s' : σ} {h h' es : List SegmentEvent}
  {l l' : SegmentLocal κe κd}

theorem RingType.Thread.stable (hl : R.Thread h t l) (hrely : TicketRely t h h') :
    R.Thread h' t l where
  stands :=
    match l, hl.stands with
    | .idle, _ => trivial
    | .enqueue _ le, hstands => hrely.enqStands (R.enqStage le) hstands
    | .dequeue ld, hstands => hrely.deqStands (R.deqStage ld) hstands
  busy k hk := (hl.busy k (hrely.drawHead hk)).imp_left (Left.mono hrely.history)

/-- A step on a segment keeps its tickets in order. -/
theorem RingType.step_tickets (hw : Tickets (S.base s) h) (hl : R.Thread h t l)
    (hstep : segmentStep S t i s l = some (s', l', es)) :
    Tickets (S.base s') (h ++ es) ∧ R.Thread (h ++ es) t l'
      ∧ ∀ u, u ≠ t → TicketRely u h (h ++ es) := by
  cases l with
  | idle =>
      obtain ⟨op, -, hop⟩ := Option.map_eq_some_iff.mp hstep
      have hbusy : ∀ k, .drawHead t k ∈ h → Left h k := fun k hk =>
        (hl.busy k hk).resolve_right fun hk => by cases hk
      cases op with
      | none =>
          cases hop
          rw [List.append_nil]
          refine ⟨hw, ⟨?_, fun k hk => .inl (hbusy k hk)⟩, fun u _ => ⟨id, id, id⟩⟩
          rw [Stands, R.dequeue]
          trivial
      | some item =>
          cases hop
          rw [List.append_nil]
          refine ⟨hw, ⟨?_, fun k hk => .inl (hbusy k hk)⟩, fun u _ => ⟨id, id, id⟩⟩
          rw [Stands, R.enqueue]
          trivial
  | enqueue item le =>
      have henq := R.enqueueStep t i.ts item s le
      have hstands := henq.stands hl.stands
      cases hstep
      refine ⟨henq.tickets hw hl.stands, ⟨?_, fun k hk => ?_⟩, fun u _ =>
        .append (fun k => henq.not_drawHead) fun k hk => absurd hk henq.not_left⟩
      · cases hres : (S.enqueueStep t i.ts item s le).2.1 with
        | inl le' =>
            rw [hres] at hstands
            exact hstands
        | inr r => trivial
      · have hold := (List.mem_append.mp hk).resolve_right henq.not_drawHead
        rcases hl.busy k hold with hleft | hticket
        · exact .inl (hleft.mono (List.mem_append_left _))
        · cases hticket
  | dequeue ld =>
      have hdeq := R.dequeueStep t i.ts s ld
      have hstands := hdeq.stands hw hl.stands
      cases hstep
      refine ⟨hdeq.tickets hw hl.stands, ⟨?_, fun k hk => ?_⟩, fun u => hdeq.rely hw hl.stands⟩
      · cases hres : (S.dequeueStep t i.ts s ld).2.1 with
        | inl ld' =>
            rw [hres] at hstands
            exact hstands
        | inr r => trivial
      · -- The thread holds the ticket it has drawn last.
        have hgoes : ∀ {k}, (((S.dequeueStep t i.ts s ld).2.1.map R.deqStage id).elim
            DeqStage.ticket fun _ => none) = some k →
            R.headTicket ((S.dequeueStep t i.ts s ld).2.1.elim SegmentLocal.dequeue
              fun _ => .idle) = some k := fun hk => by
          cases hres : (S.dequeueStep t i.ts s ld).2.1 with
          | inl ld' =>
              rw [hres] at hk
              exact hk
          | inr r => simp [hres] at hk
        rcases List.mem_append.mp hk with hk | hk
        · rcases hl.busy k hk with hleft | hticket
          · exact .inl (hleft.mono (List.mem_append_left _))
          · rcases hdeq.ticket hticket with hleft | hkeeps
            · exact .inl (left_append.mpr (.inr hleft))
            · exact .inr (hgoes hkeeps)
        · exact .inr (hgoes (by rw [(hdeq.drawHead hk).2]; rfl))

/-- A step on a segment keeps the invariant of its cells. -/
theorem CellInvariant.step_cells (I : CellInvariant R ok γ) (hw : Tickets (S.base s) h)
    (hglob : I.glob ⟨x, s, h⟩) (hl : R.Thread h t l) (hloc : I.Loc ⟨x, s, h⟩ t l)
    (hok : ∀ ld, l = .dequeue ld → ok s ld)
    (hstep : segmentStep S t i s l = some (s', l', es)) :
    ∃ x', I.glob ⟨x', s', h ++ es⟩ ∧ I.Loc ⟨x', s', h ++ es⟩ t l'
      ∧ ∀ u, u ≠ t → I.rely u ⟨x, s, h⟩ ⟨x', s', h ++ es⟩ := by
  cases l with
  | idle =>
      obtain ⟨op, -, hop⟩ := Option.map_eq_some_iff.mp hstep
      cases op with
      | none =>
          cases hop
          rw [List.append_nil]
          exact ⟨x, hglob, I.deq_start _ t, fun u _ => I.rely_self u _⟩
      | some item =>
          cases hop
          rw [List.append_nil]
          exact ⟨x, hglob, I.enq_start _ t, fun u _ => I.rely_self u _⟩
  | enqueue item le =>
      obtain ⟨x', hglob', henq, hrely⟩ := I.enq_step i.ts item hw hl.stands hglob hloc
      cases hstep
      refine ⟨x', hglob', ?_, hrely⟩
      cases hres : (S.enqueueStep t i.ts item s le).2.1 with
      | inl le' =>
          rw [hres] at henq
          exact henq
      | inr r => trivial
  | dequeue ld =>
      obtain ⟨x', hglob', hdeq, hrely⟩ := I.deq_step i.ts hw hl.stands hglob hloc (hok ld rfl)
      cases hstep
      refine ⟨x', hglob', ?_, hrely⟩
      cases hres : (S.dequeueStep t i.ts s ld).2.1 with
      | inl ld' =>
          rw [hres] at hdeq
          exact hdeq
      | inr r => trivial

end Runs

/-- **What holds of a ring segment**: its tickets are in order and its cells as its type says. -/
def CellInvariant.segmentInvariant (I : CellInvariant R ok γ) (start : Nat) :
    RelyGuarantee (segmentProgram S start) (fun c t _ => ∀ l, c.locals t = .dequeue l →
      ok c.shared l) γ where
  glob w := Tickets (S.base w.shared) w.history ∧ I.glob w
  loc w t l := R.Thread w.history t l ∧ I.Loc w t l
  rely t w w' := TicketRely t w.history w'.history ∧ I.rely t w w'
  init := by
    obtain ⟨x, hx⟩ := I.init start
    obtain ⟨htail, hhead⟩ := R.new start
    exact ⟨x, ⟨.new start hhead htail, hx⟩, fun t =>
      ⟨⟨trivial, fun k hk => absurd hk List.not_mem_nil⟩, trivial⟩⟩
  stable {w w' t l} := by
    rintro ⟨hticket, hrely⟩ ⟨hl, hloc⟩
    refine ⟨hl.stable hticket, ?_⟩
    match l with
    | .idle => trivial
    | .enqueue _ le => exact I.enq_stable hrely hloc
    | .dequeue ld => exact I.deq_stable hrely hl.stands hloc
  step {x c t i g l es} hok hw hl hstep := by
    obtain ⟨htickets, hthread, hticket⟩ := RingType.step_tickets hw.1 (hl t).1 hstep
    obtain ⟨x', hglob, hloc, hrely⟩ := I.step_cells hw.1 hw.2 (hl t).1 (hl t).2 hok hstep
    exact ⟨x', ⟨htickets, hglob⟩, ⟨hthread, hloc⟩, fun u hu => ⟨hticket u hu, hrely u hu⟩⟩

end QueueFairness.LinkedRingQueue
