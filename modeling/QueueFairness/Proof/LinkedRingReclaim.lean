import QueueFairness.PRQueue
import QueueFairness.Proof.HazardPointers
import QueueFairness.Proof.LinkedRingSegment

/-!
# Reclaiming ring segments

A dequeue may retire a segment that `tail` still points to, and an enqueue may come to protect it
afterwards. The list of segments is one of those whose nodes are kept by the slot of the thread that
removed them, and so no thread is left with a segment that has been deleted, also when its address
has been handed out again.
-/

namespace QueueFairness.LinkedRingQueue

open Interleaving HazardPointers
open ProtectedList (Inv Move Holds HoldsTail HoldsNext Removed Settled Scanning)

variable {σ κe κd : Type} {S : SegmentType σ κe κd} {maxThreads : Nat}

/-- The segment that the thread's next step accesses. -/
def Local.accesses : Local κe κd → Option Nat
  | .enqLoadNext _ ltail | .enqSegment _ ltail _ | .enqLoadStart _ ltail | .enqCasNext _ ltail _ =>
      some ltail
  | .enqNewSegment _ _ newTail _ => some newTail
  | .deqSegment lhead _ | .deqLoadNext lhead | .deqSegmentAgain lhead _ _ => some lhead
  | .sizeLoadTail _ ltail => some ltail
  | .sizeLoadHead lhead _ => some lhead
  | _ => none

/-- The segment that the thread is about to delete. -/
def Local.deletes : Local κe κd → Option Nat
  | .enqDelete _ newTail _ => some newTail
  | .deqScan _ (.erase _ obj) => some obj
  | _ => none

/-- The segments that the thread may access before it looks at `head` or `tail` again. -/
def Local.Keeps : Local κe κd → Nat → Prop
  | .enqNew _ ltail _, s => s = ltail
  | .enqNewSegment _ ltail newTail _, s | .enqCasNext _ ltail newTail, s => s = ltail ∨ s = newTail
  | .deqCasHead lhead _, s | .sizeProtectTail lhead _, s | .sizePublishTail lhead _, s => s = lhead
  | .sizeLoadTail lhead ltail, s => s = lhead ∨ s = ltail
  | l, s => l.accesses = some s

/-- No thread is about to access a segment that is not allocated, or to delete one. -/
structure ReclaimSafe (c : Config (Shared σ) (Local κe κd) Event) : Prop where
  access : ∀ t s, (c.locals t).accesses = some s → c.shared.status s = .allocated
  delete : ∀ t s, (c.locals t).deletes = some s → c.shared.status s = .allocated

/-- The list of segments. -/
def Shared.asList (g : Shared σ) : ProtectedList.State Nat :=
  HazardPointers.asList (nextPtr g) g.status g.head g.tail g.hp

abbrev Ghost := ProtectedList.Ghost Nat

/-- What a thread protects. -/
def Protects (x : Ghost) (s : ProtectedList.State Nat) (t : Tid) : Local κe κd → Prop
  | .enqReload _ ltail => s.slot t kHpTail = some ltail
  | .enqLoadNext _ ltail | .enqSegment _ ltail _ | .enqLoadStart _ ltail | .enqNew _ ltail _ =>
      HoldsTail x t kHpTail ltail
  | .enqHelpTail _ ltail lnext => HoldsNext x t kHpTail ltail lnext
  | .enqNewSegment _ ltail newTail _ | .enqCasNext _ ltail newTail =>
      HoldsTail x t kHpTail ltail ∧ x.owner newTail = some t
  | .enqCasTail _ ltail newTail => HoldsNext x t kHpTail ltail newTail
  | .enqDelete _ newTail _ => x.owner newTail = some t
  | .deqReload lhead => s.slot t kHpHead = some lhead
  | .deqSegment lhead _ | .deqLoadNext lhead => Holds x t kHpHead lhead
  | .deqSegmentAgain lhead lnext _ | .deqCasHead lhead lnext => HoldsNext x t kHpHead lhead lnext
  | .deqRetire lhead _ => ∃ p, x.guard t kHpHead = some p ∧ x.node p = lhead ∧ Removed x t p
      ∧ ∀ q ∈ x.dropped t, q < x.last
  | .deqScan _ scan => Settled x t ∧ ScanLoc x t scan
  | .sizeProtectHead n => ∀ ret, n = some ret → s.slot t kHpHead = some ret
  | .sizeProtectTail lhead n =>
      Holds x t kHpHead lhead ∧ ∀ ret, n = some ret → s.slot t kHpTail = some ret
  | .sizePublishTail lhead _ | .sizeLoadHead lhead _ => Holds x t kHpHead lhead
  | .sizeLoadTail lhead ltail => Holds x t kHpHead lhead ∧ HoldsTail x t kHpTail ltail
  | _ => True

section Steps

variable {t u : Tid} {i : Input} {g g' : Shared σ} {l l' : Local κe κd} {es : List Event}
  {x x' : Ghost} {s s' : ProtectedList.State Nat}

theorem Protects.stable (hl : Protects x s t l) (hw : Inv (Scanned maxThreads) x s)
    (h : ProtectedList.Rely t x s x' s') : Protects x' s' t l := by
  cases l with
  | enqReload | deqReload => exact (congrFun h.slot _).trans hl
  | enqLoadNext | enqSegment | enqLoadStart | enqNew => exact h.holdsTail hw hl
  | enqHelpTail | enqCasTail | deqSegmentAgain | deqCasHead => exact h.holdsNext hl
  | enqNewSegment | enqCasNext => exact ⟨h.holdsTail hw hl.1, h.owner hl.2⟩
  | enqDelete => exact h.owner hl
  | deqSegment | deqLoadNext | sizePublishTail | sizeLoadHead => exact h.holds hw hl
  | deqRetire =>
      obtain ⟨p, hp, hn, hremoved, hdropped⟩ := hl
      refine ⟨p, h.guard ▸ hp, (h.node (hw.guard hp).2.1).trans hn, h.removed_iff hremoved,
        fun q hq => ?_⟩
      rw [h.dropped] at hq
      exact Nat.lt_of_lt_of_le (hdropped q hq) h.last
  | deqScan => exact ⟨h.settled hl.1, hl.2.stable hw h⟩
  | sizeProtectHead => exact fun ret hr => (congrFun h.slot _).trans (hl ret hr)
  | sizeProtectTail =>
      exact ⟨h.holds hw hl.1, fun ret hr => (congrFun h.slot _).trans (hl.2 ret hr)⟩
  | sizeLoadTail => exact ⟨h.holds hw hl.1, h.holdsTail hw hl.2⟩
  | _ => trivial

theorem Protects.allocated (hl : Protects x s t l) (hw : Inv (Scanned maxThreads) x s) {n : Nat}
    (hn : l.Keeps n ∨ l.deletes = some n) : s.allocated n := by
  have hkept : ∀ {m}, l.accesses = some m → l.accesses = some n → n = m := fun hm hn =>
    Option.some.inj (hn.symm.trans hm)
  cases l with
  | enqNew item ltail start =>
      obtain rfl : n = ltail := hn.resolve_right (by simp [Local.deletes])
      exact hl.holds.allocated hw
  | enqNewSegment item ltail newTail le | enqCasNext item ltail newTail =>
      obtain rfl | rfl : n = ltail ∨ n = newTail := hn.resolve_right (by simp [Local.deletes])
      · exact hl.1.holds.allocated hw
      · exact (hw.owner hl.2).1
  | enqDelete item newTail lnext =>
      obtain rfl : n = newTail :=
        (Option.some.inj (hn.resolve_left (by simp [Local.Keeps, Local.accesses]))).symm
      exact (hw.owner hl).1
  | deqScan lnext scan =>
      cases scan with
      | load => simp [Local.Keeps, Local.accesses, Local.deletes] at hn
      | erase iret obj =>
          obtain rfl : n = obj :=
            (Option.some.inj (hn.resolve_left (by simp [Local.Keeps, Local.accesses]))).symm
          obtain ⟨q, hq, rfl, -⟩ := hl.2
          obtain ⟨-, hlt, halive⟩ := hw.dropped (List.mem_of_getElem? hq)
          exact (hw.alive (Nat.lt_trans hlt hw.first_lt) halive).1
  | deqCasHead lhead lnext =>
      obtain rfl : n = lhead := hn.resolve_right (by simp [Local.deletes])
      exact hl.holds.allocated hw
  | sizeProtectTail lhead m =>
      obtain rfl : n = lhead := hn.resolve_right (by simp [Local.deletes])
      exact hl.1.allocated hw
  | sizePublishTail lhead ret =>
      obtain rfl : n = lhead := hn.resolve_right (by simp [Local.deletes])
      exact Holds.allocated hl hw
  | sizeLoadTail lhead ltail =>
      obtain rfl | rfl : n = lhead ∨ n = ltail := hn.resolve_right (by simp [Local.deletes])
      · exact hl.1.allocated hw
      · exact hl.2.holds.allocated hw
  | enqLoadNext item ltail | enqSegment item ltail le | enqLoadStart item ltail =>
      obtain rfl := hkept rfl (hn.resolve_right (by simp [Local.deletes]))
      exact hl.holds.allocated hw
  | deqSegment lhead ld | deqLoadNext lhead | sizeLoadHead lhead t' =>
      obtain rfl := hkept rfl (hn.resolve_right (by simp [Local.deletes]))
      exact Holds.allocated hl hw
  | deqSegmentAgain lhead lnext ld =>
      obtain rfl := hkept rfl (hn.resolve_right (by simp [Local.deletes]))
      exact hl.holds.allocated hw
  | _ => simp [Local.Keeps, Local.accesses, Local.deletes] at hn

@[simp]
theorem asList_setSegment (g : Shared σ) (n : Nat) (segment : σ) :
    (g.setSegment n segment).asList = g.asList := by
  have hnext : nextPtr (g.setSegment n segment) = nextPtr g := by
    funext m
    by_cases hm : m = n
    · simp [nextPtr, Shared.setSegment, hm]
    · simp [nextPtr, Shared.setSegment, hm]
  simp only [Shared.asList, hnext]
  rfl

theorem asList_setSlot (g : Shared σ) (t : Tid) (j : Nat) (n : Option Nat) :
    (g.setSlot t j n).asList = { g.asList with
      slot := Function.update g.asList.slot t (Function.update (g.asList.slot t) j n) } := rfl

theorem asList_setNext (g : Shared σ) (n m : Nat) : (g.setNext n (some m)).asList
    = { g.asList with next := Function.update g.asList.next n (some m) } := by
  have hnext : nextPtr (g.setNext n (some m)) = Function.update (nextPtr g) n (some m) := by
    funext k
    by_cases hk : k = n
    · simp [nextPtr, Shared.setNext, hk]
    · simp [nextPtr, Shared.setNext, hk]
  simp only [Shared.asList, hnext]
  rfl

theorem asList_new (g : Shared σ) (n start : Nat) : (g.new S n start).asList
    = { g.asList with
        allocated := Function.update g.asList.allocated n True
        next := Function.update g.asList.next n none } := by
  simp only [Shared.asList, HazardPointers.asList, ProtectedList.State.mk.injEq]
  refine ⟨?_, ?_, rfl, rfl, rfl, rfl⟩
  · funext k
    by_cases hk : k = n
    · simp [nextPtr, Shared.new, hk]
    · simp [nextPtr, Shared.new, Shared.setStatus, hk]
  · funext k
    by_cases hk : k = n
    · simp [Shared.new, Shared.setStatus, hk]
    · simp [Shared.new, Shared.setStatus, hk]

theorem asList_delete (g : Shared σ) (n : Nat) : (g.setStatus n .deleted).asList
    = { g.asList with allocated := Function.update g.asList.allocated n False } := by
  simp only [Shared.asList, HazardPointers.asList, ProtectedList.State.mk.injEq]
  refine ⟨rfl, ?_, rfl, rfl, rfl, rfl⟩
  funext k
  by_cases hk : k = n
  · simp [Shared.setStatus, hk]
  · simp [Shared.setStatus, hk]

theorem asList_scan (g : Shared σ) (H : HazardPointers) (freed : Option Nat) :
    (freed.elim { g with hp := H }
        (Shared.setStatus { g with hp := H } · .deleted)).asList
      = HazardPointers.asList (nextPtr g)
        (freed.elim g.status fun n => Function.update g.status n .deleted) g.head g.tail H := by
  cases freed <;> rfl

/-- What a step of thread `t` has to achieve. -/
def Moves (maxThreads : Nat) (t : Tid) (x : Ghost) (g g' : Shared σ) (l' : Local κe κd) : Prop :=
  ∃ x', Move (Scanned maxThreads) t x g.asList x' g'.asList ∧ Protects x' g'.asList t l'

theorem Moves.stay (hg : g'.asList = g.asList) (hl : Protects x g.asList t l') :
    Moves maxThreads t x g g' l' := by
  unfold Moves
  rw [hg]
  exact ⟨x, .stay, hl⟩

theorem Moves.of (hmove : Move (Scanned maxThreads) t x g.asList x' s') (hg : g'.asList = s')
    (hl : Protects x' s' t l') : Moves maxThreads t x g g' l' := by
  subst hg
  exact ⟨x', hmove, hl⟩

/-- The compare-and-swap on `tail` to the successor of a segment it has not passed. -/
theorem swingTail_moves {ltail m : Nat} (hl : HoldsNext x t kHpTail ltail m)
    (htail : g.tail = ltail) (hl' : ∀ x s, Protects x s t l') :
    Moves maxThreads t x g { g with tail := m } l' := by
  obtain ⟨p, hp, hn, hlt, hm⟩ := hl
  have hmove : Move (Scanned maxThreads) t x g.asList _ _ :=
    .swingTail kHpTail p hp (htail.trans hn.symm) hlt
  rw [hm] at hmove
  exact ⟨_, hmove, hl' _ _⟩

/-! One lemma for each control state with more than one way on. -/

section States

variable (hw : Inv (Scanned maxThreads) x g.asList)

include hw

/-- The second load of `tail` agrees with what was published. -/
theorem enqReload_moves (ht : t < maxThreads) {item ltail : Nat}
    (hl : Protects x g.asList t (.enqReload item ltail : Local κe κd)) :
    Leads (fun g' l' _ => Moves maxThreads t x g g' l')
      (step S maxThreads t i g (.enqReload item ltail)) := by
  refine .ite (fun _ => .into <| .stay rfl trivial) fun hne => .into ?_
  have htail : g.tail = ltail := not_not.mp hne
  refine ⟨_, .guardTail kHpTail (hl.trans (congrArg some htail.symm)) ⟨ht, by decide⟩, ?_⟩
  exact htail ▸ hw.holdsTail_last

theorem enqLoadNext_moves {item ltail : Nat} (hl : HoldsTail x t kHpTail ltail) :
    Leads (fun g' l' _ => Moves maxThreads t x g g' l')
      (step S maxThreads t i g (.enqLoadNext item ltail)) := by
  simp only [step]
  split
  · rename_i lnext hnext
    exact .into <| .stay rfl (hl.holds.next hw hnext)
  · exact .into <| .stay rfl hl

/-- The new segment becomes the last one of the list, unless another is linked first. -/
theorem enqCasNext_moves {item ltail newTail : Nat} (hl : HoldsTail x t kHpTail ltail)
    (howner : x.owner newTail = some t) :
    Leads (fun g' l' _ => Moves maxThreads t x g g' l')
      (step S maxThreads t i g (.enqCasNext item ltail newTail)) := by
  obtain ⟨p, hp, hn, hlast⟩ := hl
  simp only [step]
  split
  · rename_i hnext
    have hnone : g.asList.next (x.node p) = none := by
      rw [hn]
      exact hnext
    have hmove : Move (Scanned maxThreads) t x g.asList _ _ :=
      .link kHpTail p newTail hp hlast hnone howner
    rw [hn] at hmove
    refine .into <| .of hmove (asList_setNext ..) ⟨p, hp, ?_, ?_, ?_⟩
    · have hlt := (hw.guard hp).2.1
      simpa [Nat.ne_of_lt hlt] using hn
    · simp [hw.eq_end hp hnone]
    · simp [hw.eq_end hp hnone]
  · exact .into <| .stay rfl howner

theorem deqReload_moves (ht : t < maxThreads) {lhead : Nat}
    (hl : Protects x g.asList t (.deqReload lhead : Local κe κd)) :
    Leads (fun g' l' _ => Moves maxThreads t x g g' l')
      (step S maxThreads t i g (.deqReload lhead)) := by
  refine .ite (fun _ => .into <| .stay rfl trivial) fun hne => .into ?_
  have hhead : g.head = lhead := not_not.mp hne
  refine ⟨_, .guardHead kHpHead (hl.trans (congrArg some hhead.symm)) ⟨ht, by decide⟩, ?_⟩
  exact hhead ▸ hw.holds_first

theorem deqLoadNext_moves {lhead : Nat} (hl : Holds x t kHpHead lhead) :
    Leads (fun g' l' _ => Moves maxThreads t x g g' l')
      (step S maxThreads t i g (.deqLoadNext lhead)) := by
  simp only [step]
  split
  · exact .into <| .stay rfl trivial
  · rename_i lnext hnext
    exact .into <| .stay rfl (hl.next hw hnext)

/-- The segment taken off `head` is this thread's to retire. -/
theorem deqCasHead_moves {lhead lnext : Nat} (hl : HoldsNext x t kHpHead lhead lnext) :
    Leads (fun g' l' _ => Moves maxThreads t x g g' l')
      (step S maxThreads t i g (.deqCasHead lhead lnext)) := by
  obtain ⟨p, hp, hn, hlt, hm⟩ := hl
  refine .ite (fun hhead => .into ?_) fun _ => .into <| .stay rfl trivial
  have hhead : g.asList.head = x.node p := hhead.trans hn.symm
  have hmove : Move (Scanned maxThreads) t x g.asList _ _ := .swingHead kHpHead p hp hhead hlt
  rw [hm] at hmove
  obtain rfl := hw.eq_first hp hhead
  refine ⟨_, hmove, x.first, hp, hn, ⟨by simp, Nat.lt_succ_self _, hw.first_alive, fun hd => ?_⟩,
    fun q hq => hw.lt_last (hw.dropped hq).2.1 hlt⟩
  exact Nat.lt_irrefl _ (hw.dropped hd).2.1

theorem deqRetire_moves {lhead lnext : Nat}
    (hl : Protects x g.asList t (.deqRetire lhead lnext : Local κe κd)) :
    Leads (fun g' l' _ => Moves maxThreads t x g g' l')
      (step S maxThreads t i g (.deqRetire lhead lnext)) := by
  obtain ⟨p, hp, rfl, hremoved, hdropped⟩ := hl
  have hmove : Move (Scanned maxThreads) t x g.asList _ _ := .retire p hremoved
  refine .into ⟨_, hmove, ?_⟩
  have hsettled := ProtectedList.settled_of_guard
    (x := { x with dropped := Function.update x.dropped t (x.dropped t ++ [p]) }) hp
    fun q hq hqp => hdropped q (by simpa [hqp] using hq)
  cases hscan : scanFrom maxThreads (g.hp.retiredList t ++ [x.node p]) 0 with
  | none => trivial
  | some scan =>
      refine ⟨hsettled, scanLoc_scanFrom (hmove.inv hw) hsettled 0 ?_⟩
      simpa [Shared.asList, HazardPointers.asList] using hscan

theorem deqScan_moves {lnext : Nat} {scan : Scan} (hsettled : Settled x t)
    (hscan : ScanLoc x t scan) :
    Leads (fun g' l' _ => Moves maxThreads t x g g' l')
      (step S maxThreads t i g (.deqScan lnext scan)) := by
  obtain ⟨x', hmove, hsettled', hscan', -⟩ := scanStep_moves hw hsettled hscan
  refine .into <| .of hmove (asList_scan ..) ?_
  cases hres : (scanStep maxThreads t g.hp scan).2.1 with
  | none => trivial
  | some scan' => exact ⟨hsettled', hscan' scan' hres⟩

theorem sizeProtectHead_moves (ht : t < maxThreads) {n : Option Nat}
    (hl : Protects x g.asList t (.sizeProtectHead n : Local κe κd)) :
    Leads (fun g' l' _ => Moves maxThreads t x g g' l')
      (step S maxThreads t i g (.sizeProtectHead n)) := by
  refine .ite (fun hhead => .into ?_) fun _ => .into <| .stay rfl trivial
  exact ⟨_, .guardHead kHpHead (hl _ hhead.symm) ⟨ht, by decide⟩, hw.holds_first, by simp⟩

theorem sizeProtectTail_moves (ht : t < maxThreads) {lhead : Nat} {n : Option Nat}
    (hl : Protects x g.asList t (.sizeProtectTail lhead n : Local κe κd)) :
    Leads (fun g' l' _ => Moves maxThreads t x g g' l')
      (step S maxThreads t i g (.sizeProtectTail lhead n)) := by
  refine .ite (fun htail => .into ?_) fun _ => .into <| .stay rfl hl.1
  exact ⟨_, .guardTail kHpTail (hl.2 _ htail.symm) ⟨ht, by decide⟩, hl.1.setGuard (by decide) _,
    hw.holdsTail_last⟩

end States

theorem step_moves (ht : t < maxThreads) (hw : Inv (Scanned maxThreads) x g.asList)
    (hl : Protects x g.asList t l) (hstep : step S maxThreads t i g l = some (g', l', es)) :
    Moves maxThreads t x g g' l' := by
  suffices hleads : Leads (fun g' l' _ => Moves maxThreads t x g g' l') (step S maxThreads t i g l)
    from hleads.of_some hstep
  cases l with
  | idle =>
      refine .map fun op _ => ?_
      cases op <;> exact .stay rfl (by simp [Protects])
  | enqLoadTail item | enqLoadStart item n | deqLoadHead => exact .into <| .stay rfl hl
  | enqProtect item ltail =>
      exact .into ⟨_, .publish kHpTail (some ltail), by simp [Protects, asList_setSlot]⟩
  | enqReload item ltail => exact enqReload_moves hw ht hl
  | enqLoadNext item ltail => exact enqLoadNext_moves hw hl
  | enqHelpTail item ltail lnext =>
      exact .ite (fun htail => .into <| swingTail_moves hl htail fun _ _ => trivial) fun _ =>
        .into <| .stay rfl trivial
  | enqSegment item ltail le =>
      refine .into <| .stay (asList_setSegment ..) ?_
      rcases (S.enqueueStep t i.ts item (g.nodes ltail).segment le).2.1 with _ | _ | _
      · exact hl
      · exact hl
      · trivial
  | enqNew item ltail start =>
      exact .ite (fun hfree => .into <| .of (.allocate i.addr hfree) (asList_new ..) ⟨hl, by simp⟩)
        fun _ => .nowhere
  | enqNewSegment item ltail newTail le =>
      refine .into <| .stay (asList_setSegment ..) ?_
      cases (S.enqueueStep t i.ts item (g.nodes newTail).segment le).2.1 <;> exact hl
  | enqCasNext item ltail newTail => exact enqCasNext_moves hw hl.1 hl.2
  | enqCasTail item ltail newTail =>
      refine .into ?_
      split
      · exact swingTail_moves hl ‹_› fun _ _ => trivial
      · exact .stay rfl trivial
  | enqDelete item newTail lnext =>
      exact .into <| .of (.discard newTail hl) (asList_delete ..) trivial
  | enqClear item => exact .into ⟨_, .publish kHpTail none, trivial⟩
  | deqProtect lhead =>
      exact .into ⟨_, .publish kHpHead (some lhead), by simp [Protects, asList_setSlot]⟩
  | deqReload lhead => exact deqReload_moves hw ht hl
  | deqSegment lhead ld | deqSegmentAgain lhead lnext ld =>
      refine .into <| .stay (asList_setSegment ..) ?_
      rcases (S.dequeueStep t i.ts (g.nodes lhead).segment ld).2.1 with _ | _ | _
      · exact hl
      · exact hl
      · trivial
  | deqLoadNext lhead => exact deqLoadNext_moves hw hl
  | deqCasHead lhead lnext => exact deqCasHead_moves hw hl
  | deqRetire lhead lnext => exact deqRetire_moves hw hl
  | deqScan lnext scan => exact deqScan_moves hw hl.1 hl.2
  | deqClear item => exact .into ⟨_, .publish kHpHead none, trivial⟩
  | sizeProtectHead n => exact sizeProtectHead_moves hw ht hl
  | sizePublishHead ret =>
      exact .into ⟨_, .publish kHpHead (some ret), by simp [Protects, asList_setSlot]⟩
  | sizeProtectTail lhead n => exact sizeProtectTail_moves hw ht hl
  | sizePublishTail lhead ret =>
      exact .into ⟨_, .publish kHpTail (some ret), Holds.setGuard hl (by decide) _,
        by simp [asList_setSlot]⟩
  | sizeLoadTail lhead ltail => exact .into <| .stay rfl hl.1
  | sizeLoadHead lhead t' => exact .into <| .stay rfl trivial
  | sizeClear ihp size =>
      refine .ite (fun _ => .into ?_) fun _ => .into ?_ <;>
        exact ⟨_, .publish ihp none, trivial⟩

end Steps

/-! ### Runs -/

/-- The list of segments as a rely-guarantee proof. -/
def reclaimInvariant (S : SegmentType σ κe κd) (maxThreads : Nat) :
    RelyGuarantee (program S maxThreads) (fun _ t _ => t < maxThreads) Ghost where
  glob w := Inv (Scanned maxThreads) w.ghost w.shared.asList
  loc w t l := Protects w.ghost w.shared.asList t l
  rely t w w' := Inv (Scanned maxThreads) w.ghost w.shared.asList
    ∧ ProtectedList.Rely t w.ghost w.shared.asList w'.ghost w'.shared.asList
  init := by
    refine ⟨_, Inv.single sentinel rfl (fun m => ?_) rfl rfl fun _ => rfl, fun _ => trivial⟩
    by_cases hm : m = sentinel
    · simp [Shared.asList, HazardPointers.asList, program, hm]
    · simp [Shared.asList, HazardPointers.asList, program, hm]
  stable h hl := hl.stable h.1 h.2
  step {x c t i g l es} ht hw hl hstep := by
    obtain ⟨x', hmove, hloc⟩ := step_moves ht hw (hl t) hstep
    exact ⟨x', hmove.inv hw, hloc, fun u hu => ⟨hw, hmove.rely hw hu⟩⟩

theorem Reach.keeps {c : Config (Shared σ) (Local κe κd) Event}
    (h : (program S maxThreads).Reach (fun _ t _ => t < maxThreads) c) {t : Tid} {s : Nat}
    (hs : (c.locals t).Keeps s ∨ (c.locals t).deletes = some s) :
    c.shared.status s = .allocated := by
  obtain ⟨x, hw, hl⟩ := (reclaimInvariant S maxThreads).holds h
  have hlt : Protects x c.shared.asList t (c.locals t) := hl t
  exact hlt.allocated hw hs

theorem Local.keeps_of_accesses {l : Local κe κd} {s : Nat} (h : l.accesses = some s) :
    l.Keeps s := by
  cases l with
  | enqNewSegment | enqCasNext | sizeLoadTail => simp_all [Local.Keeps, Local.accesses]
  | _ => first | exact h | cases h

/-- **Ring segments are reclaimed safely**: no thread accesses a segment that has been deleted, and
none is deleted twice, also when a deleted address is handed out again. -/
theorem reclaimSafe (S : SegmentType σ κe κd) (maxThreads : Nat)
    {c : Config (Shared σ) (Local κe κd) Event}
    (h : (program S maxThreads).Reach (fun _ t _ => t < maxThreads) c) : ReclaimSafe c :=
  ⟨fun _ _ hs => Reach.keeps h (.inl (Local.keeps_of_accesses hs)),
    fun _ _ hs => Reach.keeps h (.inr hs)⟩

/-- Rings of one cell. Thread 0 fills three segments, thread 1 drains two of them and deletes the
first, and thread 0 gets its address for the fourth. -/
def reuseSchedule : List (Tid × Input) :=
  List.replicate 14 (0, { op := some (.enqueue 7) })
    ++ List.replicate 23 (0, { op := some (.enqueue 8), addr := 1 })
    ++ List.replicate 23 (0, { op := some (.enqueue 9), addr := 2 })
    ++ List.replicate 90 (1, { op := some .dequeue })
    ++ List.replicate 14 (0, { op := some (.enqueue 10) })
    ++ List.replicate 23 (0, { op := some (.enqueue 11), addr := sentinel })

theorem reclaimSafe_reuse :
    ∃ c, (c.shared.head, c.shared.tail, c.shared.hp.retiredList 1) = (2, sentinel, [1])
      ∧ (LPRQueue.program (.identity 1 (by decide)) 2).Reach (fun _ t _ => t < 2) c
      ∧ ReclaimSafe c := by
  have hrun : ((LPRQueue.program (.identity 1 (by decide)) 2).execIf 2 (fun _ t _ => t < 2)
      (LPRQueue.program (.identity 1 (by decide)) 2).init reuseSchedule).map
      (fun c => (c.shared.head, c.shared.tail, c.shared.hp.retiredList 1))
      = some (2, sentinel, [1]) := by
    decide +kernel
  obtain ⟨c, hexec, heq⟩ := Option.map_eq_some_iff.mp hrun
  have hreach : (LPRQueue.program (.identity 1 (by decide)) 2).Reach (fun _ t _ => t < 2) c :=
    .execIf (fun _ _ _ _ hcheck => of_decide_eq_true hcheck) .init (fun _ _ => rfl) hexec
  exact ⟨c, heq, hreach, reclaimSafe _ 2 hreach⟩

end QueueFairness.LinkedRingQueue
