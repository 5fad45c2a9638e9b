import QueueFairness.FAAArrayQueue
import QueueFairness.Proof.HazardPointers

/-!
# Reclaiming array nodes

Between `casNext` and `casTail` dequeuers can move past a drained node and retire it while `tail`
still points to it. As with the ring segments, the list is one whose nodes are kept by the slot of
the thread that removed them, and no thread is left with a node that has been deleted. The one node
nobody disposes of is that of an enqueue that has lost the race to link it.
-/

namespace QueueFairness.FAAArrayQueue

open Interleaving HazardPointers LinkedList
open ProtectedList (Inv Move Holds HoldsTail HoldsNext Removed Settled Books)

variable {L : Layout} {maxThreads : Nat}

/-- The node that the thread's next step accesses. -/
def Local.accesses : Local → Option Nat
  | .enqFetchAdd _ ltail | .enqLoadNext _ ltail | .enqNewNode _ ltail | .enqCasNext _ ltail _
  | .enqCasCell _ ltail _ => some ltail
  | .deqFetchAdd lhead | .deqLoadNext lhead | .deqLoadCell lhead _ | .deqLoadEnqidx lhead _
  | .deqSpin lhead _ _ | .deqExchange lhead _ | .deqReloadEnqidx lhead _ | .deqCheckNext lhead _ _
  | .deqCasEnqidx lhead _ _ => some lhead
  | _ => none

/-- The node that the thread is about to delete. -/
def Local.deletes : Local → Option Nat
  | .deqScan (.erase _ obj) => some obj
  | _ => none

/-- No thread is about to access a node that is not allocated, or to delete one. -/
structure ReclaimSafe (c : Config Shared Local Event) : Prop where
  access : ∀ t n, (c.locals t).accesses = some n → c.shared.status n = .allocated
  delete : ∀ t n, (c.locals t).deletes = some n → c.shared.status n = .allocated

def nextNode (g : Shared) (n : Nat) : Option Nat := (g.nodes n).next

/-- The list of nodes. -/
def Shared.asList (g : Shared) : ProtectedList.State Nat :=
  HazardPointers.asList (nextNode g) g.status g.head g.tail g.hp

abbrev Ghost := ProtectedList.Ghost Nat

/-- What a thread protects. -/
def Protects (x : Ghost) (s : ProtectedList.State Nat) (t : Tid) : Local → Prop
  | .enqProtect _ n => ∀ ret, n = some ret → s.slot t kHpTail = some ret
  | .enqFetchAdd _ ltail | .enqCheckTail _ ltail | .enqLoadNext _ ltail | .enqNewNode _ ltail
  | .enqCasCell _ ltail _ => HoldsTail x t kHpTail ltail
  | .enqHelpTail _ ltail n | .enqNowLinked _ ltail n | .enqStampLinked _ ltail n _
  | .enqCasTail _ ltail n => HoldsNext x t kHpTail ltail n
  | .enqCasNext _ ltail n => HoldsTail x t kHpTail ltail ∧ x.owner n = some t
  | .deqProtect n => ∀ ret, n = some ret → s.slot t kHpHead = some ret
  | .deqFetchAdd lhead | .deqLoadNext lhead | .deqLoadCell lhead _ | .deqLoadEnqidx lhead _
  | .deqSpin lhead _ _ | .deqExchange lhead _ | .deqReloadEnqidx lhead _ | .deqCheckNext lhead _ _
  | .deqCasEnqidx lhead _ _ => Holds x t kHpHead lhead
  | .deqCasHead lhead lnext => HoldsNext x t kHpHead lhead lnext
  | .deqRetire lhead => ∃ p, x.guard t kHpHead = some p ∧ x.node p = lhead ∧ Removed x t p
      ∧ ∀ q ∈ x.dropped t, q < x.last
  | .deqScan scan => Settled x t ∧ ScanLoc x t scan
  | _ => True

def Local.removing : Local → Option Nat
  | .deqRetire lhead => some lhead
  | _ => none

def Local.unlinked : Local → Option Nat
  | .enqCasNext _ _ n => some n
  | _ => none

/-- The thread does not lose the race to link its node. -/
def LinksFirst (c : Config Shared Local Event) (t : Tid) : Prop :=
  ∀ item ltail n, c.locals t = .enqCasNext item ltail n → (c.shared.nodes ltail).next = none

/-- What a thread protects and has to dispose of. -/
structure ReclaimLoc (strict : Prop) (x : Ghost) (s : ProtectedList.State Nat) (t : Tid)
    (l : Local) : Prop where
  protects : Protects x s t l
  books : Books strict x t l.removing l.unlinked

section Steps

variable {strict : Prop} {t u : Tid} {i : Input} {g g' : Shared} {l l' : Local} {es : List Event}
  {x x' : Ghost} {s s' : ProtectedList.State Nat}

theorem Protects.stable (hl : Protects x s t l) (hw : Inv (Scanned maxThreads) x s)
    (h : ProtectedList.Rely t x s x' s') : Protects x' s' t l := by
  cases l with
  | enqProtect | deqProtect => exact fun ret hr => (congrFun h.slot _).trans (hl ret hr)
  | enqFetchAdd | enqCheckTail | enqLoadNext | enqNewNode | enqCasCell => exact h.holdsTail hw hl
  | enqHelpTail | enqNowLinked | enqStampLinked | enqCasTail | deqCasHead => exact h.holdsNext hl
  | enqCasNext => exact ⟨h.holdsTail hw hl.1, h.owner hl.2⟩
  | deqFetchAdd | deqLoadNext | deqLoadCell | deqLoadEnqidx | deqSpin | deqExchange
  | deqReloadEnqidx | deqCheckNext | deqCasEnqidx => exact h.holds hw hl
  | deqRetire =>
      obtain ⟨p, hp, hn, hremoved, hdropped⟩ := hl
      refine ⟨p, h.guard ▸ hp, (h.node (hw.guard hp).2.1).trans hn, h.removed_iff hremoved,
        fun q hq => ?_⟩
      rw [h.dropped] at hq
      exact Nat.lt_of_lt_of_le (hdropped q hq) h.last
  | deqScan => exact ⟨h.settled hl.1, hl.2.stable hw h⟩
  | _ => trivial

theorem Protects.allocated (hl : Protects x s t l) (hw : Inv (Scanned maxThreads) x s) {n : Nat}
    (hn : l.accesses = some n ∨ l.deletes = some n) : s.allocated n := by
  cases l with
  | enqFetchAdd item m | enqLoadNext item m | enqNewNode item m | enqCasCell item m idx =>
      obtain rfl : m = n := Option.some.inj (hn.resolve_right (by simp [Local.deletes]))
      exact hl.holds.allocated hw
  | enqCasNext item m k =>
      obtain rfl : m = n := Option.some.inj (hn.resolve_right (by simp [Local.deletes]))
      exact hl.1.holds.allocated hw
  | deqFetchAdd m | deqLoadNext m | deqLoadCell m idx | deqLoadEnqidx m idx | deqSpin m idx k
  | deqExchange m idx | deqReloadEnqidx m idx | deqCheckNext m idx e | deqCasEnqidx m idx e =>
      obtain rfl : m = n := Option.some.inj (hn.resolve_right (by simp [Local.deletes]))
      exact Holds.allocated hl hw
  | deqScan scan =>
      cases scan with
      | load => simp [Local.accesses, Local.deletes] at hn
      | erase iret obj =>
          obtain rfl : obj = n := Option.some.inj (hn.resolve_left (by simp [Local.accesses]))
          obtain ⟨q, hq, rfl, -⟩ := hl.2
          obtain ⟨-, hlt, halive⟩ := hw.dropped (List.mem_of_getElem? hq)
          exact (hw.alive (Nat.lt_trans hlt hw.first_lt) halive).1
  | _ => simp [Local.accesses, Local.deletes] at hn

/-! ### The queue's steps on the list -/

theorem asList_setNode (g : Shared) (n : Nat) (node : Node) (hnext : node.next = (g.nodes n).next) :
    (g.setNode n node).asList = g.asList := by
  have hnext : nextNode (g.setNode n node) = nextNode g := by
    funext m
    by_cases hm : m = n
    · simp [nextNode, Shared.setNode, hm, hnext]
    · simp [nextNode, Shared.setNode, hm]
  simp only [Shared.asList, hnext]
  rfl

theorem asList_setCell (g : Shared) (n : Nat) (idx : Int) (v : Slot) :
    (g.setCell L n idx v).asList = g.asList :=
  asList_setNode g n _ rfl

theorem asList_setSlot (g : Shared) (t : Tid) (j : Nat) (n : Option Nat) :
    (g.setSlot t j n).asList = { g.asList with
      slot := Function.update g.asList.slot t (Function.update (g.asList.slot t) j n) } := rfl

theorem asList_setNext (g : Shared) (n m : Nat) :
    (g.setNode n { g.nodes n with next := some m }).asList
      = { g.asList with next := Function.update g.asList.next n (some m) } := by
  have hnext : nextNode (g.setNode n { g.nodes n with next := some m })
      = Function.update (nextNode g) n (some m) := by
    funext k
    by_cases hk : k = n
    · simp [nextNode, Shared.setNode, hk]
    · simp [nextNode, Shared.setNode, hk]
  simp only [Shared.asList, hnext]
  rfl

theorem asList_new (g : Shared) (n : Nat) (node : Node) (hnext : node.next = none) :
    ((g.setStatus n .allocated).setNode n node).asList
      = { g.asList with
          allocated := Function.update g.asList.allocated n True
          next := Function.update g.asList.next n none } := by
  simp only [Shared.asList, HazardPointers.asList, ProtectedList.State.mk.injEq]
  refine ⟨?_, ?_, rfl, rfl, rfl, rfl⟩
  · funext k
    by_cases hk : k = n
    · simp [nextNode, Shared.setNode, hnext, hk]
    · simp [nextNode, Shared.setNode, Shared.setStatus, hk]
  · funext k
    by_cases hk : k = n
    · simp [Shared.setNode, Shared.setStatus, hk]
    · simp [Shared.setNode, Shared.setStatus, hk]

theorem asList_scan (g : Shared) (H : HazardPointers) (freed : Option Nat) :
    (freed.elim { g with hp := H } (Shared.setStatus { g with hp := H } · .deleted)).asList
      = HazardPointers.asList (nextNode g)
        (freed.elim g.status fun n => Function.update g.status n .deleted) g.head g.tail H := by
  cases freed <;> rfl

/-- What a step of thread `t` has to achieve. -/
def Moves (strict : Prop) (maxThreads : Nat) (t : Tid) (x : Ghost) (g g' : Shared) (l' : Local) :
    Prop :=
  ∃ x', Move (Scanned maxThreads) t x g.asList x' g'.asList ∧ ReclaimLoc strict x' g'.asList t l'

theorem Moves.stay (hg : g'.asList = g.asList) (hl : Protects x g.asList t l')
    (hb : Books strict x t l'.removing l'.unlinked) : Moves strict maxThreads t x g g' l' := by
  unfold Moves
  rw [hg]
  exact ⟨x, .stay, hl, hb⟩

theorem Moves.of (hmove : Move (Scanned maxThreads) t x g.asList x' s') (hg : g'.asList = s')
    (hl : Protects x' s' t l') (hb : Books strict x' t l'.removing l'.unlinked) :
    Moves strict maxThreads t x g g' l' := by
  subst hg
  exact ⟨x', hmove, hl, hb⟩

/-- A compare-and-swap of `tail` by a thread that protects the node it expects. -/
theorem moves_casTail {n m : Nat} (hl : HoldsNext x t kHpTail n m) (hl' : Protects x g.asList t l')
    (hp : ∀ s s' : ProtectedList.State Nat, ∀ x' : Ghost, Protects x s t l' → Protects x' s' t l')
    (hb : Books strict x t l'.removing l'.unlinked) :
    Moves strict maxThreads t x g (if g.tail = n then { g with tail := m } else g) l' := by
  obtain ⟨p, hguard, hn, hlt, hm⟩ := hl
  split
  · rename_i htail
    have hmove : Move (Scanned maxThreads) t x g.asList _ _ := .swingTail kHpTail p hguard
      (htail.trans hn.symm) hlt
    rw [hm] at hmove
    exact .of hmove rfl (hp _ _ _ hl') ⟨hb.removed, hb.owned⟩
  · exact .stay rfl hl' hb

/-! One lemma for each control state whose step moves the list. -/

section States

variable (hw : Inv (Scanned maxThreads) x g.asList)

include hw

theorem enqProtect_moves (ht : t < maxThreads) {item : Nat} {n : Option Nat}
    (hl : ReclaimLoc strict x g.asList t (.enqProtect item n)) :
    Leads (fun g' l' _ => Moves strict maxThreads t x g g' l')
      (reusingStep L maxThreads t i g (.enqProtect item n)) := by
  refine .ite (fun htail => .into ?_) fun _ => .into <| .stay rfl trivial hl.books
  exact .of (.guardTail kHpTail (hl.protects _ htail.symm) ⟨ht, by decide⟩) rfl hw.holdsTail_last
    ⟨hl.books.removed, hl.books.owned⟩

theorem enqLoadNext_moves {item ltail : Nat}
    (hl : ReclaimLoc strict x g.asList t (.enqLoadNext item ltail)) :
    Leads (fun g' l' _ => Moves strict maxThreads t x g g' l')
      (reusingStep L maxThreads t i g (.enqLoadNext item ltail)) := by
  obtain ⟨hl, hb⟩ := hl
  simp only [reusingStep, step]
  split
  · exact .into <| .stay rfl hl hb
  · rename_i lnext hnext
    exact .into <| .stay rfl (hl.holds.next hw hnext) hb

/-- The thread's node becomes the last of the list, or is forgotten. -/
theorem enqCasNext_moves {item ltail n : Nat}
    (hl : ReclaimLoc strict x g.asList t (.enqCasNext item ltail n))
    (hok : strict → (g.nodes ltail).next = none) :
    Leads (fun g' l' _ => Moves strict maxThreads t x g g' l')
      (reusingStep L maxThreads t i g (.enqCasNext item ltail n)) := by
  obtain ⟨⟨⟨p, hp, hn, hlast⟩, howner⟩, hb⟩ := hl
  refine .ite (fun hnext => .into ?_) fun hnext => .into ?_
  · have hnone : g.asList.next (x.node p) = none := by
      rw [hn]
      exact hnext
    have hmove : Move (Scanned maxThreads) t x g.asList _ _ :=
      .link kHpTail p n hp hlast hnone howner
    rw [hn] at hmove
    refine .of hmove (asList_setNext ..) ⟨p, hp, ?_, ?_, ?_⟩ (hb.link hw)
    · simpa [Nat.ne_of_lt (hw.guard hp).2.1] using hn
    · simp [hw.eq_end hp hnone]
    · simp [hw.eq_end hp hnone]
  · exact .stay rfl (by simp [Protects]) (hb.forget fun hs => hnext (hok hs))

theorem deqProtect_moves (ht : t < maxThreads) {n : Option Nat}
    (hl : ReclaimLoc strict x g.asList t (.deqProtect n)) :
    Leads (fun g' l' _ => Moves strict maxThreads t x g g' l')
      (reusingStep L maxThreads t i g (.deqProtect n)) := by
  refine .ite (fun hhead => .into ?_) fun _ => .into <| .stay rfl trivial hl.books
  exact .of (.guardHead kHpHead (hl.protects _ hhead.symm) ⟨ht, by decide⟩) rfl hw.holds_first
    ⟨hl.books.removed, hl.books.owned⟩

theorem deqLoadNext_moves {lhead : Nat}
    (hl : ReclaimLoc strict x g.asList t (.deqLoadNext lhead)) :
    Leads (fun g' l' _ => Moves strict maxThreads t x g g' l')
      (reusingStep L maxThreads t i g (.deqLoadNext lhead)) := by
  simp only [reusingStep, step]
  split
  · exact .into <| .stay rfl trivial hl.books
  · rename_i lnext hnext
    exact .into <| .stay rfl (Holds.next hl.protects hw hnext) hl.books

/-- The node taken off `head` is this thread's to retire. -/
theorem deqCasHead_moves {lhead lnext : Nat}
    (hl : ReclaimLoc strict x g.asList t (.deqCasHead lhead lnext)) :
    Leads (fun g' l' _ => Moves strict maxThreads t x g g' l')
      (reusingStep L maxThreads t i g (.deqCasHead lhead lnext)) := by
  obtain ⟨⟨p, hp, hn, hlt, hm⟩, hb⟩ := hl
  refine .ite (fun hhead => .into ?_) fun _ => .into <| .stay rfl (by simp [Protects]) hb
  have hhead : g.asList.head = x.node p := hhead.trans hn.symm
  have hmove : Move (Scanned maxThreads) t x g.asList _ _ := .swingHead kHpHead p hp hhead hlt
  rw [hm] at hmove
  obtain rfl := hw.eq_first hp hhead
  refine .of hmove rfl ⟨x.first, hp, hn, ⟨by simp, Nat.lt_succ_self _, hw.first_alive,
    fun hd => ?_⟩, fun q hq => hw.lt_last (hw.dropped hq).2.1 hlt⟩ (hn ▸ hb.swingHead)
  exact Nat.lt_irrefl _ (hw.dropped hd).2.1

theorem deqRetire_moves {lhead : Nat} (hl : ReclaimLoc strict x g.asList t (.deqRetire lhead)) :
    Leads (fun g' l' _ => Moves strict maxThreads t x g g' l')
      (reusingStep L maxThreads t i g (.deqRetire lhead)) := by
  obtain ⟨⟨p, hp, rfl, hremoved, hdropped⟩, hb⟩ := hl
  refine .into ?_
  have hmove : Move (Scanned maxThreads) t x g.asList _ _ := .retire p hremoved
  have hsettled := ProtectedList.settled_of_guard
    (x := { x with dropped := Function.update x.dropped t (x.dropped t ++ [p]) }) hp
    fun q hq hqp => hdropped q (by simpa [hqp] using hq)
  have hbooks := Books.retire hb hw hremoved
  cases hscan : scanFrom maxThreads (g.hp.retiredList t ++ [x.node p]) 0 with
  | none => exact .of hmove rfl (by simp [Protects, afterScan]) hbooks
  | some scan =>
      refine .of hmove rfl ⟨hsettled, scanLoc_scanFrom (hmove.inv hw) hsettled 0 ?_⟩ hbooks
      simpa [Shared.asList, HazardPointers.asList] using hscan

theorem deqScan_moves {scan : Scan} (hl : ReclaimLoc strict x g.asList t (.deqScan scan)) :
    Leads (fun g' l' _ => Moves strict maxThreads t x g g' l')
      (reusingStep L maxThreads t i g (.deqScan scan)) := by
  obtain ⟨⟨hsettled, hscan⟩, hb⟩ := hl
  obtain ⟨x', hmove, hsettled', hscan', hbooks⟩ := scanStep_moves hw hsettled hscan
  refine .into ?_
  cases hres : (scanStep maxThreads t g.hp scan).2.1 with
  | none => exact .of hmove (asList_scan ..) (by simp [Protects, afterScan]) (hbooks hb)
  | some scan' => exact .of hmove (asList_scan ..) ⟨hsettled', hscan' scan' hres⟩ (hbooks hb)

end States

theorem step_moves (ht : t < maxThreads) (hw : Inv (Scanned maxThreads) x g.asList)
    (hl : ReclaimLoc strict x g.asList t l)
    (hok : strict → ∀ item ltail n, l = .enqCasNext item ltail n → (g.nodes ltail).next = none)
    (hstep : reusingStep L maxThreads t i g l = some (g', l', es)) :
    Moves strict maxThreads t x g g' l' := by
  suffices hleads : Leads (fun g' l' _ => Moves strict maxThreads t x g g' l')
      (reusingStep L maxThreads t i g l) from hleads.of_some hstep
  obtain ⟨hp, hb⟩ := id hl
  cases l with
  | idle =>
      refine .map fun op _ => ?_
      cases op <;> exact .stay rfl (by simp [Protects]) hb
  | enqProtect item n => exact enqProtect_moves hw ht hl
  | enqPublish item ret =>
      exact .into <| .of (.publish kHpTail (some ret)) (asList_setSlot ..) (by simp [Protects])
        ⟨hb.removed, hb.owned⟩
  | enqFetchAdd item ltail =>
      refine .ite (fun _ => .into ?_) fun _ => .into ?_ <;>
        exact .stay (asList_setNode _ _ _ rfl) hp hb
  | enqCheckTail item ltail =>
      refine .ite (fun _ => .into ?_) fun _ => .into ?_
      · exact .stay rfl (by simp [Protects]) hb
      · exact .stay rfl hp hb
  | enqLoadNext item ltail => exact enqLoadNext_moves hw hl
  | enqHelpTail item ltail lnext =>
      exact .into <| moves_casTail hp (by simp [Protects]) (by simp [Protects]) hb
  | enqNewNode item ltail =>
      refine .ite (fun hfree => .into ?_) fun _ => .nowhere
      exact .of (.allocate i.addr hfree) (asList_new _ _ _ rfl) ⟨hp, by simp⟩ hb.allocate
  | enqCasNext item ltail n => exact enqCasNext_moves hw hl fun hs => hok hs _ _ _ rfl
  | enqNowLinked item ltail n | enqStampLinked item ltail n ts => exact .into <| .stay rfl hp hb
  | enqCasTail item ltail n =>
      exact .into <| moves_casTail hp trivial (fun _ _ _ _ => trivial) hb
  | enqCasCell item ltail idx =>
      refine .ite (fun _ => .nowhere) fun _ => .ite (fun _ => .into ?_) fun _ => .into ?_
      · exact .stay (asList_setCell ..) trivial hb
      · exact .stay rfl (by simp [Protects]) hb
  | enqNowCell item | enqStampCell item ts => exact .into <| .stay rfl trivial hb
  | enqClear item =>
      exact .into <| .of (.publish kHpTail none) (asList_setSlot ..) trivial
        ⟨hb.removed, hb.owned⟩
  | deqProtect n => exact deqProtect_moves hw ht hl
  | deqPublish ret =>
      exact .into <| .of (.publish kHpHead (some ret)) (asList_setSlot ..) (by simp [Protects])
        ⟨hb.removed, hb.owned⟩
  | deqFetchAdd lhead =>
      refine .ite (fun _ => .into ?_) fun _ => .into ?_ <;>
        exact .stay (asList_setNode _ _ _ rfl) hp hb
  | deqLoadNext lhead => exact deqLoadNext_moves hw hl
  | deqCasHead lhead lnext => exact deqCasHead_moves hw hl
  | deqRetire lhead => exact deqRetire_moves hw hl
  | deqScan scan => exact deqScan_moves hw hl
  | deqLoadCell lhead idx =>
      refine .ite (fun _ => .nowhere) fun _ => .ite (fun _ => .into ?_) fun _ => .into ?_ <;>
        exact .stay rfl hp hb
  | deqLoadEnqidx lhead idx | deqSpin lhead idx n | deqReloadEnqidx lhead idx
  | deqCheckNext lhead idx e =>
      refine .ite (fun _ => .into ?_) fun _ => .into ?_ <;> exact .stay rfl hp hb
  | deqExchange lhead idx =>
      refine .ite (fun _ => .into ?_) fun _ => .into ?_
      · exact .stay (asList_setCell ..) hp hb
      · exact .stay (asList_setCell ..) trivial hb
  | deqNowLin v | deqStampLin v ts => exact .into <| .stay rfl trivial hb
  | deqCasEnqidx lhead idx e =>
      refine .into <| .stay ?_ trivial hb
      split
      · exact asList_setNode _ _ _ rfl
      · rfl
  | deqClear v =>
      exact .into <| .of (.publish kHpHead none) (asList_setSlot ..) trivial
        ⟨hb.removed, hb.owned⟩

end Steps

/-! ### Runs -/

/-- The list of nodes as a rely-guarantee proof; in a strict run no thread loses the race to
link. -/
def reclaimInvariant (strict : Prop) (L : Layout) (maxThreads : Nat) :
    RelyGuarantee (reusingProgram L maxThreads)
      (fun c t _ => t < maxThreads ∧ (strict → LinksFirst c t)) Ghost where
  glob w := Inv (Scanned maxThreads) w.ghost w.shared.asList
  loc w t l := ReclaimLoc strict w.ghost w.shared.asList t l
  rely t w w' := Inv (Scanned maxThreads) w.ghost w.shared.asList
    ∧ ProtectedList.Rely t w.ghost w.shared.asList w'.ghost w'.shared.asList
  init := by
    refine ⟨_, Inv.single sentinelNode rfl (fun m => ?_) rfl rfl fun _ => rfl, fun _ =>
      ⟨trivial, ⟨fun hr => (by cases hr), fun _ _ ho => (by cases ho)⟩⟩⟩
    by_cases hm : m = sentinelNode
    · simp [Shared.asList, HazardPointers.asList, reusingProgram, program, hm]
    · simp [Shared.asList, HazardPointers.asList, reusingProgram, program, hm]
  stable h hl := ⟨hl.protects.stable h.1 h.2, h.2.books h.1 hl.books⟩
  step {x c t i g l es} hok hw hl hstep := by
    obtain ⟨x', hmove, hloc⟩ := step_moves hok.1 hw (hl t) hok.2 hstep
    exact ⟨x', hmove.inv hw, hloc, fun u hu => ⟨hw, hmove.rely hw hu⟩⟩

/-- **Array nodes are reclaimed safely**: no thread accesses a node that has been deleted, and none
is deleted twice, also when a deleted address is handed out again. -/
theorem nodes_reclaimSafe (L : Layout) (maxThreads : Nat) {c : Config Shared Local Event}
    (h : (reusingProgram L maxThreads).Reach (fun _ t _ => t < maxThreads) c) : ReclaimSafe c := by
  obtain ⟨x, hw, hl⟩ := (reclaimInvariant False L maxThreads).holds
    (h.mono fun _ _ _ ht => ⟨ht, False.elim⟩)
  have hl : ∀ t, ReclaimLoc False x c.shared.asList t (c.locals t) := hl
  exact ⟨fun t n hn => (hl t).protects.allocated hw (.inl hn),
    fun t n hn => (hl t).protects.allocated hw (.inr hn)⟩

/-- Nodes of one cell. Thread 0 fills three nodes, thread 1 drains two of them and deletes the
first, and thread 0 gets its address for the fourth. -/
def reuseSchedule : List (Tid × Input) :=
  List.replicate 9 (0, { op := some (.enqueue 7) })
    ++ List.replicate 13 (0, { op := some (.enqueue 8), addr := 1 })
    ++ List.replicate 13 (0, { op := some (.enqueue 9), addr := 2 })
    ++ List.replicate 55 (1, { op := some .dequeue })
    ++ List.replicate 13 (0, { op := some (.enqueue 10), addr := sentinelNode })

def linksFirstCheck (c : Config Shared Local Event) (t : Tid) : Bool :=
  match c.locals t with
  | .enqCasNext _ ltail _ => (c.shared.nodes ltail).next = none
  | _ => true

theorem linksFirst_of_check {c : Config Shared Local Event} {t : Tid}
    (h : linksFirstCheck c t = true) : LinksFirst c t := by
  intro item ltail n hl
  simpa [linksFirstCheck, hl] using h

theorem reuseSchedule_run :
    ((reusingProgram (.identity 1 (by decide)) 2).execIf 2
      (fun c t _ => decide (t < 2) && linksFirstCheck c t)
      (reusingProgram (.identity 1 (by decide)) 2).init reuseSchedule).map
      (fun c => (c.shared.head, c.shared.tail, c.shared.hp.retiredList 1))
      = some (2, sentinelNode, [1]) := by
  decide +kernel

theorem nodes_reclaimSafe_reuse :
    ∃ c, (c.shared.head, c.shared.tail, c.shared.hp.retiredList 1) = (2, sentinelNode, [1])
      ∧ (reusingProgram (.identity 1 (by decide)) 2).Reach (fun _ t _ => t < 2) c
      ∧ ReclaimSafe c := by
  obtain ⟨c, hexec, heq⟩ := Option.map_eq_some_iff.mp reuseSchedule_run
  have hreach : (reusingProgram (.identity 1 (by decide)) 2).Reach (fun _ t _ => t < 2) c :=
    .execIf (fun _ _ _ _ hcheck => of_decide_eq_true ((Bool.and_eq_true _ _).mp hcheck).1) .init
      (fun _ _ => rfl) hexec
  exact ⟨c, heq, hreach, nodes_reclaimSafe _ 2 hreach⟩

/-- With no operation in progress, `head` leads to every node that was created, or it is on some
thread's list, or it has been deleted. -/
def NoLeak (c : Config Shared Local Event) : Prop :=
  (∀ t, c.locals t = .idle) → ∃ nodes, Path (nextNode c.shared) (some c.shared.head) nodes
    ∧ ∀ n, c.shared.status n ≠ .unallocated →
      n ∈ nodes ∨ (∃ t, n ∈ c.shared.hp.retiredList t) ∨ c.shared.status n = .deleted

/-- **No node is leaked** in the runs in which no enqueue loses the race to link its node. -/
theorem noLeak_of_linksFirst (L : Layout) (maxThreads : Nat) {c : Config Shared Local Event}
    (h : (reusingProgram L maxThreads).Reach (fun c t _ => t < maxThreads ∧ LinksFirst c t) c) :
    NoLeak c := by
  intro hidle
  obtain ⟨x, hw, hl⟩ := (reclaimInvariant True L maxThreads).holds
    (h.mono fun _ _ _ hok => ⟨hok.1, fun _ => hok.2⟩)
  have hl : ∀ t, ReclaimLoc True x c.shared.asList t (c.locals t) := hl
  have hbooks : ∀ t, Books True x t none none := fun t => by
    simpa [hidle t, Local.removing, Local.unlinked] using (hl t).books
  obtain ⟨nodes, hpath, hnodes⟩ := ProtectedList.Inv.no_leak hw hbooks
  refine ⟨nodes, hpath, fun n hn => ?_⟩
  cases hstatus : c.shared.status n with
  | unallocated => exact absurd hstatus hn
  | deleted => exact .inr (.inr rfl)
  | allocated => exact (hnodes n hstatus).imp_right .inl

theorem noLeak_of_linksFirst_reuse :
    ∃ c, (c.shared.head, c.shared.tail, c.shared.hp.retiredList 1) = (2, sentinelNode, [1])
      ∧ (reusingProgram (.identity 1 (by decide)) 2).Reach
        (fun c t _ => t < 2 ∧ LinksFirst c t) c
      ∧ NoLeak c := by
  obtain ⟨c, hexec, heq⟩ := Option.map_eq_some_iff.mp reuseSchedule_run
  have hreach : (reusingProgram (.identity 1 (by decide)) 2).Reach
      (fun c t _ => t < 2 ∧ LinksFirst c t) c := by
    refine .execIf (fun c t _ _ hcheck => ?_) .init (fun _ _ => rfl) hexec
    obtain ⟨ht, hlinks⟩ := (Bool.and_eq_true _ _).mp hcheck
    exact ⟨of_decide_eq_true ht, linksFirst_of_check hlinks⟩
  exact ⟨c, heq, hreach, noLeak_of_linksFirst _ 2 hreach⟩

/-- Nodes of one cell. Thread 0 fills the first node and creates node 1 for its second item; thread
1 creates node 2 and links it; thread 0 finds that out and starts again with node 3. -/
def lostRaceSchedule : List (Tid × Input) :=
  List.replicate 9 (0, { op := some (.enqueue 7) })
    ++ List.replicate 8 (0, { op := some (.enqueue 8), addr := 1 })
    ++ List.replicate 13 (1, { op := some (.enqueue 9), addr := 2 })
    ++ List.replicate 13 (0, { addr := 3 })

/-- The node of an enqueue that loses the race to link it is leaked. -/
theorem not_noLeak_lostRace :
    ¬ ∀ c, (reusingProgram (.identity 1 (by decide)) 2).Reach (fun _ t _ => t < 2) c →
      NoLeak c := by
  intro hall
  have hrun : ((reusingProgram (.identity 1 (by decide)) 2).execIf 2 (fun _ t _ => t < 2)
      (reusingProgram (.identity 1 (by decide)) 2).init lostRaceSchedule).map
      (fun c => ((c.locals 0, c.locals 1), c.shared.hp.retiredList, c.shared.status 1,
        c.shared.head, [0, 2, 3].map (nextNode c.shared)))
      = some ((.idle, .idle), (fun _ => []), .allocated, 0, [some 2, some 3, none]) := by
    rfl
  obtain ⟨c, hexec, heq⟩ := Option.map_eq_some_iff.mp hrun
  simp only [Prod.mk.injEq, List.map_cons, List.map_nil, List.cons.injEq, and_true] at heq
  obtain ⟨⟨hidle₀, hidle₁⟩, hretired, hstatus, hhead, hnext₀, hnext₂, hnext₃⟩ := heq
  have hreach : (reusingProgram (.identity 1 (by decide)) 2).Reach (fun _ t _ => t < 2) c :=
    .execIf (fun _ _ _ _ hcheck => of_decide_eq_true hcheck) .init (fun _ _ => rfl) hexec
  have hidle : ∀ t, c.locals t = .idle := by
    intro t
    match t with
    | 0 => exact hidle₀
    | 1 => exact hidle₁
    | t + 2 => exact Program.execIf_idle (fun _ _ => rfl) hexec (t + 2) (Nat.le_add_left 2 t)
  have hlist : Path (nextNode c.shared) (some 0) [0, 2, 3] := by
    refine .cons (hnext₀ ▸ .cons (hnext₂ ▸ .cons (hnext₃ ▸ .nil)))
  obtain ⟨nodes, hpath, hnodes⟩ := hall c hreach hidle
  rw [hhead] at hpath
  obtain rfl := hpath.unique hlist
  rcases hnodes 1 (by simp [hstatus]) with hmem | ⟨t, ht⟩ | hdeleted
  · exact absurd hmem (by decide)
  · simp [hretired] at ht
  · exact absurd (hstatus.symm.trans hdeleted) (by decide)

end QueueFairness.FAAArrayQueue
