import Mathlib.Data.List.Perm.Subperm
import QueueFairness.Proof.LinkedRingSegment

/-!
# Where the items of a ring queue are

What the list needs to know of its segments, and the account of items that follows: what enqueues
have finished with, dequeues have returned or the segments hold.
-/

namespace QueueFairness.LinkedRingQueue

open Interleaving LinkedList

variable {σ κe κd : Type}

/-- No enqueue draws another ticket of the segment. -/
def Closed (S : SegmentType σ κe κd) (s : σ) : Prop := (S.base s).tail.flag = true

/-- The segment is closed, and every ticket an enqueue has drawn is a dequeue's as well. -/
def Drained (S : SegmentType σ κe κd) (s : σ) (h : List SegmentEvent) : Prop :=
  Closed S s ∧ ∀ t k, .drawTail t k ∈ h → k < (S.base s).head

/-- An item with the thread that has to do with it. -/
def pairs (t : Tid) (item : Option Nat) : List (Tid × Nat) := item.toList.map (t, ·)

/-- What the list needs to know of a segment type, in runs whose steps satisfy `ok`. `deposited` are
the points of an enqueue at which its item is in the segment, `held` the item a dequeue has taken
out, and `emptied` the points of a dequeue from which it will return nothing. `alone` is what an
enqueue finds in a new segment. -/
structure SegmentSpec (S : SegmentType σ κe κd)
    (ok : Config σ (SegmentLocal κe κd) SegmentEvent → Tid → Prop) where
  stored : σ → List Nat
  deposited : κe → Bool
  held : κd → Option Nat
  emptied : κd → Bool
  alone : Tid → σ → κe → Prop
  ok_idle : ∀ {c t}, c.locals t = .idle → ok c t
  enqueue_start : deposited S.enqueue = false
  dequeue_start : held S.dequeue = none ∧ emptied S.dequeue = false
  enqueue_events : ∀ t now item s l,
    pairs t (bif deposited l then some item else none)
        ++ (S.enqueueStep t now item s l).2.2.filterMap depositOf
      = pairs t (bif (S.enqueueStep t now item s l).2.1.elim deposited id then some item else none)
    ∧ (S.enqueueStep t now item s l).2.2.filterMap takeOf = []
  dequeue_events : ∀ t now s l,
    pairs t (held l) ++ (S.dequeueStep t now s l).2.2.filterMap takeOf
      = pairs t ((S.dequeueStep t now s l).2.1.elim held id)
    ∧ (S.dequeueStep t now s l).2.2.filterMap depositOf = []
  account : ∀ {start c}, (segmentProgram S start).Reach (fun c t _ => ok c t) c →
    ((c.history.filterMap depositOf).map Prod.snd).Perm
      ((c.history.filterMap takeOf).map Prod.snd ++ stored c.shared)
  stored_drained : ∀ {start c}, (segmentProgram S start).Reach (fun c t _ => ok c t) c →
    (∀ t, c.locals t = .idle) → Drained S c.shared c.history → stored c.shared = []
  closed_step : ∀ {start c t i s l es}, (segmentProgram S start).Reach (fun c t _ => ok c t) c →
    ok c t → segmentStep S t i c.shared (c.locals t) = some (s, l, es) →
    (S.base c.shared).head ≤ (S.base s).head
      ∧ (Closed S c.shared → Closed S s ∧ ∀ u k, .drawTail u k ∉ es)
  refused : ∀ {t now item s l}, (S.enqueueStep t now item s l).2.1 = .inr false →
    Closed S (S.enqueueStep t now item s l).1
  emptied_step : ∀ {start c t now l}, (segmentProgram S start).Reach (fun c t _ => ok c t) c →
    ok c t → c.locals t = .dequeue l → Closed S c.shared →
    (S.dequeueStep t now c.shared l).2.1.elim emptied (fun r => r.isNone) = true →
    emptied l = true ∨ Drained S c.shared c.history
  alone_start : ∀ t start, alone t (S.new start) S.enqueue
  alone_step : ∀ {t s l} now item, alone t s l →
    (S.enqueueStep t now item s l).2.1.elim (alone t (S.enqueueStep t now item s l).1) (· = true)

/-! ### The items of the listed segments -/

/-- What the segments of the list have to tell. -/
def inChain (f : SegmentEvent → Option (Tid × Nat)) (h : List Event) : List (Tid × Nat) :=
  (chain h).flatMap fun s => (h.filterMap (segmentEvent s)).filterMap f

section History

variable {f : SegmentEvent → Option (Tid × Nat)} {h es : List Event}

/-- A list of lists grows where one of them does. -/
theorem flatMap_perm {f g : Nat → List (Tid × Nat)} {l : List Nat} {n : Nat}
    {more : List (Tid × Nat)} (hnodup : l.Nodup) (hn : n ∈ l) (hself : g n = f n ++ more)
    (hothers : ∀ m ∈ l, m ≠ n → g m = f m) : (l.flatMap g).Perm (l.flatMap f ++ more) := by
  obtain ⟨before, after, rfl⟩ := List.append_of_mem hn
  have hdisjoint := List.nodup_append.mp hnodup
  have hbefore : before.flatMap g = before.flatMap f := List.flatMap_congr fun m hm =>
    hothers m (by simp [hm]) fun heq => hdisjoint.2.2 m hm n (by simp) heq
  have hafter : after.flatMap g = after.flatMap f := List.flatMap_congr fun m hm =>
    hothers m (by simp [hm]) fun heq =>
      (List.nodup_cons.mp hdisjoint.2.1).1 (heq ▸ hm)
  simp only [List.flatMap_append, List.flatMap_cons, hbefore, hafter, hself, List.append_assoc]
  exact (List.perm_append_comm.append_left _).append_left _

theorem inChain_same (hlink : es.filterMap linkedSegment = [])
    (hes : ∀ s ∈ chain h, es.filterMap (segmentEvent s) = []) :
    inChain f (h ++ es) = inChain f h := by
  have hchain : chain (h ++ es) = chain h := by rw [chain_append, hlink, List.append_nil]
  unfold inChain
  rw [hchain]
  refine List.flatMap_congr fun s hs => ?_
  rw [List.filterMap_append, hes s hs, List.append_nil]

theorem filterMap_segment {β : Type} {f : Event → Option β} {s : Nat}
    (hf : ∀ e, f (.segment s e) = none) (es : List SegmentEvent) :
    (es.map (.segment s)).filterMap f = [] := by
  refine List.filterMap_eq_nil_iff.mpr fun e he => ?_
  obtain ⟨e', -, rfl⟩ := List.mem_map.mp he
  exact hf e'

theorem inChain_segment {s : Nat} {es : List SegmentEvent} (hnodup : (chain h).Nodup)
    (hs : s ∈ chain h) :
    (inChain f (h ++ es.map (.segment s))).Perm (inChain f h ++ es.filterMap f) := by
  have hchain : chain (h ++ es.map (.segment s)) = chain h := by
    rw [chain_append, filterMap_segment fun _ => rfl, List.append_nil]
  unfold inChain
  rw [hchain]
  refine flatMap_perm hnodup hs ?_ fun n _ hn => ?_
  · rw [List.filterMap_append, filterMap_segmentEvent, if_pos rfl, List.filterMap_append]
  · rw [List.filterMap_append, filterMap_segmentEvent, if_neg (Ne.symm hn), List.append_nil]

theorem inChain_link {t : Tid} {s : Nat} : inChain f (h ++ [.link t s])
    = inChain f h ++ (h.filterMap (segmentEvent s)).filterMap f := by
  have hchain : chain (h ++ [.link t s]) = chain h ++ [s] := by simp [chain, linkedSegment]
  have hnone : ∀ n, [Event.link t s].filterMap (segmentEvent n) = [] := fun _ => rfl
  unfold inChain
  simp only [hchain, List.filterMap_append, hnone, List.append_nil, List.flatMap_append,
    List.flatMap_cons, List.flatMap_nil]

end History

/-! ### The account of a thread -/

section Account

variable {S : SegmentType σ κe κd} {okS : Config σ (SegmentLocal κe κd) SegmentEvent → Tid → Prop}
  (spec : SegmentSpec S okS) {maxThreads : Nat}

/-- The item the thread is enqueuing. -/
def Local.enqueuing : Local κe κd → Option Nat
  | .enqLoadTail item | .enqProtect item _ | .enqReload item _ | .enqLoadNext item _
  | .enqHelpTail item _ _ | .enqSegment item _ _ | .enqLoadStart item _ | .enqNew item _ _
  | .enqNewSegment item _ _ _ | .enqCasNext item _ _ | .enqCasTail item _ _ | .enqDelete item _ _
  | .enqClear item => some item
  | _ => none

/-- The item the thread has put in a segment of the list, in this call. -/
def Local.put : Local κe κd → Option Nat
  | .enqSegment item _ l => bif spec.deposited l then some item else none
  | .enqCasTail item _ _ | .enqClear item => some item
  | _ => none

/-- The item the thread has taken out of a segment, in this call. -/
def Local.got : Local κe κd → Option Nat
  | .deqSegment _ l | .deqSegmentAgain _ _ l => spec.held l
  | .deqClear item => item
  | _ => none

/-- What thread `t` has gone through with in `xs`, it has gone through with in `ys`, but for one. -/
def Tally (t : Tid) (xs ys : List (Tid × Nat)) (item : Option Nat) : Prop :=
  ∀ a, xs.count (t, a) = ys.count (t, a) + (pairs t item).count (t, a)

structure Account (h : List Event) (t : Tid) (l : Local κe κd) : Prop where
  called : Tally t (h.filterMap calledOf) (h.filterMap finishedOf) l.enqueuing
  put : Tally t (inChain depositOf h) (h.filterMap finishedOf) (l.put spec)
  got : Tally t (inChain takeOf h) (h.filterMap returnedOf) (l.got spec)

theorem Tally.step {t : Tid} {xs xs' ys ms ns : List (Tid × Nat)} {o o' : Option Nat}
    (h : Tally t xs ys o) (hxs : xs'.Perm (xs ++ ms)) (heq : pairs t o ++ ms = ns ++ pairs t o') :
    Tally t xs' (ys ++ ns) o' := by
  intro a
  have hcount := congrArg (List.count (t, a)) heq
  have ha := h a
  rw [List.count_append, List.count_append] at hcount
  rw [hxs.count_eq, List.count_append, List.count_append]
  omega

/-- What another thread goes through does not matter. -/
theorem Tally.other {t u : Tid} (hne : u ≠ t) {xs xs' ys ms ns : List (Tid × Nat)}
    {o p p' : Option Nat} (h : Tally u xs ys o) (hxs : xs'.Perm (xs ++ ms))
    (heq : pairs t p ++ ms = ns ++ pairs t p') (hns : ∀ x ∈ ns, x.1 = t) :
    Tally u xs' (ys ++ ns) o := by
  have hnone : ∀ {zs : List (Tid × Nat)}, (∀ x ∈ zs, x.1 = t) → ∀ a, zs.count (u, a) = 0 :=
    fun hzs a => List.count_eq_zero.mpr fun hmem => hne (hzs _ hmem)
  have hpairs : ∀ q : Option Nat, ∀ x ∈ pairs t q, x.1 = t := by simp [pairs]
  have hms : ∀ x ∈ ms, x.1 = t := fun x hx => by
    have hmem : x ∈ ns ++ pairs t p' := heq ▸ List.mem_append_right _ hx
    rcases List.mem_append.mp hmem with hx | hx
    · exact hns x hx
    · exact hpairs _ x hx
  intro a
  rw [hxs.count_eq, List.count_append, List.count_append, hnone hms, hnone hns]
  exact h a

/-- What a step adds to the account: `ms` of what the listed segments have to tell. -/
structure Balanced (t : Tid) (h es : List Event) (l l' : Local κe κd) : Prop where
  called : pairs t l.enqueuing ++ es.filterMap calledOf
    = es.filterMap finishedOf ++ pairs t l'.enqueuing
  put : ∃ ms, (inChain depositOf (h ++ es)).Perm (inChain depositOf h ++ ms)
    ∧ pairs t (l.put spec) ++ ms = es.filterMap finishedOf ++ pairs t (l'.put spec)
  got : ∃ ms, (inChain takeOf (h ++ es)).Perm (inChain takeOf h ++ ms)
    ∧ pairs t (l.got spec) ++ ms = es.filterMap returnedOf ++ pairs t (l'.got spec)
  finished : ∀ x ∈ es.filterMap finishedOf, x.1 = t
  returned : ∀ x ∈ es.filterMap returnedOf, x.1 = t

variable {spec} {t : Tid} {h es : List Event} {l l' : Local κe κd}

theorem Balanced.account (hb : Balanced spec t h es l l') (ha : Account spec h t l) :
    Account spec (h ++ es) t l' := by
  obtain ⟨ms, hms, hput⟩ := hb.put
  obtain ⟨ns, hns, hgot⟩ := hb.got
  refine ⟨?_, ?_, ?_⟩ <;> rw [List.filterMap_append]
  · rw [List.filterMap_append]
    exact ha.called.step (.refl _) hb.called
  · exact ha.put.step hms hput
  · exact ha.got.step hns hgot

theorem Balanced.other (hb : Balanced spec t h es l l') {u : Tid} (hne : u ≠ t) {lu : Local κe κd}
    (ha : Account spec h u lu) : Account spec (h ++ es) u lu := by
  obtain ⟨ms, hms, hput⟩ := hb.put
  obtain ⟨ns, hns, hgot⟩ := hb.got
  refine ⟨?_, ?_, ?_⟩ <;> rw [List.filterMap_append]
  · rw [List.filterMap_append]
    exact ha.called.other hne (.refl _) hb.called hb.finished
  · exact ha.put.other hne hms hput hb.finished
  · exact ha.got.other hne hns hgot hb.returned

/-- A step that tells nothing of the segments of the list. -/
theorem balanced_quiet (hlink : es.filterMap linkedSegment = [])
    (hes : ∀ s ∈ chain h, es.filterMap (segmentEvent s) = [])
    (hcalled : pairs t l.enqueuing ++ es.filterMap calledOf
      = es.filterMap finishedOf ++ pairs t l'.enqueuing)
    (hput : pairs t (l.put spec) = es.filterMap finishedOf ++ pairs t (l'.put spec))
    (hgot : pairs t (l.got spec) = es.filterMap returnedOf ++ pairs t (l'.got spec))
    (hfinished : ∀ x ∈ es.filterMap finishedOf, x.1 = t)
    (hreturned : ∀ x ∈ es.filterMap returnedOf, x.1 = t) : Balanced spec t h es l l' where
  called := hcalled
  put := ⟨[], by rw [inChain_same hlink hes, List.append_nil], by rw [List.append_nil, hput]⟩
  got := ⟨[], by rw [inChain_same hlink hes, List.append_nil], by rw [List.append_nil, hgot]⟩
  finished := hfinished
  returned := hreturned

/-- A step that tells nothing. -/
theorem balanced_nil (hcalled : l'.enqueuing = l.enqueuing) (hput : l'.put spec = l.put spec)
    (hgot : l'.got spec = l.got spec) : Balanced spec t h [] l l' :=
  balanced_quiet rfl (fun _ _ => rfl) (by simp [hcalled]) (by simp [hput]) (by simp [hgot])
    (by simp) (by simp)

/-- A step on a segment of the list. -/
theorem balanced_segment {s : Nat} {es : List SegmentEvent} (hnodup : (chain h).Nodup)
    (hs : s ∈ chain h) (hcalled : l'.enqueuing = l.enqueuing)
    (hput : pairs t (l.put spec) ++ es.filterMap depositOf = pairs t (l'.put spec))
    (hgot : pairs t (l.got spec) ++ es.filterMap takeOf = pairs t (l'.got spec)) :
    Balanced spec t h (es.map (.segment s)) l l' where
  called := by
    rw [filterMap_segment fun _ => rfl, filterMap_segment fun _ => rfl, hcalled, List.append_nil,
      List.nil_append]
  put := ⟨_, inChain_segment hnodup hs, by rw [filterMap_segment fun _ => rfl, hput]; rfl⟩
  got := ⟨_, inChain_segment hnodup hs, by rw [filterMap_segment fun _ => rfl, hgot]; rfl⟩
  finished := by simp [filterMap_segment (f := finishedOf) fun _ => rfl]
  returned := by simp [filterMap_segment (f := returnedOf) fun _ => rfl]

/-! ### What is known of the segments -/

variable (S) in
/-- Segment `s` of the list is closed. -/
def ClosedAt (w : W σ) (s : Nat) : Prop :=
  s ∈ chain w.history ∧ Closed S (w.shared.nodes s).segment

variable (S) in
/-- Segment `s` of the list is drained. -/
def DrainedAt (w : W σ) (s : Nat) : Prop :=
  s ∈ chain w.history
    ∧ Drained S (w.shared.nodes s).segment (w.history.filterMap (segmentEvent s))

/-- Thread `t` has put its item in the segment it has allocated, or is about to. -/
structure Filling (w : W σ) (t : Tid) (s : Nat) (item : Option Nat) : Prop where
  own : Private w t s
  deposits : (w.history.filterMap (segmentEvent s)).filterMap depositOf = pairs t item
  takes : (w.history.filterMap (segmentEvent s)).filterMap takeOf = []

variable (spec)

def Stage (w : W σ) (t : Tid) : Local κe κd → Prop
  | .enqLoadStart _ ltail | .enqNew _ ltail _ => ClosedAt S w ltail
  | .enqNewSegment item ltail newTail l =>
      ClosedAt S w ltail ∧ Filling w t newTail (bif spec.deposited l then some item else none)
        ∧ spec.alone t (w.shared.nodes newTail).segment l
  | .enqCasNext item ltail newTail => ClosedAt S w ltail ∧ Filling w t newTail (some item)
  | .deqSegmentAgain lhead _ l =>
      ClosedAt S w lhead ∧ (spec.emptied l = true → DrainedAt S w lhead)
  | .deqCasHead lhead _ => DrainedAt S w lhead
  | _ => True

structure SegmentLoc (w : W σ) (t : Tid) (l : Local κe κd) : Prop where
  account : Account spec w.history t l
  stage : Stage spec w t l

variable (S) in
/-- A segment that has a successor is closed, and those before the first are drained. -/
structure SegmentGlob (w : W σ) : Prop where
  closed : ∀ {s s'}, s ∈ chain w.history → (w.shared.nodes s).next = some s' → ClosedAt S w s
  passed : ∀ {p q s}, At w.history w.shared.head q → p < q → At w.history s p → DrainedAt S w s

structure SegmentRely (t : Tid) (w w' : W σ) : Prop where
  closed : ∀ {s}, ClosedAt S w s → ClosedAt S w' s
  drained : ∀ {s}, DrainedAt S w s → DrainedAt S w' s
  own : ∀ {s}, Private w t s → Private w' t s
    ∧ (w'.shared.nodes s).segment = (w.shared.nodes s).segment
    ∧ w'.history.filterMap (segmentEvent s) = w.history.filterMap (segmentEvent s)
  account : ∀ {l}, Account spec w.history t l → Account spec w'.history t l

variable {spec}

theorem SegmentRely.filling {w w' : W σ} (h : SegmentRely spec t w w') {s : Nat}
    {item : Option Nat} (hf : Filling w t s item) : Filling w' t s item := by
  obtain ⟨hown, -, hevents⟩ := h.own hf.own
  exact ⟨hown, hevents ▸ hf.deposits, hevents ▸ hf.takes⟩

theorem SegmentRely.loc {w w' : W σ} (h : SegmentRely spec t w w') (hl : SegmentLoc spec w t l) :
    SegmentLoc spec w' t l := by
  refine ⟨h.account hl.account, ?_⟩
  have hstage := hl.stage
  cases l with
  | enqLoadStart | enqNew => exact h.closed hstage
  | enqNewSegment =>
      obtain ⟨hclosed, hfill, halone⟩ := hstage
      refine ⟨h.closed hclosed, h.filling hfill, ?_⟩
      rw [(h.own hfill.own).2.1]
      exact halone
  | enqCasNext => exact ⟨h.closed hstage.1, h.filling hstage.2⟩
  | deqSegmentAgain => exact ⟨h.closed hstage.1, fun he => h.drained (hstage.2 he)⟩
  | deqCasHead => exact h.drained hstage
  | _ => trivial

end Account

/-! ### Steps -/

section Steps

variable {S : SegmentType σ κe κd} {okS : Config σ (SegmentLocal κe κd) SegmentEvent → Tid → Prop}
  {spec : SegmentSpec S okS} {maxThreads : Nat} {t : Tid} {i : Input} {g g' : Shared σ}
  {h es : List Event} {l l' : Local κe κd}

/-- A step outside a segment does not change it. -/
theorem unchanged_of_idle {s : Nat} (hidle : l.inSegment s = .idle)
    (hstep : StepsIn S t s g g' l l' es ∨ StepsOutside s g g' l l' es) :
    (g'.nodes s).segment = (g.nodes s).segment ∧ es.filterMap (segmentEvent s) = [] := by
  rcases hstep with ⟨j, hj⟩ | hout
  · rw [hidle] at hj
    obtain ⟨op, -, hop⟩ := Option.map_eq_some_iff.mp hj
    cases op <;>
    · simp only [Prod.mk.injEq] at hop
      exact ⟨hop.1.symm, hop.2.2.symm⟩
  · exact ⟨hout.segment, hout.events⟩

theorem step_balanced (hw : Glob ⟨(), g, h⟩) (hl : Loc ⟨(), g, h⟩ t l)
    (hstage : Stage spec ⟨(), g, h⟩ t l)
    (hstep : step S maxThreads t i g l = some (g', l', es)) : Balanced spec t h es l l' := by
  have hnodup := hw.linked.nodup
  have hmem : ∀ {s}, (∃ q, At h s q) → s ∈ chain h := fun ⟨_, hq⟩ => List.mem_of_getElem? hq
  cases l with
  | idle =>
      obtain ⟨op, -, hop⟩ := Option.map_eq_some_iff.mp hstep
      cases op <;> cases hop <;>
        exact balanced_quiet rfl (fun _ _ => rfl) rfl rfl rfl (by simp [finishedOf])
          (by simp [returnedOf])
  | enqSegment item n le =>
      cases hstep
      obtain ⟨hdeposits, htakes⟩ :=
        spec.enqueue_events t i.ts item (g.nodes n).segment le
      refine balanced_segment hnodup (hmem hl) ?_ ?_ ?_
      · dsimp only
        split <;> rfl
      · rw [Local.put, hdeposits]
        rcases (S.enqueueStep t i.ts item (g.nodes n).segment le).2.1 with _ | _ | _ <;> rfl
      · rw [htakes]
        rcases (S.enqueueStep t i.ts item (g.nodes n).segment le).2.1 with _ | _ | _ <;> rfl
  | enqNew item n start =>
      simp only [step, Option.ite_none_right_eq_some, Option.some.injEq, Prod.mk.injEq] at hstep
      obtain ⟨-, rfl, rfl, rfl⟩ := hstep
      exact balanced_quiet rfl (fun _ _ => rfl) (List.append_nil _) rfl rfl (by simp [finishedOf])
        (by simp [returnedOf])
  | enqNewSegment item n m le =>
      cases hstep
      have hne : ∀ s ∈ chain h, m ≠ s := fun s hs heq => hl.2.notMem (heq ▸ hs)
      refine balanced_quiet (filterMap_segment (fun _ => rfl) _)
        (fun s hs => by rw [filterMap_segmentEvent, if_neg (hne s hs)]) ?_ ?_ ?_ ?_ ?_
      all_goals simp only [filterMap_segment (f := finishedOf) fun _ => rfl,
        filterMap_segment (f := returnedOf) fun _ => rfl,
        filterMap_segment (f := calledOf) fun _ => rfl]
      all_goals
        rcases (S.enqueueStep t i.ts item (g.nodes m).segment le).2.1 with _ | _ <;>
          simp [Local.put, Local.got, Local.enqueuing]
  | enqCasNext item n m =>
      simp only [step] at hstep
      split at hstep <;> cases hstep
      · obtain ⟨-, hfill⟩ := hstage
        refine ⟨List.append_nil _, ⟨_, .of_eq inChain_link, ?_⟩, ⟨_, .of_eq inChain_link, ?_⟩,
          by simp [finishedOf], by simp [returnedOf]⟩
        · rw [hfill.deposits]
          rfl
        · rw [hfill.takes]
          rfl
      · exact balanced_nil rfl rfl rfl
  | enqClear item =>
      cases hstep
      exact balanced_quiet rfl (fun _ _ => rfl) rfl rfl rfl (by simp [finishedOf])
        (by simp [returnedOf])
  | deqSegment n ld | deqSegmentAgain n _ ld =>
      cases hstep
      obtain ⟨htakes, hdeposits⟩ := spec.dequeue_events t i.ts (g.nodes n).segment ld
      refine balanced_segment hnodup ?_ ?_ ?_ ?_
      · first | exact hmem hl | exact hmem hl.first
      · dsimp only
        split <;> rfl
      · rw [hdeposits]
        rcases (S.dequeueStep t i.ts (g.nodes n).segment ld).2.1 with _ | _ | _ <;> rfl
      · rw [Local.got, htakes]
        rcases (S.dequeueStep t i.ts (g.nodes n).segment ld).2.1 with _ | _ | _ <;> rfl
  | deqClear item =>
      cases hstep
      cases item <;>
        exact balanced_quiet rfl (fun _ _ => rfl) rfl rfl rfl (by simp [finishedOf])
          (by simp [returnedOf])
  | deqReload n =>
      simp only [step] at hstep
      split at hstep <;> cases hstep
      · exact balanced_nil rfl rfl rfl
      · exact balanced_nil rfl rfl spec.dequeue_start.1
  | deqLoadNext n =>
      simp only [step] at hstep
      split at hstep <;> cases hstep
      · exact balanced_nil rfl rfl rfl
      · exact balanced_nil rfl rfl spec.dequeue_start.1
  | deqScan lnext scan | deqRetire _ lnext =>
      cases hstep
      unfold afterScan
      split <;> exact balanced_nil rfl rfl rfl
  | enqLoadNext item n =>
      simp only [step] at hstep
      split at hstep <;> cases hstep
      · exact balanced_nil rfl rfl rfl
      · exact balanced_nil rfl (by simp [Local.put, spec.enqueue_start]) rfl
  | sizeClear ihp size =>
      simp only [step] at hstep
      split at hstep <;> cases hstep
      · exact balanced_nil rfl rfl rfl
      · exact balanced_quiet rfl (fun _ _ => rfl) rfl rfl rfl (by simp [finishedOf])
          (by simp [returnedOf])
  | _ =>
      simp only [step] at hstep
      repeat' split at hstep
      all_goals
        cases hstep
        exact balanced_nil rfl rfl rfl

/-- What a step of thread `t` leaves of the segments, seen from the others. -/
structure Frame (spec : SegmentSpec S okS) (t : Tid) (w w' : W σ) : Prop where
  closed : ∀ {s}, ClosedAt S w s → ClosedAt S w' s
  drained : ∀ {s}, DrainedAt S w s → DrainedAt S w' s
  own : ∀ {u s}, u ≠ t → Private w u s →
    (w'.shared.nodes s).segment = (w.shared.nodes s).segment
      ∧ w'.history.filterMap (segmentEvent s) = w.history.filterMap (segmentEvent s)

/-- Nobody but its allocator is in a segment that is not linked. -/
theorem idle_of_private (hw : Glob ⟨(), g, h⟩) (hl : Loc ⟨(), g, h⟩ t l) {u : Tid} {s : Nat}
    (hu : u ≠ t) (hp : Private ⟨(), g, h⟩ u s) : l.inSegment s = .idle := by
  have hne : ∀ {n}, (∃ q, At h n q) → n ≠ s := fun ⟨q, hq⟩ heq =>
    hp.notMem (heq ▸ List.mem_of_getElem? hq)
  cases l with
  | enqSegment | deqSegment => exact if_neg (hne hl)
  | enqNewSegment item n m le =>
      have hms : m ≠ s := fun heq => hu (hw.owner hp.alloc (heq ▸ hl.2.alloc))
      exact if_neg hms
  | deqSegmentAgain => exact if_neg (hne hl.first)
  | _ => rfl

theorem step_frame {c : Config (Shared σ) (Local κe κd) Event}
    (hw : Glob ⟨(), c.shared, c.history⟩) (hl : Loc ⟨(), c.shared, c.history⟩ t (c.locals t))
    (hfresh : FreshAddress c t i)
    (hrun : ∀ s ∈ chain c.history, ∃ start,
      (segmentProgram S start).Reach (fun c t _ => okS c t) (projected s c))
    (hokS : ∀ s, okS (projected s c) t)
    (hstep : step S maxThreads t i c.shared (c.locals t) = some (g', l', es)) :
    Frame spec t ⟨(), c.shared, c.history⟩ ⟨(), g', c.history ++ es⟩ := by
  have hnew : ∀ {s}, c.shared.status s ≠ .unallocated →
      ∀ item ltail start, c.locals t = .enqNew item ltail start → i.addr ≠ s :=
    fun hs item ltail start hloc heq => hs (heq ▸ hfresh item ltail start hloc)
  have hchain : ∀ {s}, s ∈ chain c.history → s ∈ chain (c.history ++ es) := fun hs => by
    rw [chain_append]
    exact List.mem_append_left _ hs
  have hkeeps : ∀ {s}, s ∈ chain c.history →
      (S.base (c.shared.nodes s).segment).head ≤ (S.base (g'.nodes s).segment).head
        ∧ (Closed S (c.shared.nodes s).segment → Closed S (g'.nodes s).segment
          ∧ ∀ u k, .drawTail u k ∉ es.filterMap (segmentEvent s)) := fun {s} hs => by
    obtain ⟨start, hreach⟩ := hrun s hs
    rcases step_projected (hnew (hw.used s hs)) hstep with ⟨j, hj⟩ | hout
    · exact spec.closed_step hreach (hokS s) hj
    · rw [hout.segment, hout.events]
      exact ⟨Nat.le_refl _, fun hclosed => ⟨hclosed, by simp⟩⟩
  refine
    ⟨fun hs => ⟨hchain hs.1, ((hkeeps hs.1).2 hs.2).1⟩, fun {s} hs => ?_, fun {u s} hu hp => ?_⟩
  · obtain ⟨hmem, hclosed, hdrawn⟩ := hs
    obtain ⟨hhead, hkeep⟩ := hkeeps hmem
    obtain ⟨hclosed', hnone⟩ := hkeep hclosed
    refine ⟨hchain hmem, hclosed', fun u k hk => ?_⟩
    rw [List.filterMap_append, List.mem_append] at hk
    exact Nat.lt_of_lt_of_le (hdrawn u k (hk.resolve_right (hnone u k))) hhead
  · obtain ⟨hsegment, hevents⟩ := unchanged_of_idle (idle_of_private hw hl hu hp)
      (step_projected (hnew (hw.alloc hp.alloc)) hstep)
    exact ⟨hsegment, by rw [List.filterMap_append, hevents, List.append_nil]⟩

/-- The step hangs a new segment behind the last one, or leaves the links alone. -/
theorem step_links (hstep : step S maxThreads t i g l = some (g', l', es)) :
    (∃ item n m, l = .enqCasNext item n m ∧ (g.nodes n).next = none
        ∧ g' = g.setNext n (some m) ∧ es = [.link t m] ∧ g'.head = g.head)
      ∨ (es.filterMap linkedSegment = []
        ∧ (∀ s, (∀ item n start, l = .enqNew item n start → i.addr ≠ s) →
          (g'.nodes s).next = (g.nodes s).next)
        ∧ (g'.head = g.head ∨ ∃ n m, l = .deqCasHead n m ∧ g.head = n ∧ g'.head = m)) := by
  cases l with
  | idle =>
      obtain ⟨op, -, hop⟩ := Option.map_eq_some_iff.mp hstep
      cases op <;> cases hop <;> exact .inr ⟨rfl, fun _ _ => rfl, .inl rfl⟩
  | enqSegment | enqNewSegment | deqSegment | deqSegmentAgain =>
      cases hstep
      exact .inr ⟨filterMap_segment (fun _ => rfl) _, fun s _ => setSegment_next .., .inl rfl⟩
  | enqNew item n start =>
      simp only [step, Option.ite_none_right_eq_some, Option.some.injEq, Prod.mk.injEq] at hstep
      obtain ⟨-, rfl, rfl, rfl⟩ := hstep
      refine .inr ⟨rfl, fun s hs => ?_, .inl rfl⟩
      simp [Shared.new, Ne.symm (hs item n start rfl)]
  | enqCasNext item n m =>
      simp only [step] at hstep
      split at hstep <;> cases hstep
      · exact .inl ⟨item, n, m, rfl, ‹_›, rfl, rfl, rfl⟩
      · exact .inr ⟨rfl, fun _ _ => rfl, .inl rfl⟩
  | enqCasTail item n m =>
      cases hstep
      refine .inr ⟨rfl, fun _ _ => ?_, .inl ?_⟩ <;> split <;> rfl
  | deqCasHead n m =>
      simp only [step] at hstep
      split at hstep <;> cases hstep
      · exact .inr ⟨rfl, fun _ _ => rfl, .inr ⟨n, m, rfl, ‹_›, rfl⟩⟩
      · exact .inr ⟨rfl, fun _ _ => rfl, .inl rfl⟩
  | deqScan m scan =>
      cases hstep
      cases scan <;> exact .inr ⟨rfl, fun _ _ => rfl, .inl rfl⟩
  | _ =>
      simp only [step] at hstep
      repeat' split at hstep
      all_goals
        cases hstep
        exact .inr ⟨rfl, fun _ _ => rfl, .inl rfl⟩

/-- A place that was there before has kept its segment. -/
theorem At.old {h h' : List Event} (hle : chain h <+: chain h') {s q p : Nat} {s₀ : Nat}
    (hq : At h s₀ q) (hp : p ≤ q) (hs : At h' s p) : At h s p := by
  obtain ⟨more, hmore⟩ := hle
  have hlt : q < (chain h).length := (List.getElem?_eq_some_iff.mp hq).1
  unfold At at hs ⊢
  rw [← hmore, List.getElem?_append_left (by omega)] at hs
  exact hs

section Config

variable {c : Config (Shared σ) (Local κe κd) Event}

theorem step_stage
    (hw : Glob ⟨(), c.shared, c.history⟩) (hl : ∀ t, Loc ⟨(), c.shared, c.history⟩ t (c.locals t))
    (hseg : SegmentGlob S ⟨(), c.shared, c.history⟩)
    (hstage : Stage spec ⟨(), c.shared, c.history⟩ t (c.locals t))
    (hfresh : FreshAddress c t i)
    (hrun : ∀ s ∈ chain c.history, ∃ start,
      (segmentProgram S start).Reach (fun c t _ => okS c t) (projected s c))
    (hokS : ∀ s, okS (projected s c) t)
    (hframe : Frame spec t ⟨(), c.shared, c.history⟩ ⟨(), g', c.history ++ es⟩)
    (hloc : Loc ⟨(), g', c.history ++ es⟩ t l')
    (hstep : step S maxThreads t i c.shared (c.locals t) = some (g', l', es)) :
    Stage spec ⟨(), g', c.history ++ es⟩ t l' := by
  have hmem : ∀ {s}, (∃ q, At c.history s q) → s ∈ chain c.history := fun ⟨_, hq⟩ =>
    List.mem_of_getElem? hq
  have hlt := hl t
  rcases hlocal : c.locals t
  all_goals rw [hlocal] at hstep hstage hlt
  case idle =>
      obtain ⟨op, -, hop⟩ := Option.map_eq_some_iff.mp hstep
      cases op <;> cases hop <;> trivial
  case enqSegment item n le =>
      cases hstep
      cases hres : (S.enqueueStep t i.ts item (c.shared.nodes n).segment le).2.1 with
      | inl le' => trivial
      | inr b =>
          cases b with
          | true => trivial
          | false =>
              refine ⟨?_, ?_⟩
              · simpa [chain_append, filterMap_segment (f := linkedSegment) fun _ => rfl]
                  using hmem hlt
              · rw [setSegment_segment, if_pos rfl]
                exact spec.refused hres
  case enqLoadStart item n =>
      cases hstep
      exact hframe.closed hstage
  case enqNew item n start =>
      obtain ⟨hlocals, hevents⟩ := projected_unused hw hl (hfresh item n start hlocal)
      simp only [step, Option.ite_none_right_eq_some, Option.some.injEq, Prod.mk.injEq] at hstep
      obtain ⟨-, rfl, rfl, rfl⟩ := hstep
      have hnone : (c.history ++ [Event.alloc t i.addr]).filterMap (segmentEvent i.addr) = [] := by
        rw [List.filterMap_append, show c.history.filterMap (segmentEvent i.addr) = [] from hevents]
        rfl
      refine ⟨hframe.closed hstage, ⟨hloc.2, ?_, ?_⟩, ?_⟩
      · rw [hnone, spec.enqueue_start]
        rfl
      · rw [hnone]
        rfl
      · simpa [Shared.new] using spec.alone_start t start
  case enqNewSegment item n m le =>
      cases hstep
      obtain ⟨hclosed, hfill, halone⟩ := hstage
      obtain ⟨hdeposits, htakes⟩ := spec.enqueue_events t i.ts item (c.shared.nodes m).segment le
      have hnext := spec.alone_step i.ts item halone
      have hevents : (c.history ++ ((S.enqueueStep t i.ts item (c.shared.nodes m).segment
          le).2.2).map (Event.segment m)).filterMap (segmentEvent m)
          = c.history.filterMap (segmentEvent m)
            ++ (S.enqueueStep t i.ts item (c.shared.nodes m).segment le).2.2 := by
        rw [List.filterMap_append, filterMap_segmentEvent, if_pos rfl]
      have hput := (congrArg (List.filterMap depositOf) hevents).trans List.filterMap_append
      rw [show (c.history.filterMap (segmentEvent m)).filterMap depositOf = _ from hfill.deposits,
        hdeposits] at hput
      have htake := (congrArg (List.filterMap takeOf) hevents).trans List.filterMap_append
      rw [show (c.history.filterMap (segmentEvent m)).filterMap takeOf = _ from hfill.takes,
        htakes] at htake
      cases hres : (S.enqueueStep t i.ts item (c.shared.nodes m).segment le).2.1 with
      | inl le' =>
          rw [hres] at hput hnext hloc
          refine ⟨hframe.closed hclosed, ⟨hloc.2, hput, htake⟩, ?_⟩
          rw [setSegment_segment, if_pos rfl]
          exact hnext
      | inr b =>
          rw [hres] at hput hnext hloc
          obtain rfl : b = true := hnext
          exact ⟨hframe.closed hclosed, ⟨hloc.2, hput, htake⟩⟩
  case deqLoadNext n =>
      simp only [step] at hstep
      split at hstep <;> cases hstep
      · trivial
      · rename_i hnext
        exact ⟨hframe.closed (hseg.closed (hmem hlt) hnext), by simp [spec.dequeue_start.2]⟩
  case deqSegmentAgain n m ld =>
      obtain ⟨hclosed, hemptied⟩ := hstage
      have hinside : (projected n c).locals t = .dequeue ld := by
        simp [projected, hlocal, Local.inSegment]
      obtain ⟨start, hreach⟩ := hrun n hclosed.1
      have hdrained : (S.dequeueStep t i.ts (c.shared.nodes n).segment ld).2.1.elim spec.emptied
          (fun r => r.isNone) = true → DrainedAt S ⟨(), c.shared, c.history⟩ n := fun he =>
        (spec.emptied_step hreach (hokS n) hinside hclosed.2 he).elim hemptied (⟨hclosed.1, ·⟩)
      cases hstep
      cases hres : (S.dequeueStep t i.ts (c.shared.nodes n).segment ld).2.1 with
      | inl ld' =>
          exact ⟨hframe.closed hclosed, fun he => hframe.drained (hdrained (by rwa [hres]))⟩
      | inr item =>
          cases item with
          | some a => trivial
          | none => exact hframe.drained (hdrained (by rw [hres]; rfl))
  case deqSegment n ld =>
      cases hstep
      rcases (S.dequeueStep t i.ts (c.shared.nodes n).segment ld).2.1 with _ | _ | _ <;> trivial
  case deqRetire n m | deqScan m scan =>
      cases hstep
      unfold afterScan
      split <;> trivial
  all_goals
    simp only [step] at hstep
    repeat' split at hstep
    all_goals
      cases hstep
      trivial

theorem step_glob (hw : Glob ⟨(), c.shared, c.history⟩)
    (hlt : Loc ⟨(), c.shared, c.history⟩ t (c.locals t))
    (hseg : SegmentGlob S ⟨(), c.shared, c.history⟩)
    (hstage : Stage spec ⟨(), c.shared, c.history⟩ t (c.locals t))
    (hfresh : FreshAddress c t i)
    (hframe : Frame spec t ⟨(), c.shared, c.history⟩ ⟨(), g', c.history ++ es⟩)
    (hw' : Glob ⟨(), g', c.history ++ es⟩)
    (hstep : step S maxThreads t i c.shared (c.locals t) = some (g', l', es)) :
    SegmentGlob S ⟨(), g', c.history ++ es⟩ := by
  have hle : chain c.history <+: chain (c.history ++ es) := chain_append ▸ List.prefix_append _ _
  -- While head stays, so do the segments before it.
  have hpassed : g'.head = c.shared.head → ∀ {p q s}, At (c.history ++ es) g'.head q → p < q →
      At (c.history ++ es) s p → DrainedAt S ⟨(), g', c.history ++ es⟩ s := by
    intro hhead p q s hq hlt hs
    obtain ⟨q₀, hq₀⟩ := hw.head
    rw [hhead] at hq
    obtain rfl : q = q₀ := hw'.linked.index_unique hq (hq₀.mono hle)
    exact hframe.drained (hseg.passed hq₀ hlt (At.old hle hq₀ (Nat.le_of_lt hlt) hs))
  rcases step_links hstep with ⟨item, n, m, hlocal, hnone, rfl, rfl, hhead⟩
    | ⟨hlink, hnext, hhead⟩
  · rw [hlocal] at hstage hlt
    refine ⟨fun {s s'} hs hs' => ?_, hpassed hhead⟩
    have hs : s ∈ chain c.history ∨ s = m := by
      simpa [chain, linkedSegment, or_assoc] using hs
    by_cases hsn : s = n
    · exact hsn ▸ hframe.closed hstage.1
    · have hold : (c.shared.nodes s).next = some s' := by simpa [Shared.setNext, hsn] using hs'
      rcases hs with hs | rfl
      · exact hframe.closed (hseg.closed hs hold)
      · have hnew : (c.shared.nodes s).next = none := hlt.2.next
        exact absurd (hnew.symm.trans hold) (by simp)
  · have hchain : chain (c.history ++ es) = chain c.history := by
      rw [chain_append, hlink, List.append_nil]
    refine ⟨fun {s s'} hs hs' => ?_, ?_⟩
    · have hs : s ∈ chain c.history := hchain ▸ hs
      refine hframe.closed
        (hseg.closed hs ((hnext s fun item n start hloc heq => ?_).symm.trans hs'))
      exact hw.used s hs (heq ▸ hfresh item n start hloc)
    · rcases hhead with hhead | ⟨n, m, hlocal, hn, hm⟩
      · exact hpassed hhead
      · rw [hlocal] at hstage hlt
        obtain ⟨q₀, hn₀, hm₀⟩ := hlt
        intro p q s hq hlt hs
        rw [show (g' : Shared σ).head = m from hm] at hq
        obtain rfl : q = q₀ + 1 := hw'.linked.index_unique hq (hm₀.mono hle)
        have hs : At c.history s p := At.old hle hn₀ (Nat.lt_succ_iff.mp hlt) hs
        rcases Nat.lt_succ_iff_lt_or_eq.mp hlt with hlt | rfl
        · exact hframe.drained (hseg.passed (hn ▸ hn₀) hlt hs)
        · obtain rfl : n = s := Option.some.inj (hn₀.symm.trans hs)
          exact hframe.drained hstage

end Config

end Steps

/-! ### Runs -/

section Results

variable {S : SegmentType σ κe κd} {okS : Config σ (SegmentLocal κe κd) SegmentEvent → Tid → Prop}
  {maxThreads : Nat} {c : Config (Shared σ) (Local κe κd) Event}

/-- Addresses are not handed out again, and the steps on every segment are as its runs want them. -/
def Orderly (okS : Config σ (SegmentLocal κe κd) SegmentEvent → Tid → Prop)
    (c : Config (Shared σ) (Local κe κd) Event) (t : Tid) (i : Input) : Prop :=
  FreshAddress c t i ∧ ∀ s, okS (projected s c) t

/-- Where the items are, as a rely-guarantee proof over the runs of the segments. -/
def accountInvariant (spec : SegmentSpec S okS) (maxThreads : Nat) :
    RelyGuarantee (program S maxThreads)
      (fun c t i => (program S maxThreads).Reach (Orderly okS) c ∧ Orderly okS c t i) Unit where
  glob := SegmentGlob S
  loc := SegmentLoc spec
  rely := SegmentRely spec
  init := by
    refine ⟨(), ⟨fun _ hnext => (by cases hnext), fun {p q s} hq hlt _ => ?_⟩, fun t =>
      ⟨⟨fun _ => rfl, fun _ => rfl, fun _ => rfl⟩, trivial⟩⟩
    have hlinked : Linked (nextPtr (program S maxThreads).start) [0] := .singleton rfl
    obtain rfl : q = 0 := hlinked.index_unique hq rfl
    exact absurd hlt (Nat.not_lt_zero p)
  stable h hl := h.loc hl
  step {x c t i g l es} hok hseg hl hstep := by
    obtain ⟨hreach, hfresh, hokS⟩ := hok
    obtain ⟨hw, hloc⟩ := Reach.chained (fun _ _ _ hc => hc.1) hreach
    have hrun : ∀ s ∈ chain c.history, ∃ start,
        (segmentProgram S start).Reach (fun c t _ => okS c t) (projected s c) := fun s hs =>
      Reach.segment (fun _ _ _ hc => hc) (fun _ _ => spec.ok_idle) hreach (hw.known s hs)
    obtain ⟨hw', hloc', hrely⟩ := step_preserved hw (hloc t) hfresh hstep
    have hframe : Frame spec t ⟨(), c.shared, c.history⟩ ⟨(), g, c.history ++ es⟩ :=
      step_frame hw (hloc t) hfresh hrun hokS hstep
    have hbalanced := step_balanced hw (hloc t) (hl t).stage hstep
    exact ⟨(), step_glob hw (hloc t) hseg (hl t).stage hfresh hframe hw' hstep,
      ⟨hbalanced.account (hl t).account,
        step_stage hw hloc hseg (hl t).stage hfresh hrun hokS hframe hloc' hstep⟩,
      fun u hu => ⟨hframe.closed, hframe.drained,
        fun hp => ⟨(hrely u hu).own hp, hframe.own hu hp⟩, hbalanced.other hu⟩⟩

def calledItems (h : List Event) : List Nat := (h.filterMap calledOf).map Prod.snd
def finishedItems (h : List Event) : List Nat := (h.filterMap finishedOf).map Prod.snd
def returnedItems (h : List Event) : List Nat := (h.filterMap returnedOf).map Prod.snd

/-- No item is passed to two enqueues. -/
def FreshItem (c : Config (Shared σ) (Local κe κd) Event) (t : Tid) (i : Input) : Prop :=
  c.locals t = .idle → ∀ a, i.op = some (.enqueue a) → a ∉ calledItems c.history

/-- The queue neither duplicates nor loses an item. -/
structure Conserved (stored : σ → List Nat) (c : Config (Shared σ) (Local κe κd) Event) :
    Prop where
  once : (returnedItems c.history).Nodup
  called : ∀ a ∈ returnedItems c.history, a ∈ calledItems c.history
  quiescent : (∀ t, c.locals t = .idle) →
    ∃ segments, Path (nextPtr c.shared) (some c.shared.head) segments
      ∧ (finishedItems c.history).Perm (returnedItems c.history
        ++ segments.flatMap fun s => stored (c.shared.nodes s).segment)

/-- Only an idle thread calls. -/
theorem step_called {t : Tid} {i : Input} {g g' : Shared σ} {l l' : Local κe κd} {es : List Event}
    (hstep : step S maxThreads t i g l = some (g', l', es)) :
    calledItems es = [] ∨ ∃ a, l = .idle ∧ i.op = some (.enqueue a) ∧ calledItems es = [a] := by
  cases step_tells hstep with
  | @call op hop =>
      cases op with
      | enqueue a => exact .inr ⟨a, rfl, hop, rfl⟩
      | dequeue | estimateSize => exact .inl rfl
  | segment s es =>
      refine .inl ?_
      unfold calledItems
      rw [filterMap_segment fun _ => rfl]
      rfl
  | _ => exact .inl rfl

theorem Reach.called_nodup {ok : Config (Shared σ) (Local κe κd) Event → Tid → Input → Prop}
    (hok : ∀ c t i, ok c t i → FreshItem c t i) (h : (program S maxThreads).Reach ok c) :
    (calledItems c.history).Nodup := by
  induction h with
  | init => exact List.nodup_nil
  | @step c _ t i _ hc hnext ih =>
      obtain ⟨g, l, es, hstep, rfl⟩ := Program.next_eq_some hnext
      have happend : calledItems (c.history ++ es) = calledItems c.history ++ calledItems es := by
        simp [calledItems]
      rw [happend]
      rcases step_called hstep with hnone | ⟨a, hidle, hop, hone⟩
      · rwa [hnone, List.append_nil]
      · rw [hone]
        refine List.nodup_append.mpr ⟨ih, by simp, fun b hb d hd heq => ?_⟩
        obtain rfl : d = a := by simpa using hd
        exact hok c t i hc hidle d hop (heq ▸ hb)

variable (spec : SegmentSpec S okS)

theorem Reach.segments (h : (program S maxThreads).Reach (Orderly okS) c) :
    SegmentGlob S ⟨(), c.shared, c.history⟩
      ∧ ∀ t, SegmentLoc spec ⟨(), c.shared, c.history⟩ t (c.locals t) := by
  obtain ⟨_, hc⟩ := (accountInvariant spec maxThreads).holds h.along
  exact hc

/-- What has been put in the segments of the list has been taken out or is there. -/
theorem Reach.chain_account (h : (program S maxThreads).Reach (Orderly okS) c) :
    ((inChain depositOf c.history).map Prod.snd).Perm
      ((inChain takeOf c.history).map Prod.snd
        ++ (chain c.history).flatMap fun s => spec.stored (c.shared.nodes s).segment) := by
  obtain ⟨hw, -⟩ := Reach.chained (fun _ _ _ hc => hc.1) h
  unfold inChain
  rw [List.map_flatMap, List.map_flatMap]
  refine .trans (List.Perm.flatMap_left _ fun s hs => ?_)
    (List.flatMap_append_perm (chain c.history) _ _).symm
  obtain ⟨start, hrun⟩ := Reach.segment (fun _ _ _ hc => hc) (fun _ _ => spec.ok_idle) h
    (hw.known s hs)
  exact spec.account hrun

theorem pairs_put_le (t : Tid) (l : Local κe κd) (p : Tid × Nat) :
    (pairs t (l.put spec)).count p ≤ (pairs t l.enqueuing).count p := by
  cases l with
  | enqSegment item n le =>
      simp only [Local.put, Local.enqueuing]
      cases spec.deposited le
      · exact Nat.zero_le _
      · exact Nat.le_refl _
  | enqCasTail | enqClear => exact Nat.le_refl _
  | _ => exact Nat.zero_le _

theorem subperm_map {xs ys : List (Tid × Nat)} (h : xs.Subperm ys) :
    (xs.map Prod.snd).Subperm (ys.map Prod.snd) := by
  obtain ⟨zs, hperm, hsub⟩ := h
  exact ⟨zs.map Prod.snd, hperm.map _, hsub.map _⟩

include spec in
/-- What is put in the segments of the list, enqueues were called with. -/
theorem Reach.deposited_subperm (h : (program S maxThreads).Reach (Orderly okS) c) :
    (inChain depositOf c.history).Subperm (c.history.filterMap calledOf) := by
  obtain ⟨-, hl⟩ := Reach.segments spec h
  refine List.subperm_ext_iff.mpr fun ⟨t, a⟩ _ => ?_
  rw [(hl t).account.put a, (hl t).account.called a]
  exact Nat.add_le_add_left (pairs_put_le spec t (c.locals t) (t, a)) _

include spec in
/-- **Dequeues return what enqueues were called with, and no item more often.** -/
theorem Reach.returned_subperm (h : (program S maxThreads).Reach (Orderly okS) c) :
    (returnedItems c.history).Subperm (calledItems c.history) := by
  obtain ⟨-, hl⟩ := Reach.segments spec h
  have hreturned : (c.history.filterMap returnedOf).Subperm (inChain takeOf c.history) :=
    List.subperm_ext_iff.mpr fun ⟨t, a⟩ _ => by
      rw [(hl t).account.got a]
      exact Nat.le_add_right _ _
  have htaken : ((inChain takeOf c.history).map Prod.snd).Subperm
      ((inChain depositOf c.history).map Prod.snd) :=
    (List.sublist_append_left _ _).subperm.trans (Reach.chain_account spec h).symm.subperm
  exact ((subperm_map hreturned).trans htaken).trans (subperm_map (Reach.deposited_subperm spec h))

theorem Tally.perm {xs ys : List (Tid × Nat)} (h : ∀ t, Tally t xs ys none) : xs.Perm ys :=
  List.perm_iff_count.mpr fun ⟨t, a⟩ => h t a

/-- **With no operation in progress, what enqueues have finished with has been returned or is in a
segment that head leads to.** -/
theorem Reach.quiescent (h : (program S maxThreads).Reach (Orderly okS) c)
    (hidle : ∀ t, c.locals t = .idle) :
    ∃ segments, Path (nextPtr c.shared) (some c.shared.head) segments
      ∧ (finishedItems c.history).Perm (returnedItems c.history
        ++ segments.flatMap fun s => spec.stored (c.shared.nodes s).segment) := by
  obtain ⟨hw, -⟩ := Reach.chained (fun _ _ _ hc => hc.1) h
  obtain ⟨hseg, hl⟩ := Reach.segments spec h
  obtain ⟨q, hq⟩ := hw.head
  have hput : (inChain depositOf c.history).Perm (c.history.filterMap finishedOf) :=
    Tally.perm fun t => by simpa [hidle t, Local.put] using (hl t).account.put
  have hgot : (inChain takeOf c.history).Perm (c.history.filterMap returnedOf) :=
    Tally.perm fun t => by simpa [hidle t, Local.got] using (hl t).account.got
  -- The segments before the first are drained, and nobody is in them.
  have hpassed : ((chain c.history).take q).flatMap
      (fun s => spec.stored (c.shared.nodes s).segment) = [] := by
    refine List.flatMap_eq_nil_iff.mpr fun s hs => ?_
    obtain ⟨p, hp, hs⟩ := List.mem_take_iff_getElem.mp hs
    have hat : At c.history s p := by
      rw [← hs]
      exact List.getElem?_eq_getElem _
    obtain ⟨hmem, hdrained⟩ := hseg.passed hq (by omega) hat
    obtain ⟨start, hrun⟩ := Reach.segment (fun _ _ _ hc => hc) (fun _ _ => spec.ok_idle) h
      (hw.known s hmem)
    exact spec.stored_drained hrun (fun t => by simp [projected, hidle t, Local.inSegment]) hdrained
  have hstored : (chain c.history).flatMap (fun s => spec.stored (c.shared.nodes s).segment)
      = ((chain c.history).drop q).flatMap fun s => spec.stored (c.shared.nodes s).segment := by
    conv_lhs => rw [← List.take_append_drop q (chain c.history)]
    rw [List.flatMap_append, hpassed, List.nil_append]
  have hpath := hw.linked.path q
  rw [show (chain c.history)[q]? = some c.shared.head from hq] at hpath
  refine ⟨_, hpath, ?_⟩
  rw [← hstored]
  exact (hput.map Prod.snd).symm.trans ((Reach.chain_account spec h).trans
    ((hgot.map Prod.snd).append_right _))

theorem Reach.conserved (h : (program S maxThreads).Reach
    (fun c t i => Orderly okS c t i ∧ FreshItem c t i) c) : Conserved spec.stored c := by
  have horderly := h.mono fun _ _ _ hc => hc.1
  have hsub := Reach.returned_subperm spec horderly
  obtain ⟨items, hperm, hsublist⟩ := hsub
  have hnodup : items.Nodup := (Reach.called_nodup (fun _ _ _ hc => hc.2) h).sublist hsublist
  exact ⟨hperm.nodup_iff.mp hnodup, fun a ha => hsublist.subset (hperm.mem_iff.mpr ha),
    Reach.quiescent spec horderly⟩

end Results

/-- Decides whether neither an address nor an item is used again. -/
def freshCheck (c : Config (Shared σ) (Local κe κd) Event) (t : Tid) (i : Input) : Bool :=
  match c.locals t with
  | .idle =>
      match i.op with
      | some (.enqueue a) => a ∉ calledItems c.history
      | _ => true
  | .enqNew _ _ _ => c.shared.status i.addr = .unallocated
  | _ => true

theorem fresh_of_check {c : Config (Shared σ) (Local κe κd) Event} {t : Tid} {i : Input}
    (h : freshCheck c t i = true) : FreshAddress c t i ∧ FreshItem c t i := by
  refine ⟨fun item n start hl => ?_, fun hl a hop => ?_⟩
  · simpa [freshCheck, hl] using h
  · simpa [freshCheck, hl, hop] using h

end QueueFairness.LinkedRingQueue
