import QueueFairness.Proof.LinkedRingChain

/-!
# A segment by itself

What the threads of a ring queue do to one of its segments is a run of that segment alone.
-/

namespace QueueFairness.LinkedRingQueue

open Interleaving LinkedList

variable {σ κe κd : Type} {S : SegmentType σ κe κd} {maxThreads : Nat}

/-- Where the thread stands in the operations of segment `s`. -/
def Local.inSegment (s : Nat) : Local κe κd → SegmentLocal κe κd
  | .enqSegment item ltail l => if ltail = s then .enqueue item l else .idle
  | .enqNewSegment item _ newTail l => if newTail = s then .enqueue item l else .idle
  | .deqSegment lhead l | .deqSegmentAgain lhead _ l => if lhead = s then .dequeue l else .idle
  | _ => .idle

/-- A thread in a dequeue of segment `s`. -/
theorem Local.inSegment_eq_dequeue {s : Nat} {l : Local κe κd} {ld : κd}
    (h : l.inSegment s = .dequeue ld) :
    l = .deqSegment s ld ∨ ∃ n, l = .deqSegmentAgain s n ld := by
  unfold Local.inSegment at h
  split at h <;> (try split at h) <;> cases h
  · rename_i hs
    exact .inl (by rw [hs])
  · rename_i hs
    exact .inr ⟨_, by rw [hs]⟩

/-- What segment `s` has gone through. -/
def projected (s : Nat) (c : Config (Shared σ) (Local κe κd) Event) :
    Config σ (SegmentLocal κe κd) SegmentEvent where
  shared := (c.shared.nodes s).segment
  locals t := (c.locals t).inSegment s
  history := c.history.filterMap (segmentEvent s)

section Steps

variable {t : Tid} {i : Input} {g g' : Shared σ} {l l' : Local κe κd} {es : List Event} {s : Nat}

/-- A step of thread `t` on segment `s`, as a step of that segment. -/
def StepsIn (S : SegmentType σ κe κd) (t : Tid) (s : Nat) (g g' : Shared σ) (l l' : Local κe κd)
    (es : List Event) : Prop :=
  ∃ j, segmentStep S t j (g.nodes s).segment (l.inSegment s)
    = some ((g'.nodes s).segment, l'.inSegment s, es.filterMap (segmentEvent s))

/-- A step of thread `t` that segment `s` does not see. -/
structure StepsOutside (s : Nat) (g g' : Shared σ) (l l' : Local κe κd) (es : List Event) :
    Prop where
  segment : (g'.nodes s).segment = (g.nodes s).segment
  inSegment : l'.inSegment s = l.inSegment s
  events : es.filterMap (segmentEvent s) = []

theorem setSegment_segment (g : Shared σ) (s n : Nat) (segment : σ) :
    ((g.setSegment s segment).nodes n).segment
      = if n = s then segment else (g.nodes n).segment := by
  by_cases hn : n = s
  · subst hn
    simp [Shared.setSegment]
  · simp [Shared.setSegment, hn]

theorem setNext_segment (g : Shared σ) (s n : Nat) (next : Option Nat) :
    ((g.setNext s next).nodes n).segment = (g.nodes n).segment := by
  by_cases hn : n = s
  · subst hn
    simp [Shared.setNext]
  · simp [Shared.setNext, hn]

theorem filterMap_segmentEvent (s n : Nat) (es : List SegmentEvent) :
    (es.map (.segment n)).filterMap (segmentEvent s) = if n = s then es else [] := by
  rw [List.filterMap_map]
  by_cases hn : n = s
  · subst hn
    simp [segmentEvent, Function.comp_def]
  · simp [segmentEvent, Function.comp_def, hn]

/-- A thread calls an operation of segment `n`. -/
theorem steps_call {n : Nat} (hseg : (g'.nodes s).segment = (g.nodes s).segment)
    (hl : l.inSegment s = .idle) (op : Option Nat)
    (hl' : l'.inSegment s = if n = s then
      op.elim (.dequeue S.dequeue) (.enqueue · S.enqueue) else .idle)
    (hes : es.filterMap (segmentEvent s) = []) :
    StepsIn S t s g g' l l' es ∨ StepsOutside s g g' l l' es := by
  by_cases hn : n = s
  · left
    refine ⟨{ op := some op }, ?_⟩
    rw [hl, hl', if_pos hn, hseg, hes]
    cases op <;> rfl
  · right
    exact ⟨hseg, by rw [hl', if_neg hn, hl], hes⟩

/-- A step of an operation on segment `n`, which is `s` or another one. -/
theorem steps_operation {n : Nat} {o o' : SegmentLocal κe κd} {segment : σ}
    {fs : List SegmentEvent} (hl : l.inSegment s = if n = s then o else .idle)
    (hl' : l'.inSegment s = if n = s then o' else .idle)
    (hstep : segmentStep S t { ts := i.ts } (g.nodes n).segment o = some (segment, o', fs)) :
    StepsIn S t s g (g.setSegment n segment) l l' (fs.map (.segment n))
      ∨ StepsOutside s g (g.setSegment n segment) l l' (fs.map (.segment n)) := by
  by_cases hn : n = s
  · left
    refine ⟨{ ts := i.ts }, ?_⟩
    rw [hl, if_pos hn, hl', if_pos hn, filterMap_segmentEvent, if_pos hn, setSegment_segment,
      if_pos hn.symm, ← hn]
    exact hstep
  · right
    refine ⟨?_, ?_, ?_⟩
    · rw [setSegment_segment, if_neg (Ne.symm hn)]
    · rw [hl', if_neg hn, hl, if_neg hn]
    · rw [filterMap_segmentEvent, if_neg hn]

theorem steps_enqueue {n item : Nat} {le : κe} {next : κe ⊕ Bool → Local κe κd}
    (hl : l.inSegment s = if n = s then .enqueue item le else .idle)
    (hnext : ∀ r, (next r).inSegment s
      = if n = s then r.elim (.enqueue item) (fun _ => .idle) else .idle)
    (hstep : enqueueStep S t i g item n le next = (g', l', es)) :
    StepsIn S t s g g' l l' es ∨ StepsOutside s g g' l l' es := by
  cases hstep
  exact steps_operation hl (hnext _) rfl

theorem steps_dequeue {n : Nat} {ld : κd} {next : κd ⊕ Option Nat → Local κe κd}
    (hl : l.inSegment s = if n = s then .dequeue ld else .idle)
    (hnext : ∀ r, (next r).inSegment s
      = if n = s then r.elim .dequeue (fun _ => .idle) else .idle)
    (hstep : dequeueStep S t i g n ld next = (g', l', es)) :
    StepsIn S t s g g' l l' es ∨ StepsOutside s g g' l l' es := by
  cases hstep
  exact steps_operation hl (hnext _) rfl

/-- A step on another segment, or on none. -/
theorem step_projected
    (hnew : ∀ item ltail start, l = .enqNew item ltail start → i.addr ≠ s)
    (hstep : step S maxThreads t i g l = some (g', l', es)) :
    StepsIn S t s g g' l l' es ∨ StepsOutside s g g' l l' es := by
  cases l with
  | idle =>
      obtain ⟨op, -, hop⟩ := Option.map_eq_some_iff.mp hstep
      cases op <;> cases hop <;> exact .inr ⟨rfl, rfl, rfl⟩
  | enqLoadNext item ltail =>
      simp only [step] at hstep
      split at hstep <;> cases hstep
      · exact .inr ⟨rfl, rfl, rfl⟩
      · exact steps_call rfl rfl (some item) rfl rfl
  | enqSegment item ltail le =>
      refine steps_enqueue rfl (fun r => ?_) (Option.some.inj hstep)
      rcases r with _ | _ | _ <;> simp [Local.inSegment]
  | enqNew item ltail start =>
      simp only [step, Option.ite_none_right_eq_some, Option.some.injEq, Prod.mk.injEq] at hstep
      obtain ⟨-, rfl, rfl, rfl⟩ := hstep
      have hne := hnew item ltail start rfl
      refine .inr ⟨?_, ?_, rfl⟩
      · simp [Shared.new, Ne.symm hne]
      · simp [Local.inSegment, hne]
  | enqNewSegment item ltail newTail le =>
      refine steps_enqueue rfl (fun r => ?_) (Option.some.inj hstep)
      rcases r with _ | _ <;> simp [Local.inSegment]
  | enqCasNext item ltail newTail =>
      simp only [step] at hstep
      split at hstep <;> cases hstep
      · exact .inr ⟨setNext_segment .., rfl, rfl⟩
      · exact .inr ⟨rfl, rfl, rfl⟩
  | enqCasTail item ltail newTail =>
      cases hstep
      refine .inr ⟨?_, rfl, rfl⟩
      split <;> rfl
  | deqReload lhead =>
      simp only [step] at hstep
      split at hstep <;> cases hstep
      · exact .inr ⟨rfl, rfl, rfl⟩
      · exact steps_call rfl rfl none rfl rfl
  | deqSegment lhead ld =>
      refine steps_dequeue rfl (fun r => ?_) (Option.some.inj hstep)
      rcases r with _ | _ | _ <;> simp [Local.inSegment]
  | deqLoadNext lhead =>
      simp only [step] at hstep
      split at hstep <;> cases hstep
      · exact .inr ⟨rfl, rfl, rfl⟩
      · exact steps_call rfl rfl none rfl rfl
  | deqSegmentAgain lhead lnext ld =>
      refine steps_dequeue rfl (fun r => ?_) (Option.some.inj hstep)
      rcases r with _ | _ | _ <;> simp [Local.inSegment]
  | deqRetire lhead lnext =>
      cases hstep
      exact .inr ⟨rfl, by unfold afterScan; split <;> rfl, rfl⟩
  | deqScan lnext scan =>
      cases hstep
      refine .inr ⟨?_, by unfold afterScan; split <;> rfl, rfl⟩
      cases scan <;> rfl
  | enqReload | enqHelpTail | deqCasHead | sizeProtectHead | sizeProtectTail | sizeClear =>
      simp only [step] at hstep
      split at hstep <;> cases hstep <;> exact .inr ⟨rfl, rfl, rfl⟩
  | enqLoadTail | enqProtect | enqLoadStart | enqDelete | enqClear | deqLoadHead | deqProtect
  | deqClear | sizePublishHead | sizePublishTail | sizeLoadTail | sizeLoadHead =>
      cases hstep
      exact .inr ⟨rfl, rfl, rfl⟩

/-- What a step tells, by where its thread stands. -/
inductive Tells (t : Tid) (i : Input) : Local κe κd → List Event → Prop
  | nothing {l : Local κe κd} : Tells t i l []
  | call {op : Op} (hop : i.op = some op) : Tells t i .idle [.call t op]
  | segment {l : Local κe κd} (s : Nat) (es : List SegmentEvent) : Tells t i l (es.map (.segment s))
  | alloc {item ltail start : Nat} : Tells t i (.enqNew item ltail start) [.alloc t i.addr]
  | link {item ltail s : Nat} : Tells t i (.enqCasNext item ltail s) [.link t s]
  | retEnq {a : Nat} : Tells t i (.enqClear a) [.retEnq t a]
  | retDeq {item : Option Nat} : Tells t i (.deqClear item) [.retDeq t item]
  | retSize {ihp size : Nat} : Tells t i (.sizeClear ihp size) [.retSize t size]

theorem step_tells (hstep : step S maxThreads t i g l = some (g', l', es)) : Tells t i l es := by
  cases l with
  | idle =>
      obtain ⟨op, hop, heq⟩ := Option.map_eq_some_iff.mp hstep
      cases op <;> cases heq <;> exact .call hop
  | enqSegment | enqNewSegment | deqSegment | deqSegmentAgain =>
      cases hstep
      exact .segment ..
  | enqNew =>
      simp only [step, Option.ite_none_right_eq_some, Option.some.injEq, Prod.mk.injEq] at hstep
      obtain ⟨-, -, -, rfl⟩ := hstep
      exact .alloc
  | enqCasNext =>
      simp only [step] at hstep
      split at hstep <;> cases hstep
      · exact .link
      · exact .nothing
  | enqClear =>
      cases hstep
      exact .retEnq
  | deqClear =>
      cases hstep
      exact .retDeq
  | sizeClear =>
      simp only [step] at hstep
      split at hstep <;> cases hstep
      · exact .nothing
      · exact .retSize
  | _ =>
      simp only [step] at hstep
      repeat' split at hstep
      all_goals
        cases hstep
        exact .nothing

theorem step_alloc {u : Tid} (hstep : step S maxThreads t i g l = some (g', l', es))
    (hmem : .alloc u s ∈ es) :
    ∃ item ltail start, l = .enqNew item ltail start ∧ i.addr = s := by
  cases step_tells hstep with
  | @alloc item ltail start =>
      obtain ⟨-, rfl⟩ : u = t ∧ s = i.addr := by simpa using hmem
      exact ⟨item, ltail, start, rfl, rfl⟩
  | _ => simp at hmem

end Steps

/-- A thread in an operation of a segment has allocated it, or found it in the list. -/
theorem Loc.status {w : W σ} {t : Tid} {l : Local κe κd} (hw : Glob w) (hl : Loc w t l) {s : Nat}
    (hs : l.inSegment s ≠ .idle) : w.shared.status s ≠ .unallocated := by
  cases l with
  | enqSegment item n le | deqSegment n ld =>
      obtain rfl : n = s := by
        by_contra hne
        exact hs (if_neg hne)
      exact hw.status hl
  | enqNewSegment item ltail n le =>
      obtain rfl : n = s := by
        by_contra hne
        exact hs (if_neg hne)
      exact hw.alloc hl.2.alloc
  | deqSegmentAgain n lnext ld =>
      obtain rfl : n = s := by
        by_contra hne
        exact hs (if_neg hne)
      obtain ⟨q, hq, -⟩ := hl
      exact hw.status ⟨q, hq⟩
  | _ => exact absurd rfl hs

/-- A run of segment `s` goes on with what thread `t` does to it. -/
theorem Reach.snoc_segment {start : Nat}
    {okS : Config σ (SegmentLocal κe κd) SegmentEvent → Tid → SegmentInput → Prop}
    {d : Config σ (SegmentLocal κe κd) SegmentEvent} {s : Nat} {t : Tid} {g g' : Shared σ}
    {l l' : Local κe κd} {es : List Event} (hrun : (segmentProgram S start).Reach okS d)
    (hok : ∀ j, okS d t j) (hshared : d.shared = (g.nodes s).segment)
    (hlocal : d.locals t = l.inSegment s)
    (hstep : StepsIn S t s g g' l l' es ∨ StepsOutside s g g' l l' es) :
    (segmentProgram S start).Reach okS ⟨(g'.nodes s).segment,
      Function.update d.locals t (l'.inSegment s), d.history ++ es.filterMap (segmentEvent s)⟩ := by
  rcases hstep with ⟨j, hj⟩ | hout
  · rw [← hshared, ← hlocal] at hj
    exact hrun.snoc (hok j) hj
  · have hkeep : Function.update d.locals t (l'.inSegment s) = d.locals := by
      rw [hout.inSegment, ← hlocal, Function.update_eq_self]
    rw [hout.segment, ← hshared, hkeep, hout.events, List.append_nil]
    exact hrun

section Results

variable {ok : Config (Shared σ) (Local κe κd) Event → Tid → Input → Prop}
  {okS : Config σ (SegmentLocal κe κd) SegmentEvent → Tid → Prop}
  {c : Config (Shared σ) (Local κe κd) Event}

theorem Reach.chained (hok : ∀ c t i, ok c t i → FreshAddress c t i)
    (h : (program S maxThreads).Reach ok c) :
    Glob ⟨(), c.shared, c.history⟩ ∧ ∀ t, Loc ⟨(), c.shared, c.history⟩ t (c.locals t) := by
  obtain ⟨_, hc⟩ := (chainInvariant S maxThreads).holds (h.mono hok)
  exact hc

theorem projected_update (s : Nat) (t : Tid) (g : Shared σ) (l : Local κe κd) (es : List Event) :
    projected s ⟨g, Function.update c.locals t l, c.history ++ es⟩
      = ⟨(g.nodes s).segment, Function.update (projected s c).locals t (l.inSegment s),
        (projected s c).history ++ es.filterMap (segmentEvent s)⟩ := by
  have hlocals : (fun u => (Function.update c.locals t l u).inSegment s)
      = Function.update (fun u => (c.locals u).inSegment s) t (l.inSegment s) :=
    Function.comp_update (Local.inSegment s) c.locals t l
  simp [projected, hlocals]

/-- Nobody has been in a segment that nobody has allocated. -/
theorem projected_unused {s : Nat} (hw : Glob ⟨(), c.shared, c.history⟩)
    (hl : ∀ t, Loc ⟨(), c.shared, c.history⟩ t (c.locals t))
    (hs : c.shared.status s = .unallocated) :
    (projected s c).locals = (fun _ => .idle) ∧ (projected s c).history = [] := by
  constructor
  · funext u
    by_contra hu
    exact Loc.status hw (hl u) hu hs
  · refine List.filterMap_eq_nil_iff.mpr fun e he => ?_
    cases e with
    | segment s' e' =>
        have hne : s' ≠ s := fun heq => hw.events he (heq ▸ hs)
        simp [segmentEvent, hne]
    | _ => rfl

/-- The run of a new segment begins with the call of the thread that has allocated it. -/
theorem segment_called (S : SegmentType σ κe κd) (start : Nat)
    {okP : Config σ (SegmentLocal κe κd) SegmentEvent → Tid → SegmentInput → Prop} (t : Tid)
    (item : Nat) (hok : ∀ i, okP (segmentProgram S start).init t i) :
    (segmentProgram S start).Reach okP
      ⟨S.new start, Function.update (fun _ => .idle) t (.enqueue item S.enqueue), []⟩ :=
  .step .init (hok { op := some (some item) }) rfl

/-- **A segment goes through a run of its own.** -/
theorem Reach.segment (hok : ∀ c t i, ok c t i → FreshAddress c t i ∧ ∀ s, okS (projected s c) t)
    (hidle : ∀ c t, c.locals t = .idle → okS c t) (h : (program S maxThreads).Reach ok c) {s : Nat}
    (hs : Known c.history s) :
    ∃ start, (segmentProgram S start).Reach (fun c t _ => okS c t) (projected s c) := by
  induction h with
  | init => exact ⟨0, .init⟩
  | @step c _ t i hreach hstepok hnext ih =>
      obtain ⟨g, l, es, hstep, rfl⟩ := Program.next_eq_some hnext
      obtain ⟨hw, hl⟩ := Reach.chained (fun c t i hc => (hok c t i hc).1) hreach
      obtain ⟨hfresh, hokS⟩ := hok c t i hstepok
      rw [projected_update]
      by_cases hnew : ∃ item ltail start, c.locals t = .enqNew item ltail start ∧ i.addr = s
      · -- Nobody is in a new segment, and its run begins with the call of its allocator.
        obtain ⟨item, ltail, start, hloc, rfl⟩ := hnew
        obtain ⟨hlocals, hhistory⟩ := projected_unused hw hl (hfresh item ltail start hloc)
        rw [hloc] at hstep
        simp only [program, step, Option.ite_none_right_eq_some, Option.some.injEq,
          Prod.mk.injEq] at hstep
        obtain ⟨-, rfl, rfl, rfl⟩ := hstep
        refine ⟨start, ?_⟩
        have hsegment : ((c.shared.new S i.addr start).nodes i.addr).segment = S.new start := by
          simp [Shared.new]
        have hinside : (Local.enqNewSegment item ltail i.addr S.enqueue : Local κe κd).inSegment
            i.addr = .enqueue item S.enqueue := if_pos rfl
        rw [hlocals, hhistory, hsegment, hinside]
        exact segment_called S start t item fun _ => hidle _ _ rfl
      · have hnew : ∀ item ltail start, c.locals t = .enqNew item ltail start → i.addr ≠ s :=
          fun item ltail start hloc heq => hnew ⟨item, ltail, start, hloc, heq⟩
        have hold : Known c.history s := hs.imp_right fun halloc => by
          obtain ⟨u, hu⟩ := halloc
          rcases List.mem_append.mp hu with hu | hu
          · exact ⟨u, hu⟩
          · obtain ⟨item, ltail, start, hloc, heq⟩ := step_alloc hstep hu
            exact absurd heq (hnew item ltail start hloc)
        obtain ⟨start, hrun⟩ := ih hold
        exact ⟨start, Reach.snoc_segment hrun (fun _ => hokS s) rfl rfl (step_projected hnew hstep)⟩

end Results

end QueueFairness.LinkedRingQueue
