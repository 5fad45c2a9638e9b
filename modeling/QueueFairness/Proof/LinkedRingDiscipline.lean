import QueueFairness.Proof.CRQueueStep
import QueueFairness.Proof.LinkedRingReclaim
import QueueFairness.Proof.PRQueueStep
import QueueFairness.Proof.RingSpec

/-!
# The tickets of ring segments

Head and tail of a segment only grow, a closed segment stays closed, and the index of a cell only
moves on by rounds. This holds of a segment by itself, and so of every segment of a ring queue for
as long as its address is not handed out again: nobody is left in a segment that is deleted, and
what happens to the new segment at its address is a run of its own.
-/

namespace QueueFairness.LinkedRingQueue

open Interleaving

variable {σ κe κd : Type} {S : SegmentType σ κe κd} {maxThreads : Nat} {idx : σ → Nat → Word}

/-- What becomes of a segment. -/
structure Advances (S : SegmentType σ κe κd) (idx : σ → Nat → Word) (s s' : σ) : Prop where
  head : (S.base s).head ≤ (S.base s').head
  tail : (S.base s).tail.index ≤ (S.base s').tail.index
  closed : (S.base s).tail.flag = true → (S.base s').tail.flag = true
  idx : ∀ k, (idx s k).index ≤ (idx s' k).index

/-- The ticket discipline of a segment that threads use as they like, from any start; `idx` is the
index of a ticket's cell. -/
structure SegmentDiscipline (S : SegmentType σ κe κd) (size : Nat) (idx : σ → Nat → Word) :
    Prop where
  residue : ∀ {start c}, (segmentProgram S start).Reachable c →
    ∀ k, (idx c.shared k).index % size = k % size
  drawnHead : ∀ {start c u k}, (segmentProgram S start).Reachable c →
    .drawHead u k ∈ c.history → k < (S.base c.shared).head
  drawnTail : ∀ {start c u k}, (segmentProgram S start).Reachable c →
    .drawTail u k ∈ c.history → k < (S.base c.shared).tail.index
  advances : ∀ {start c t i s l es}, (segmentProgram S start).Reachable c →
    segmentStep S t i c.shared (c.locals t) = some (s, l, es) → Advances S idx c.shared s
  drawHead : ∀ {start c t i s l es u k}, (segmentProgram S start).Reachable c →
    segmentStep S t i c.shared (c.locals t) = some (s, l, es) → .drawHead u k ∈ es →
    es = [.drawHead u k] ∧ k = (S.base c.shared).head
  drawTail : ∀ {start c t i s l es u k}, (segmentProgram S start).Reachable c →
    segmentStep S t i c.shared (c.locals t) = some (s, l, es) → .drawTail u k ∈ es →
    es = [.drawTail u k] ∧ k = (S.base c.shared).tail.index
  refused : ∀ {t now item s l}, (S.enqueueStep t now item s l).2.1 = .inr false →
    Closed S (S.enqueueStep t now item s l).1

theorem Advances.refl (s : σ) : Advances S idx s s :=
  ⟨Nat.le_refl _, Nat.le_refl _, id, fun _ => Nat.le_refl _⟩

theorem Advances.trans {s s' s'' : σ} (h : Advances S idx s s') (h' : Advances S idx s' s'') :
    Advances S idx s s'' :=
  ⟨Nat.le_trans h.head h'.head, Nat.le_trans h.tail h'.tail, h'.closed ∘ h.closed,
    fun k => Nat.le_trans (h.idx k) (h'.idx k)⟩

/-! ### The segment at an address -/

/-- What the segment at address `s` has gone through since the address was handed out. -/
def life (s : Nat) (h : List Event) : List SegmentEvent :=
  h.foldl (fun es e =>
    match e with
    | .alloc _ s' => if s' = s then [] else es
    | e => es ++ (segmentEvent s e).toList) []

/-- The segment at address `s`, by itself. -/
def current (s : Nat) (c : Config (Shared σ) (Local κe κd) Event) :
    Config σ (SegmentLocal κe κd) SegmentEvent where
  shared := (c.shared.nodes s).segment
  locals t := (c.locals t).inSegment s
  history := life s c.history

section Life

variable {s : Nat} {h es : List Event}

theorem life_append (hes : ∀ u, .alloc u s ∉ es) :
    life s (h ++ es) = life s h ++ es.filterMap (segmentEvent s) := by
  induction es using List.reverseRecOn with
  | nil => simp
  | append_singleton es e ih =>
      have hlast : life s (h ++ (es ++ [e])) = life s (h ++ es) ++ (segmentEvent s e).toList := by
        rw [← List.append_assoc, life, List.foldl_append]
        cases e with
        | alloc u s' =>
            have hne : s' ≠ s := fun heq => hes u (by simp [heq])
            simp [hne, segmentEvent, life]
        | _ => rfl
      rw [hlast, ih fun u hu => hes u (by simp [hu])]
      cases he : segmentEvent s e <;> simp [he]

theorem life_alloc (u : Tid) : life s (h ++ [.alloc u s]) = [] := by
  simp [life]

theorem mem_life {before after : List Event} {e : SegmentEvent}
    (hafter : ∀ u, .alloc u s ∉ after) : e ∈ life s (before ++ .segment s e :: after) := by
  rw [List.append_cons, life_append hafter, List.mem_append]
  left
  rw [life_append (by simp)]
  simp [segmentEvent]

end Life

theorem Local.keeps_of_inSegment {l : Local κe κd} {s : Nat} (h : l.inSegment s ≠ .idle) :
    l.Keeps s := by
  have hne : ∀ {n : Nat} {x : SegmentLocal κe κd}, (if n = s then x else .idle) ≠ .idle → n = s :=
    fun {n x} hx => by
      by_contra hn
      exact hx (if_neg hn)
  cases l with
  | enqSegment | deqSegment | deqSegmentAgain => exact congrArg some (hne h)
  | enqNewSegment => exact .inr (hne h).symm
  | _ => exact absurd rfl h

section Results

variable {c : Config (Shared σ) (Local κe κd) Event} {s : Nat}

theorem current_update {t : Tid} {g : Shared σ} {l : Local κe κd} {es : List Event}
    (hes : ∀ u, .alloc u s ∉ es) :
    current s ⟨g, Function.update c.locals t l, c.history ++ es⟩
      = ⟨(g.nodes s).segment, Function.update (current s c).locals t (l.inSegment s),
        (current s c).history ++ es.filterMap (segmentEvent s)⟩ := by
  have hlocals : (fun u => (Function.update c.locals t l u).inSegment s)
      = Function.update (fun u => (c.locals u).inSegment s) t (l.inSegment s) :=
    Function.comp_update (Local.inSegment s) c.locals t l
  simp [current, hlocals, life_append hes]

/-- **The segment at an address goes through a run of its own**, from when the address was handed
out. -/
theorem Reach.current (h : (program S maxThreads).Reach (fun _ t _ => t < maxThreads) c) (s : Nat) :
    ∃ start, (segmentProgram S start).Reachable (current s c) := by
  induction h with
  | init => exact ⟨0, .init⟩
  | @step c _ t i hreach ht hnext ih =>
      obtain ⟨g, l, es, hstep, rfl⟩ := Program.next_eq_some hnext
      by_cases hnew : ∃ item ltail start, c.locals t = .enqNew item ltail start ∧ i.addr = s
      · obtain ⟨item, ltail, start, hloc, rfl⟩ := hnew
        rw [hloc] at hstep
        simp only [program, step, Option.ite_none_right_eq_some, Option.some.injEq,
          Prod.mk.injEq] at hstep
        obtain ⟨hfree, rfl, rfl, rfl⟩ := hstep
        -- Nobody is in what was at the address before.
        have hlocals : ∀ u, (c.locals u).inSegment i.addr = .idle := fun u => by
          by_contra hu
          exact hfree (Reach.keeps hreach (.inl (Local.keeps_of_inSegment hu)))
        have hcall : (segmentProgram S start).Reachable _ :=
          segment_called S start t item fun _ => trivial
        refine ⟨start, ?_⟩
        convert hcall using 1
        simp only [LinkedRingQueue.current, Config.mk.injEq]
        refine ⟨by simp [Shared.new], ?_, life_alloc t⟩
        funext u
        by_cases hu : u = t
        · subst hu
          simp [Local.inSegment]
        · simp [hu, hlocals u]
      · have hnew : ∀ item ltail start, c.locals t = .enqNew item ltail start → i.addr ≠ s :=
          fun item ltail start hloc heq => hnew ⟨item, ltail, start, hloc, heq⟩
        have hes : ∀ u, .alloc u s ∉ es := fun u hu => by
          obtain ⟨item, ltail, start, hloc, heq⟩ := step_alloc hstep hu
          exact hnew item ltail start hloc heq
        obtain ⟨start, hrun⟩ := ih
        rw [current_update hes]
        exact ⟨start, Reach.snoc_segment hrun (fun _ => trivial) rfl rfl
          (step_projected hnew hstep)⟩

/-! ### Steps -/

variable {t : Tid} {i : Input} {g : Shared σ} {l : Local κe κd} {es : List Event} {size : Nat}

/-- A step on the segment at an address, or on none. -/
theorem step_current (hes : ∀ u, .alloc u s ∉ es)
    (hstep : step S maxThreads t i c.shared (c.locals t) = some (g, l, es)) :
    (∃ j, segmentStep S t j (current s c).shared ((current s c).locals t)
        = some ((g.nodes s).segment, l.inSegment s, es.filterMap (segmentEvent s)))
      ∨ (g.nodes s).segment = (c.shared.nodes s).segment ∧ es.filterMap (segmentEvent s) = [] := by
  have hnew : ∀ item ltail start, c.locals t = .enqNew item ltail start → i.addr ≠ s := by
    rintro item ltail start hloc rfl
    rw [hloc] at hstep
    simp only [step, Option.ite_none_right_eq_some, Option.some.injEq, Prod.mk.injEq] at hstep
    obtain ⟨-, -, -, rfl⟩ := hstep
    exact hes t (by simp)
  exact (step_projected hnew hstep).imp id fun hout => ⟨hout.segment, hout.events⟩

theorem Reach.advances (law : SegmentDiscipline S size idx)
    (h : (program S maxThreads).Reach (fun _ t _ => t < maxThreads) c)
    (hstep : step S maxThreads t i c.shared (c.locals t) = some (g, l, es))
    (hes : ∀ u, .alloc u s ∉ es) :
    Advances S idx (c.shared.nodes s).segment (g.nodes s).segment := by
  obtain ⟨start, hrun⟩ := Reach.current h s
  rcases step_current hes hstep with ⟨j, hj⟩ | ⟨hsame, -⟩
  · exact law.advances hrun hj
  · exact hsame ▸ .refl _

/-- The segment that has refused the thread's item. -/
def Local.Refused : Local κe κd → Nat → Prop
  | .enqLoadStart _ ltail, s | .enqNew _ ltail _, s | .enqNewSegment _ ltail _ _, s
  | .enqCasNext _ ltail _, s => s = ltail
  | _, _ => False

theorem Local.keeps_of_refused {l : Local κe κd} (h : l.Refused s) : l.Keeps s := by
  cases l with
  | enqLoadStart => exact congrArg some h.symm
  | enqNew => exact h
  | enqNewSegment | enqCasNext => exact .inl h
  | _ => exact h.elim

theorem step_refused (law : SegmentDiscipline S size idx)
    (hstep : step S maxThreads t i c.shared (c.locals t) = some (g, l, es)) (hl : l.Refused s) :
    (c.locals t).Refused s ∨ Closed S (g.nodes s).segment := by
  cases hlocal : c.locals t with
  | enqSegment item ltail le =>
      rw [hlocal] at hstep
      cases hstep
      cases hres : (S.enqueueStep t i.ts item (c.shared.nodes ltail).segment le).2.1 with
      | inl le' => simp [hres, Local.Refused] at hl
      | inr b =>
          cases b with
          | true => simp [hres, Local.Refused] at hl
          | false =>
              obtain rfl : s = ltail := by simpa [hres, Local.Refused] using hl
              right
              rw [setSegment_segment, if_pos rfl]
              exact law.refused hres
  | enqNewSegment item ltail newTail le =>
      rw [hlocal] at hstep
      cases hstep
      cases hres : (S.enqueueStep t i.ts item (c.shared.nodes newTail).segment le).2.1 <;>
      · rw [hres] at hl
        exact .inl hl
  | enqLoadStart item ltail =>
      rw [hlocal] at hstep
      cases hstep
      exact .inl hl
  | enqNew item ltail start =>
      rw [hlocal] at hstep
      simp only [step, Option.ite_none_right_eq_some, Option.some.injEq, Prod.mk.injEq] at hstep
      obtain ⟨-, -, rfl, -⟩ := hstep
      exact .inl hl
  | idle =>
      rw [hlocal] at hstep
      obtain ⟨op, -, hop⟩ := Option.map_eq_some_iff.mp hstep
      cases op <;> cases hop <;> exact hl.elim
  | deqSegment n ld | deqSegmentAgain n m ld =>
      rw [hlocal] at hstep
      cases hstep
      rcases hres : (S.dequeueStep t i.ts (c.shared.nodes n).segment ld).2.1 with _ | _ | _ <;>
      · rw [hres] at hl
        exact hl.elim
  | deqRetire n lnext | deqScan lnext scan =>
      rw [hlocal] at hstep
      cases hstep
      unfold afterScan at hl
      split at hl <;> exact hl.elim
  | _ =>
      rw [hlocal] at hstep
      simp only [step] at hstep
      repeat' split at hstep
      all_goals
        cases hstep
        exact hl.elim

/-- **A segment that has refused an item stays closed** while the thread keeps it. -/
theorem Reach.refused (law : SegmentDiscipline S size idx)
    (h : (program S maxThreads).Reach (fun _ t _ => t < maxThreads) c) {u : Tid}
    (hu : (c.locals u).Refused s) : Closed S (c.shared.nodes s).segment := by
  induction h generalizing u with
  | init => exact hu.elim
  | @step c _ t i hreach ht hnext ih =>
      obtain ⟨g, l, es, hstep, rfl⟩ := Program.next_eq_some hnext
      have hkeep : ∀ {v}, (c.locals v).Refused s → Closed S (g.nodes s).segment := fun {v} hv => by
        refine (Reach.advances law hreach hstep fun w hw => ?_).closed (ih hv)
        obtain ⟨item, ltail, start, hloc, rfl⟩ := step_alloc hstep hw
        have hkept := Reach.keeps hreach (.inl (Local.keeps_of_refused hv))
        rw [show c.locals t = _ from hloc] at hstep
        simp only [program, LinkedRingQueue.step, Option.ite_none_right_eq_some] at hstep
        exact hstep.1 hkept
      by_cases hut : u = t
      · subst hut
        exact (step_refused law hstep (by simpa using hu)).elim hkeep id
      · exact hkeep (by simpa [hut] using hu)

theorem step_next (hstep : step S maxThreads t i c.shared (c.locals t) = some (g, l, es))
    (hes : ∀ u, .alloc u s ∉ es) :
    (g.nodes s).next = (c.shared.nodes s).next
      ∨ ∃ item m, c.locals t = .enqCasNext item s m ∧ (c.shared.nodes s).next = none
        ∧ (g.nodes s).next = some m := by
  rcases step_links hstep with ⟨item, n, m, hlocal, hnone, rfl, -, -⟩ | ⟨-, hnext, -⟩
  · by_cases hn : s = n
    · subst hn
      exact .inr ⟨item, m, hlocal, hnone, by simp [Shared.setNext]⟩
    · exact .inl (by simp [Shared.setNext, hn])
  · refine .inl (hnext s fun item n start hlocal heq => ?_)
    rw [hlocal] at hstep
    simp only [step, Option.ite_none_right_eq_some, Option.some.injEq, Prod.mk.injEq] at hstep
    obtain ⟨-, -, -, rfl⟩ := hstep
    exact hes t (by simp [heq])

/-! ### The discipline -/

/-- The ticket discipline of the segments of a ring queue. The words of a segment go one way for as
long as its address is not handed out again. -/
structure Disciplined (S : SegmentType σ κe κd) (size : Nat) (idx : σ → Nat → Word)
    (maxThreads : Nat) : Prop where
  residue : ∀ {c}, (program S maxThreads).Reach (fun _ t _ => t < maxThreads) c →
    ∀ s k, (idx (c.shared.nodes s).segment k).index % size = k % size
  heads : ∀ {c}, (program S maxThreads).Reach (fun _ t _ => t < maxThreads) c →
    ∀ {before between after s t u k}, c.history = before ++ .segment s (.drawHead t k)
      :: (between ++ .segment s (.drawHead u k) :: after) → ∃ v, .alloc v s ∈ between
  tails : ∀ {c}, (program S maxThreads).Reach (fun _ t _ => t < maxThreads) c →
    ∀ {before between after s t u k}, c.history = before ++ .segment s (.drawTail t k)
      :: (between ++ .segment s (.drawTail u k) :: after) → ∃ v, .alloc v s ∈ between
  advances : ∀ {c c' sched es s}, (program S maxThreads).Reach (fun _ t _ => t < maxThreads) c →
    (∀ p ∈ sched, p.1 < maxThreads) → (program S maxThreads).exec c sched = some c' →
    c'.history = c.history ++ es → (∀ v, .alloc v s ∉ es) →
    Advances S idx (c.shared.nodes s).segment (c'.shared.nodes s).segment
      ∧ ((c.shared.nodes s).next ≠ none → (c'.shared.nodes s).next = (c.shared.nodes s).next)
  links : ∀ {c c' t i es s}, (program S maxThreads).Reach (fun _ t _ => t < maxThreads) c →
    t < maxThreads → (program S maxThreads).next c t i = some c' →
    c'.history = c.history ++ es → (∀ v, .alloc v s ∉ es) →
    (c'.shared.nodes s).next ≠ (c.shared.nodes s).next →
    (c.shared.nodes s).next = none ∧ (c'.shared.nodes s).next ≠ none
      ∧ (S.base (c.shared.nodes s).segment).tail.flag = true

/-- A ticket that the segment at an address has given out since the address was, is not given out
again. -/
theorem Reach.drawn_once (draw : Tid → Nat → SegmentEvent) (counter : SegmentBase → Nat)
    (hdrawn : ∀ {start c u k}, (segmentProgram S start).Reachable c → draw u k ∈ c.history →
      k < counter (S.base c.shared))
    (hdraw : ∀ {start c t i s l es u k}, (segmentProgram S start).Reachable c →
      segmentStep S t i c.shared (c.locals t) = some (s, l, es) → draw u k ∈ es →
      es = [draw u k] ∧ k = counter (S.base c.shared))
    (h : (program S maxThreads).Reach (fun _ t _ => t < maxThreads) c)
    {before between after : List Event} {u : Tid} {k : Nat}
    (heq : c.history = before ++ .segment s (draw t k)
      :: (between ++ .segment s (draw u k) :: after)) : ∃ v, .alloc v s ∈ between := by
  by_contra hnone
  have heq : c.history = (before ++ .segment s (draw t k) :: between)
      ++ .segment s (draw u k) :: after := by simpa using heq
  obtain ⟨d, v, i, g, l, es, fs, hreach, -, hstep, hbefore⟩ := h.emitted heq
  obtain ⟨start, hrun⟩ := Reach.current hreach s
  have hes : ∀ w, .alloc w s ∉ es ++ .segment s (draw u k) :: fs := fun w hw => by
    obtain ⟨item, ltail, start, hloc, rfl⟩ := step_alloc hstep hw
    rw [hloc] at hstep
    simp only [program, step, Option.ite_none_right_eq_some, Option.some.injEq,
      Prod.mk.injEq] at hstep
    obtain ⟨-, -, -, hes⟩ := hstep
    simp [List.singleton_eq_append_iff] at hes
  rcases step_current hes hstep with ⟨j, hj⟩ | ⟨-, hnil⟩
  · obtain ⟨hone, hk⟩ := hdraw (u := u) (k := k) hrun hj
      (List.mem_filterMap.mpr
        ⟨_, List.mem_append_right _ List.mem_cons_self, by simp [segmentEvent]⟩)
    have hes₀ : es.filterMap (segmentEvent s) = [] := by
      have hlen := congrArg List.length hone
      simp only [List.filterMap_append, List.filterMap_cons, segmentEvent, if_true,
        List.length_append, List.length_cons, List.length_nil] at hlen
      exact List.eq_nil_of_length_eq_zero (by omega)
    have hmem : draw t k ∈ (LinkedRingQueue.current s d).history := by
      have hfirst : draw t k ∈ life s (before ++ .segment s (draw t k) :: between) :=
        mem_life fun w hw => hnone ⟨w, hw⟩
      rw [hbefore, life_append fun w hw => hes w (List.mem_append_left _ hw), hes₀,
        List.append_nil] at hfirst
      exact hfirst
    have hlt := hdrawn hrun hmem
    exact absurd (hk ▸ hlt) (Nat.lt_irrefl _)
  · have hmem : draw u k ∈ (es ++ .segment s (draw u k) :: fs).filterMap (segmentEvent s) :=
      List.mem_filterMap.mpr ⟨_, List.mem_append_right _ List.mem_cons_self, by simp [segmentEvent]⟩
    rw [hnil] at hmem
    exact absurd hmem List.not_mem_nil

theorem Reach.stretch (law : SegmentDiscipline S size idx)
    (h : (program S maxThreads).Reach (fun _ t _ => t < maxThreads) c)
    {sched : List (Tid × Input)} (hsched : ∀ p ∈ sched, p.1 < maxThreads)
    {c' : Config (Shared σ) (Local κe κd) Event}
    (hexec : (program S maxThreads).exec c sched = some c')
    (hhistory : c'.history = c.history ++ es) (hes : ∀ v, .alloc v s ∉ es) :
    Advances S idx (c.shared.nodes s).segment (c'.shared.nodes s).segment
      ∧ ((c.shared.nodes s).next ≠ none →
        (c'.shared.nodes s).next = (c.shared.nodes s).next) := by
  induction sched generalizing c es with
  | nil =>
      obtain rfl : c = c' := by simpa [Program.exec] using hexec
      exact ⟨.refl _, fun _ => rfl⟩
  | cons head rest ih =>
      obtain ⟨t, i⟩ := head
      obtain ⟨d, hnext, hrest⟩ := Option.bind_eq_some_iff.mp hexec
      have ht : t < maxThreads := hsched (t, i) List.mem_cons_self
      have hreach := h.step ht hnext
      obtain ⟨g, l, fs, hstep, rfl⟩ := Program.next_eq_some hnext
      obtain ⟨gs, hgs⟩ := Program.exec_history hrest
      obtain rfl : es = fs ++ gs := by
        rw [hgs, List.append_assoc] at hhistory
        exact (List.append_cancel_left hhistory).symm
      have hfs : ∀ v, .alloc v s ∉ fs := fun v hv => hes v (List.mem_append_left _ hv)
      obtain ⟨hrest', hkeep⟩ := ih hreach (fun p hp => hsched p (List.mem_cons_of_mem _ hp)) hrest
        hgs fun v hv => hes v (List.mem_append_right _ hv)
      refine ⟨(Reach.advances law h hstep hfs).trans hrest', fun hlinked => ?_⟩
      rcases step_next hstep hfs with hsame | ⟨_, _, -, hnone, -⟩
      · exact (hkeep (hsame ▸ hlinked)).trans hsame
      · exact absurd hnone hlinked

/-- **A ring queue keeps the ticket discipline of its segments.** -/
theorem SegmentDiscipline.disciplined (law : SegmentDiscipline S size idx) (maxThreads : Nat) :
    Disciplined S size idx maxThreads where
  residue h s k := by
    obtain ⟨start, hrun⟩ := Reach.current h s
    exact law.residue hrun k
  heads h _ _ _ _ _ _ _ heq :=
    Reach.drawn_once .drawHead (fun b => b.head) law.drawnHead law.drawHead h heq
  tails h _ _ _ _ _ _ _ heq :=
    Reach.drawn_once .drawTail (fun b => b.tail.index) law.drawnTail law.drawTail h heq
  advances h hsched hexec hhistory hes := Reach.stretch law h hsched hexec hhistory hes
  links {c c' t i es s} h _ hnext hhistory hes hchanged := by
    obtain ⟨g, l, fs, hstep, rfl⟩ := Program.next_eq_some hnext
    obtain rfl := List.append_cancel_left hhistory
    rcases step_next hstep hes with hsame | ⟨item, m, hlocal, hnone, hsome⟩
    · exact absurd hsame hchanged
    · refine ⟨hnone, by simp [hsome], Reach.refused law h (u := t) ?_⟩
      rw [hlocal]
      exact rfl

end Results

/-- A segment whose cells have indices that stay in their residue and only grow. -/
theorem CellInvariant.segmentDiscipline {R : RingType S} {ok : σ → κd → Prop} {γ : Type}
    (I : CellInvariant R ok γ) (hok : ∀ s l, ok s l)
    (hresidue : ∀ {w}, I.glob w → ∀ k, (idx w.shared k).index % size = k % size)
    (hrely : ∀ {t w w'}, I.rely t w w' → ∀ k, (idx w.shared k).index ≤ (idx w'.shared k).index) :
    SegmentDiscipline S size idx := by
  have hholds : ∀ {start c}, (segmentProgram S start).Reachable c →
      ∃ x, (Tickets (S.base c.shared) c.history ∧ I.glob ⟨x, c.shared, c.history⟩)
        ∧ ∀ t, R.Thread c.history t (c.locals t) ∧ I.Loc ⟨x, c.shared, c.history⟩ t (c.locals t) :=
    fun {start c} h => (I.segmentInvariant start).holds (h.mono fun _ _ _ _ _ _ => hok _ _)
  refine ⟨fun h k => ?_, fun h hk => (R.tickets h).1.drawn hk, fun h hk => (R.tickets h).1.tail hk,
    fun {start c t i s l es} h hstep => ?_, fun h hstep hk => R.step_drawHead hstep hk,
    fun h hstep hk => R.step_drawTail hstep hk, R.refused⟩
  · obtain ⟨x, ⟨-, hw⟩, -⟩ := hholds h
    exact hresidue hw k
  · obtain ⟨hhead, htail, hclosed⟩ := R.step_base h hstep
    obtain ⟨x, ⟨htickets, hw⟩, hl⟩ := hholds h
    obtain ⟨x', -, -, hothers⟩ :=
      I.step_cells htickets hw (hl t).1 (hl t).2 (fun _ _ => hok _ _) hstep
    -- Every other thread may rely on the indices.
    exact ⟨hhead, htail, fun hc => (hclosed hc).1, hrely (hothers (t + 1) (Nat.succ_ne_self t))⟩

end QueueFairness.LinkedRingQueue

namespace QueueFairness

open Interleaving LinkedRingQueue

namespace PRQueue

/-- The index of a ticket's cell. -/
def Segment.idx (L : Layout) (s : Segment) (k : Nat) : Word := (s.cell L k).idx

theorem segmentDiscipline (L : Layout) : SegmentDiscipline (type L) L.size (Segment.idx L) :=
  (cellInvariant L False).segmentDiscipline (fun _ _ => False.elim)
    (fun hw => hw.cells.residue) fun hrely k => Word.index_le (hrely.idx k)

end PRQueue

namespace CRQueue

/-- The index of a ticket's cell. -/
def Segment.idx (L : Layout) (s : Segment) (k : Nat) : Word := (s.cell L k).idx

theorem segmentDiscipline (L : Layout) : SegmentDiscipline (type L) L.size (Segment.idx L) :=
  (cellInvariant L).segmentDiscipline (fun _ _ => trivial)
    (fun hw => hw.cells.residue) fun hrely k => Cell.index_le (hrely.rank k)

end CRQueue

/-- **Every ring segment keeps its ticket discipline**, by itself from any start and in the list of
a ring queue. -/
theorem ticketDiscipline (L : Layout) (maxThreads : Nat) :
    (SegmentDiscipline (PRQueue.type L) L.size (PRQueue.Segment.idx L)
        ∧ Disciplined (PRQueue.type L) L.size (PRQueue.Segment.idx L) maxThreads)
      ∧ SegmentDiscipline (CRQueue.type L) L.size (CRQueue.Segment.idx L)
        ∧ Disciplined (CRQueue.type L) L.size (CRQueue.Segment.idx L) maxThreads :=
  ⟨⟨PRQueue.segmentDiscipline L, (PRQueue.segmentDiscipline L).disciplined maxThreads⟩,
    CRQueue.segmentDiscipline L, (CRQueue.segmentDiscipline L).disciplined maxThreads⟩

end QueueFairness
