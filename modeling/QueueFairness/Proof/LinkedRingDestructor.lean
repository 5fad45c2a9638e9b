import QueueFairness.Lib.NodeOwners
import QueueFairness.Proof.LinkedRingReclaim

/-!
# The destructor of the list of segments

A segment is in the list from `head` on, on some thread's list of retired ones, or in the hands of
one thread that links, retires or deletes it before its call is over. So with no call in progress
nothing is lost, and the destructor deletes what is left, and each segment once.
-/

namespace QueueFairness.LinkedRingQueue

open Interleaving HazardPointers LinkedList
open ProtectedList (Inv Move Answers)

variable {σ κe κd : Type} {S : SegmentType σ κe κd} {maxThreads : Nat}

/-- The segment the thread has in its hands: a new one, or the one it has removed. -/
def Local.inHand : Local κe κd → Option Nat
  | .enqNewSegment _ _ newTail _ | .enqCasNext _ _ newTail | .enqDelete _ newTail _ => some newTail
  | .deqRetire lhead _ => some lhead
  | _ => none

/-- What a thread answers for, it has in its hands. -/
def InHands (x : Ghost) (t : Tid) (l : Local κe κd) : Prop := ∀ n, Answers x t n → l.inHand = some n

section Steps

variable {t : Tid} {i : Input} {g g' : Shared σ} {l l' : Local κe κd} {es : List Event}
  {x x' : Ghost}

/-- A step that allocates nothing and does not move `head`. -/
theorem InHands.keep (hb : InHands x t l) (hw : Inv (Scanned maxThreads) x g.asList)
    (hmove : Move (Scanned maxThreads) t x g.asList x' g'.asList)
    (hstatus : ∀ n, g'.status n = .allocated → g.status n = .allocated) (hhead : g'.head = g.head) :
    InHands x' t l := by
  intro n ha
  rcases (hmove.since hw ha).before with hbefore | hfree | ⟨heq, hne⟩
  · exact hb n hbefore
  · exact absurd (hstatus n (ha.allocated (hmove.inv hw))) hfree
  · exact absurd (hhead.trans heq) hne

theorem step_inHands (hw : Inv (Scanned maxThreads) x g.asList) (hl : Protects x g.asList t l)
    (hmove : Move (Scanned maxThreads) t x g.asList x' g'.asList) (hb : InHands x t l)
    (hstep : step S maxThreads t i g l = some (g', l', es)) : InHands x' t l' := by
  -- What a thread has in its hands it keeps there, when the step is one of no account.
  have hquiet : g'.status = g.status → g'.head = g.head → l'.inHand = l.inHand →
      InHands x' t l' := by
    intro hstatus hhead hsame n ha
    rw [hsame]
    exact hb.keep hw hmove (fun n hn => hstatus ▸ hn) hhead n ha
  cases l with
  | idle =>
      obtain ⟨op, -, hop⟩ := Option.map_eq_some_iff.mp hstep
      cases op <;> cases hop <;> exact hquiet rfl rfl rfl
  | enqNew item ltail start =>
      simp only [step, Option.ite_none_right_eq_some, Option.some.injEq, Prod.mk.injEq] at hstep
      obtain ⟨hfree, rfl, rfl, -⟩ := hstep
      intro n ha
      rcases (hmove.since hw ha).before with hbefore | hnew | ⟨heq, hne⟩
      · exact absurd (hb n hbefore) (by simp [Local.inHand])
      · have hn : (g.new S i.addr start).status n = .allocated := ha.allocated (hmove.inv hw)
        by_cases hni : n = i.addr
        · exact congrArg some hni.symm
        · have hold : g.status n = .allocated := by
            simpa [Shared.new, Shared.setStatus, hni] using hn
          exact absurd hold hnew
      · exact absurd heq hne
  | enqNewSegment item ltail newTail le =>
      cases hstep
      apply hquiet rfl rfl
      cases (S.enqueueStep t i.ts item (g.nodes newTail).segment le).2.1 <;> rfl
  | enqCasNext item ltail newTail =>
      simp only [step] at hstep
      split at hstep <;> cases hstep
      · -- The new segment has been linked.
        rename_i hnext
        intro n ha
        have hsince := hmove.since hw ha
        have hhand := hb.keep hw hmove (fun _ hn => hn) rfl n ha
        obtain rfl : newTail = n := Option.some.inj hhand
        have hlinked : nextPtr g ltail = some newTail :=
          hsince.unlinked ltail (by simp [Shared.asList, HazardPointers.asList, nextPtr,
            Shared.setNext])
        rw [nextPtr, hnext] at hlinked
        cases hlinked
      · exact hquiet rfl rfl rfl
  | enqDelete item newTail lnext =>
      cases hstep
      intro n ha
      have hstatus : ∀ m, (g.setStatus newTail .deleted).status m = .allocated →
          g.status m = .allocated ∧ m ≠ newTail := by
        intro m hm
        by_cases hmn : m = newTail
        · simp [Shared.setStatus, hmn] at hm
        · exact ⟨by simpa [Shared.setStatus, hmn] using hm, hmn⟩
      have hhand := hb.keep hw hmove (fun m hm => (hstatus m hm).1) rfl n ha
      obtain rfl : newTail = n := Option.some.inj hhand
      exact absurd rfl (hstatus newTail (ha.allocated (hmove.inv hw))).2
  | deqCasHead lhead lnext =>
      simp only [step] at hstep
      split at hstep <;> cases hstep
      · rename_i hhead
        intro n ha
        rcases (hmove.since hw ha).before with hbefore | hfree | ⟨heq, -⟩
        · exact absurd (hb n hbefore) (by simp [Local.inHand])
        · exact absurd (ha.allocated (hmove.inv hw)) hfree
        · exact congrArg some (hhead.symm.trans heq)
      · exact hquiet rfl rfl rfl
  | deqRetire lhead lnext =>
      obtain ⟨p, -, rfl, hremoved, -⟩ := hl
      cases hstep
      intro n ha
      have hsince := hmove.since hw ha
      have hhand := hb.keep hw hmove (fun _ hn => hn) rfl n ha
      obtain rfl : x.node p = n := Option.some.inj hhand
      refine absurd (hsince.unretired ?_) (hremoved.not_retired hw)
      simp [Shared.asList, HazardPointers.asList, setRetired]
  | deqScan lnext scan =>
      cases hstep
      intro n ha
      have hstatus : ∀ m, ((scanStep maxThreads t g.hp scan).2.2.elim g.status
          fun obj => Function.update g.status obj .deleted) m = .allocated →
          g.status m = .allocated := by
        intro m hm
        cases hfreed : (scanStep maxThreads t g.hp scan).2.2 with
        | none => simpa [hfreed] using hm
        | some obj =>
            by_cases hmo : m = obj
            · simp [hfreed, hmo] at hm
            · simpa [hfreed, hmo] using hm
      have hhand : (Local.deqScan lnext scan : Local κe κd).inHand = some n := by
        refine hb.keep hw hmove (fun m hm => hstatus m ?_) ?_ n ha
        · cases hfreed : (scanStep maxThreads t g.hp scan).2.2 <;>
            simpa [hfreed, Shared.setStatus] using hm
        · cases (scanStep maxThreads t g.hp scan).2.2 <;> rfl
      cases hhand
  | enqSegment item ltail le =>
      cases hstep
      apply hquiet rfl rfl
      rcases (S.enqueueStep t i.ts item (g.nodes ltail).segment le).2.1 with _ | _ | _ <;> rfl
  | deqSegment lhead ld | deqSegmentAgain lhead lnext ld =>
      cases hstep
      apply hquiet rfl rfl
      rcases (S.dequeueStep t i.ts (g.nodes lhead).segment ld).2.1 with _ | _ | _ <;> rfl
  | enqReload | enqLoadNext | enqHelpTail | deqReload | deqLoadNext | sizeProtectHead
  | sizeProtectTail | sizeClear =>
      simp only [step] at hstep
      split at hstep <;> cases hstep <;> exact hquiet rfl rfl rfl
  | enqCasTail item ltail newTail =>
      cases hstep
      apply hquiet
      · split <;> rfl
      · split <;> rfl
      · rfl
  | _ =>
      cases hstep
      exact hquiet rfl rfl rfl

end Steps

/-! ### Runs -/

/-- What a thread protects and has in its hands; only threads of the table have a list. -/
structure OwnerLoc (maxThreads : Nat) (x : Ghost) (s : ProtectedList.State Nat) (t : Tid)
    (l : Local κe κd) : Prop where
  protects : Protects x s t l
  inHands : InHands x t l
  outside : maxThreads ≤ t → x.dropped t = []

def ownerInvariant (S : SegmentType σ κe κd) (maxThreads : Nat) :
    RelyGuarantee (program S maxThreads) (fun _ t _ => t < maxThreads) Ghost where
  glob w := Inv (Scanned maxThreads) w.ghost w.shared.asList
  loc w t l := OwnerLoc maxThreads w.ghost w.shared.asList t l
  rely t w w' := Inv (Scanned maxThreads) w.ghost w.shared.asList
    ∧ ProtectedList.Rely t w.ghost w.shared.asList w'.ghost w'.shared.asList
  init := by
    refine ⟨_, Inv.single sentinel rfl (fun m => ?_) rfl rfl fun _ => rfl, fun t => ⟨trivial, ?_,
      fun _ => rfl⟩⟩
    · by_cases hm : m = sentinel
      · simp [Shared.asList, HazardPointers.asList, program, hm]
      · simp [Shared.asList, HazardPointers.asList, program, hm]
    · rintro n (howner | ⟨p, hp, -⟩)
      · cases howner
      · cases hp.remover
  stable h hl := by
    refine ⟨hl.protects.stable h.1 h.2, fun n ha => hl.inHands n (h.2.answers h.1 ha), fun ht => ?_⟩
    rw [h.2.dropped]
    exact hl.outside ht
  step {x c t i g l es} ht hw hl hstep := by
    obtain ⟨x', hmove, hloc⟩ := step_moves ht hw (hl t).protects hstep
    have hhands := step_inHands hw (hl t).protects hmove (hl t).inHands hstep
    exact ⟨x', hmove.inv hw, ⟨hloc, hhands, fun hle => absurd ht (Nat.not_lt.mpr hle)⟩,
      fun u hu => ⟨hw, hmove.rely hw hu⟩⟩

/-- With no call in progress, nobody answers for a segment. -/
theorem Reach.owners {c : Config (Shared σ) (Local κe κd) Event}
    (h : (program S maxThreads).Reach (fun _ t _ => t < maxThreads) c)
    (hidle : ∀ t, c.locals t = .idle) :
    ∃ x, Inv (Scanned maxThreads) x c.shared.asList ∧ (∀ t n, ¬ Answers x t n)
      ∧ ∀ t, maxThreads ≤ t → c.shared.hp.retiredList t = [] := by
  obtain ⟨x, hw, hl⟩ := (ownerInvariant S maxThreads).holds h
  have hw : Inv (Scanned maxThreads) x c.shared.asList := hw
  have hl : ∀ t, OwnerLoc maxThreads x c.shared.asList t (c.locals t) := hl
  refine ⟨x, hw, fun t n ha => ?_, fun t ht => ?_⟩
  · have hhand := (hl t).inHands n ha
    rw [hidle t] at hhand
    cases hhand
  · have hretired : c.shared.hp.retiredList t = (x.dropped t).map x.node := hw.retired t
    rw [hretired, (hl t).outside ht, List.map_nil]

/-- **No segment is leaked.** In every run, whatever the segments do, when no call is in progress
`head` leads to every segment that has been created, or it is on some thread's list, or it has been
deleted. -/
theorem segments_no_leak (S : SegmentType σ κe κd) (maxThreads : Nat)
    {c : Config (Shared σ) (Local κe κd) Event}
    (h : (program S maxThreads).Reach (fun _ t _ => t < maxThreads) c)
    (hidle : ∀ t, c.locals t = .idle) :
    ∃ nodes, Path (nextPtr c.shared) (some c.shared.head) nodes
      ∧ ∀ n, c.shared.status n ≠ .unallocated →
        n ∈ nodes ∨ (∃ t, n ∈ c.shared.hp.retiredList t) ∨ c.shared.status n = .deleted := by
  obtain ⟨x, hw, hnone, -⟩ := Reach.owners h hidle
  obtain ⟨nodes, hpath, hnodes⟩ :=
    hw.no_leak fun t => ProtectedList.books_of_not_answers (hnone t)
  refine ⟨nodes, hpath, fun n hn => ?_⟩
  cases hstatus : c.shared.status n with
  | unallocated => exact absurd hstatus hn
  | deleted => exact .inr (.inr rfl)
  | allocated => exact (hnodes n hstatus).imp_right .inl

/-- Rings of one cell: thread 0 fills one segment and begins another, and thread 1 takes the first
item. -/
def twoSegments : List (Tid × Input) :=
  List.replicate 14 (0, { op := some (.enqueue 7) })
    ++ List.replicate 23 (0, { op := some (.enqueue 8), addr := 1 })
    ++ List.replicate 11 (1, { op := some .dequeue })

theorem twoSegments_run : ∃ c,
    (LPRQueue.program (.identity 1 (by decide)) 2).execIf 2 (fun _ t _ => t < 2)
        (LPRQueue.program (.identity 1 (by decide)) 2).init twoSegments = some c
      ∧ (LPRQueue.program (.identity 1 (by decide)) 2).Reach (fun _ t _ => t < 2) c
      ∧ ∀ t, c.locals t = .idle := by
  have hrun : ((LPRQueue.program (.identity 1 (by decide)) 2).execIf 2 (fun _ t _ => t < 2)
      (LPRQueue.program (.identity 1 (by decide)) 2).init twoSegments).map
      (fun c => (c.locals 0, c.locals 1)) = some (.idle, .idle) := by
    decide +kernel
  obtain ⟨c, hexec, heq⟩ := Option.map_eq_some_iff.mp hrun
  obtain ⟨hidle₀, hidle₁⟩ := Prod.mk.inj heq
  refine ⟨c, hexec, .execIf (fun _ _ _ _ hcheck => of_decide_eq_true hcheck) .init
    (fun _ _ => rfl) hexec, fun t => ?_⟩
  match t with
  | 0 => exact hidle₀
  | 1 => exact hidle₁
  | t + 2 => exact Program.execIf_idle (fun _ _ => rfl) hexec (t + 2) (Nat.le_add_left 2 t)

theorem segments_no_leak_two : ∃ c,
    (LPRQueue.program (.identity 1 (by decide)) 2).Reach (fun _ t _ => t < 2) c
      ∧ (∀ t, c.locals t = .idle) ∧ ∃ nodes, Path (nextPtr c.shared) (some c.shared.head) nodes
      ∧ ∀ n, c.shared.status n ≠ .unallocated →
        n ∈ nodes ∨ (∃ t, n ∈ c.shared.hp.retiredList t) ∨ c.shared.status n = .deleted := by
  obtain ⟨c, -, hreach, hidle⟩ := twoSegments_run
  exact ⟨c, hreach, hidle, segments_no_leak _ 2 hreach hidle⟩

/-! ### The loop of the destructor -/

/-- Where a thread stands in a loop of dequeues that nobody disturbs: between two looks at `head` it
does not move. -/
def DrainLoc (g : Shared σ) : Local κe κd → Prop
  | .idle | .deqLoadHead | .deqProtect _ | .deqReload _ | .deqSegmentAgain _ _ _ | .deqCasHead _ _
  | .deqRetire _ _ | .deqScan _ _ | .deqClear (some _) => True
  | .deqSegment lhead _ | .deqLoadNext lhead => g.head = lhead
  | .deqClear none => (g.nodes g.head).next = none
  | _ => False

/-- The loop has begun after the history `before`; when a dequeue has just found nothing, the first
segment is the last. -/
structure Draining (S : SegmentType σ κe κd) (maxThreads : Nat) (before : List Event)
    (c : Config (Shared σ) (Local κe κd) Event) : Prop where
  reach : (program S maxThreads).Reach (fun _ t _ => t < maxThreads) c
  others : ∀ t, t ≠ 0 → c.locals t = .idle
  loc : DrainLoc c.shared (c.locals 0)
  done : ∀ es, c.history = before ++ es ++ [.retDeq 0 none] →
    c.locals 0 = .idle ∧ (c.shared.nodes c.shared.head).next = none

section Drain

variable {i : Input} {g g' : Shared σ} {l l' : Local κe κd} {es : List Event}

theorem drainLoc_step (hl : DrainLoc g l) (hop : i.op = some .dequeue)
    (hstep : step S maxThreads 0 i g l = some (g', l', es)) : DrainLoc g' l' := by
  cases l with
  | idle =>
      obtain ⟨op, hsome, hres⟩ := Option.map_eq_some_iff.mp hstep
      obtain rfl : op = .dequeue := Option.some.inj (hsome.symm.trans hop)
      cases hres
      trivial
  | deqLoadHead | deqProtect =>
      cases hstep
      trivial
  | deqReload lhead =>
      simp only [step] at hstep
      split at hstep <;> cases hstep
      · trivial
      · rename_i hhead
        exact not_not.mp hhead
  | deqSegment lhead ld =>
      cases hstep
      rcases (S.dequeueStep 0 i.ts (g.nodes lhead).segment ld).2.1 with _ | _ | _
      · exact hl
      · exact hl
      · trivial
  | deqLoadNext lhead =>
      have hl : g.head = lhead := hl
      simp only [step] at hstep
      split at hstep <;> cases hstep
      · rename_i hnext
        rw [DrainLoc, hl]
        exact hnext
      · trivial
  | deqSegmentAgain lhead lnext ld =>
      cases hstep
      rcases (S.dequeueStep 0 i.ts (g.nodes lhead).segment ld).2.1 with _ | _ | _ <;> trivial
  | deqCasHead lhead lnext =>
      simp only [step] at hstep
      split at hstep <;> cases hstep <;> trivial
  | deqRetire lhead lnext =>
      cases hstep
      cases scanFrom maxThreads (g.hp.retiredList 0 ++ [lhead]) 0 <;> trivial
  | deqScan lnext scan =>
      cases hstep
      cases (scanStep maxThreads 0 g.hp scan).2.1 <;> trivial
  | deqClear item =>
      cases hstep
      trivial
  | _ => exact absurd hl id

/-- Only the last step of a dequeue tells what it has found. -/
theorem retDeq_notMem (hl : DrainLoc g l) (hop : i.op = some .dequeue)
    (hstep : step S maxThreads 0 i g l = some (g', l', es)) (hne : ∀ item, l ≠ .deqClear item) :
    .retDeq 0 none ∉ es := by
  have hsegment : ∀ (s : Nat) (fs : List SegmentEvent), Event.retDeq 0 none ∉ fs.map (.segment s) :=
    fun s fs hmem => by
      obtain ⟨e, -, heq⟩ := List.mem_map.mp hmem
      cases heq
  cases l with
  | idle =>
      obtain ⟨op, hsome, hres⟩ := Option.map_eq_some_iff.mp hstep
      obtain rfl : op = .dequeue := Option.some.inj (hsome.symm.trans hop)
      cases hres
      simp
  | deqSegment lhead ld | deqSegmentAgain lhead lnext ld =>
      cases hstep
      exact hsegment _ _
  | deqReload | deqLoadNext | deqCasHead =>
      simp only [step] at hstep
      split at hstep <;> cases hstep <;> simp
  | deqLoadHead | deqProtect | deqRetire | deqScan =>
      cases hstep
      simp
  | deqClear item => exact absurd rfl (hne item)
  | _ => exact absurd hl id

theorem Draining.step {before : List Event} {c c' : Config (Shared σ) (Local κe κd) Event}
    (hd : Draining S maxThreads before c) (hpos : 0 < maxThreads) (hop : i.op = some .dequeue)
    (hnext : (program S maxThreads).next c 0 i = some c') : Draining S maxThreads before c' := by
  obtain ⟨g, l, es, hstep, rfl⟩ := Program.next_eq_some hnext
  have hstep : LinkedRingQueue.step S maxThreads 0 i c.shared (c.locals 0) = some (g, l, es) :=
    hstep
  refine ⟨hd.reach.step hpos hnext, fun t ht => ?_, ?_, fun fs hend => ?_⟩
  · simpa [ht] using hd.others t ht
  · simpa using drainLoc_step hd.loc hop hstep
  · have hend : c.history ++ es = before ++ fs ++ [.retDeq 0 none] := hend
    have hloc := hd.loc
    by_cases hclear : ∃ item, c.locals 0 = .deqClear item
    · obtain ⟨item, hitem⟩ := hclear
      rw [hitem] at hstep hloc
      cases hstep
      obtain ⟨-, hlast⟩ := List.append_inj' hend rfl
      obtain rfl : item = none := by simpa using hlast
      exact ⟨by simp, hloc⟩
    · exfalso
      have hnot := retDeq_notMem hd.loc hop hstep fun item hitem => hclear ⟨item, hitem⟩
      rcases List.eq_nil_or_concat es with rfl | ⟨es', e, rfl⟩
      · rw [List.append_nil] at hend
        have hidle := (hd.done fs hend).1
        rw [hidle] at hstep
        obtain ⟨op, -, hres⟩ := Option.map_eq_some_iff.mp hstep
        cases op <;> cases hres
      · rw [List.concat_eq_append, ← List.append_assoc] at hend
        obtain ⟨-, hlast⟩ := List.append_inj' hend rfl
        apply hnot
        simp [List.singleton_inj.mp hlast]

theorem Draining.exec {before : List Event} {c c' : Config (Shared σ) (Local κe κd) Event}
    (hd : Draining S maxThreads before c) (hpos : 0 < maxThreads) {sched : List (Tid × Input)}
    (hsched : ∀ p ∈ sched, p.1 = 0 ∧ p.2.op = some .dequeue)
    (hexec : (program S maxThreads).exec c sched = some c') : Draining S maxThreads before c' := by
  induction sched generalizing c with
  | nil =>
      obtain rfl : c = c' := by simpa [Program.exec] using hexec
      exact hd
  | cons p rest ih =>
      obtain ⟨t, i⟩ := p
      obtain ⟨hzero, hop⟩ := hsched _ List.mem_cons_self
      obtain rfl : t = 0 := hzero
      obtain ⟨d, hnext, hrest⟩ := Option.bind_eq_some_iff.mp hexec
      exact ih (hd.step hpos hop hnext) (fun p hp => hsched p (List.mem_cons_of_mem _ hp)) hrest

/-- **The destructor frees every segment, and each once.** From any configuration that is reached,
with no call in progress, let thread 0 dequeue until a dequeue has found nothing. Then what is
deleted next, the last segment and the retired ones, is all that is allocated, and nothing is
deleted twice. -/
theorem destructor_frees_segments {c₀ c : Config (Shared σ) (Local κe κd) Event}
    (hpos : 0 < maxThreads) (hmax : maxThreads ≤ hpMaxThreads)
    (h : (program S maxThreads).Reach (fun _ t _ => t < maxThreads) c₀)
    (hidle : ∀ t, c₀.locals t = .idle) {sched : List (Tid × Input)}
    (hsched : ∀ p ∈ sched, p.1 = 0 ∧ p.2.op = some .dequeue)
    (hexec : (program S maxThreads).exec c₀ sched = some c)
    (hend : ∃ es, c.history = c₀.history ++ es ++ [.retDeq 0 none]) :
    ∃ status, deleteAll c.shared.status c.shared.destroyed = some status
      ∧ ∀ n, status n ≠ .allocated := by
  have hbegin : Draining S maxThreads c₀.history c₀ := by
    refine ⟨h, fun t _ => hidle t, ?_, fun es hend => ?_⟩
    · rw [hidle 0]
      trivial
    · have hlength := congrArg List.length hend
      simp at hlength
  have hd := hbegin.exec hpos hsched hexec
  obtain ⟨es, hend⟩ := hend
  obtain ⟨hidle₀, hlast⟩ := hd.done es hend
  have hidle' : ∀ t, c.locals t = .idle := fun t => by
    by_cases ht : t = 0
    · rw [ht, hidle₀]
    · exact hd.others t ht
  obtain ⟨x, hw, hnone, houtside⟩ := Reach.owners hd.reach hidle'
  -- The list has come down to one segment.
  obtain ⟨nodes, hpath, hnodes⟩ :=
    hw.no_leak fun t => ProtectedList.books_of_not_answers (hnone t)
  have hone : nodes = [c.shared.head] := by
    refine hpath.unique (.cons ?_)
    have hnext : c.shared.asList.next c.shared.asList.head = none := hlast
    rw [hnext]
    exact .nil
  have hrow : ∀ {t n}, n ∈ c.shared.hp.retiredList t → t < hpMaxThreads := fun {t n} hn => by
    by_contra hge
    rw [houtside t (Nat.le_trans hmax (Nat.not_lt.mp hge))] at hn
    cases hn
  have hmem :
      ∀ n, n ∈ c.shared.destroyed ↔ n = c.shared.head ∨ ∃ t, n ∈ c.shared.hp.retiredList t := by
    intro n
    rw [Shared.destroyed, List.mem_cons, HazardPointers.destroyed, List.mem_flatMap]
    refine or_congr_right ⟨fun ⟨t, _, hn⟩ => ⟨t, hn⟩, fun ⟨t, hn⟩ => ⟨t, ?_, hn⟩⟩
    exact List.mem_range.mpr (hrow hn)
  have hnodup : c.shared.destroyed.Nodup := by
    refine List.nodup_cons.mpr ⟨fun hhead => ?_, List.nodup_flatMap.mpr ⟨fun t _ => ?_, ?_⟩⟩
    · obtain ⟨t, -, hn⟩ := List.mem_flatMap.mp hhead
      exact (hw.retired_spec (t := t) hn).2 rfl
    · exact hw.retired_nodup t
    · refine List.nodup_range.imp fun {t u} htu n ht hu => htu ?_
      exact hw.retired_unique ht hu
  have hallocated : ∀ n, n ∈ c.shared.destroyed ↔ c.shared.status n = .allocated := by
    intro n
    rw [hmem]
    refine ⟨?_, fun hn => ?_⟩
    · rintro (rfl | ⟨t, hn⟩)
      · exact hw.head_allocated
      · exact (hw.retired_spec (t := t) hn).1
    · refine (hnodes n hn).imp_left fun hn => ?_
      rw [hone] at hn
      exact List.mem_singleton.mp hn
  refine ⟨_, deleteAll_eq_some hnodup fun n hn => (hallocated n).mp hn, fun n hn => ?_⟩
  by_cases hin : n ∈ c.shared.destroyed
  · rw [if_pos hin] at hn
    cases hn
  · rw [if_neg hin] at hn
    exact hin ((hallocated n).mpr hn)

end Drain

/-- Thread 0 takes the other item, retires the first segment, and then finds nothing. -/
def drain : List (Tid × Input) := List.replicate 51 (0, { op := some .dequeue })

theorem destructor_frees_segments_drain : ∃ c₀ c,
    (LPRQueue.program (.identity 1 (by decide)) 2).Reach (fun _ t _ => t < 2) c₀
      ∧ (LPRQueue.program (.identity 1 (by decide)) 2).exec c₀ drain = some c
      ∧ c.shared.destroyed = [1, 0] ∧ ∃ status,
        deleteAll c.shared.status c.shared.destroyed = some status
          ∧ ∀ n, status n ≠ .allocated := by
  obtain ⟨c₀, hexec₀, hreach, hidle⟩ := twoSegments_run
  have hrun : (((LPRQueue.program (.identity 1 (by decide)) 2).execIf 2 (fun _ t _ => t < 2)
      (LPRQueue.program (.identity 1 (by decide)) 2).init twoSegments).bind fun c₀ =>
        ((LPRQueue.program (.identity 1 (by decide)) 2).exec c₀ drain).map fun c =>
          (c₀.history.length, c.shared.destroyed, c.history.length, c.history.getLast?))
      = some (18, [1, 0], 31, some (.retDeq 0 none)) := by
    decide +kernel
  rw [hexec₀, Option.bind_some] at hrun
  obtain ⟨c, hexec, heq⟩ := Option.map_eq_some_iff.mp hrun
  simp only [Prod.mk.injEq] at heq
  obtain ⟨hlength₀, hdestroyed, hlength, hlast⟩ := heq
  have hend : ∃ es, c.history = c₀.history ++ es ++ [.retDeq 0 none] := by
    obtain ⟨es, hes⟩ := Program.exec_history hexec
    rcases List.eq_nil_or_concat es with rfl | ⟨es', e, rfl⟩
    · rw [hes, List.append_nil] at hlength
      omega
    · rw [List.concat_eq_append, ← List.append_assoc] at hes
      rw [hes, List.getLast?_concat] at hlast
      exact ⟨es', by rw [hes, Option.some.inj hlast]⟩
  have hsched : ∀ p ∈ drain, p.1 = 0 ∧ p.2.op = some .dequeue := fun p hp => by
    obtain rfl := List.eq_of_mem_replicate hp
    exact ⟨rfl, rfl⟩
  exact ⟨c₀, c, hreach, hexec, hdestroyed,
    destructor_frees_segments (by decide) (by decide) hreach hidle hsched hexec hend⟩

end QueueFairness.LinkedRingQueue
