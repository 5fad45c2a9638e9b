import QueueFairness.Proof.FAAArrayCounters

/-!
# The indices of the array queue

An operation compares the index it has drawn with the upper bound only. Every dequeue of a drained
last node increments `deqidx`, which is never reset, and after 2^31 of them it is negative: the next
dequeue accesses what lies before the cells. As long as no counter wraps, every index that is used
lies in the node, and no two dequeues use the same.
-/

namespace QueueFairness.FAAArrayQueue

open Interleaving AtomicQueue HazardPointers

variable {L : Layout} {maxThreads : Nat}

/-- The index under which the thread's next step accesses a cell. -/
def Local.usesIndex : Local → Option Int
  | .enqCasCell _ _ idx | .deqLoadCell _ idx | .deqSpin _ idx _ | .deqExchange _ idx => some idx
  | _ => none

/-- The index that the thread has drawn. -/
def Local.index : Local → Option Int
  | .enqCasCell _ _ idx | .deqLoadCell _ idx | .deqLoadEnqidx _ idx | .deqSpin _ idx _
  | .deqExchange _ idx | .deqReloadEnqidx _ idx | .deqCheckNext _ idx _ | .deqCasEnqidx _ idx _ =>
      some idx
  | _ => none

/-- Every access to a cell is inside the node, and no two dequeues use an index of the same node. -/
structure IndexSafe (L : Layout) (c : Config Shared Local Event) : Prop where
  inside : ∀ t idx, (c.locals t).usesIndex = some idx → 0 ≤ idx ∧ idx < L.size
  once : ∀ before between after t u n idx,
    c.history = before ++ .claim t n idx :: (between ++ .claim u n idx :: after) →
      ∃ v, .alloc v n ∈ between

theorem Local.index_of_usesIndex {l : Local} {idx : Int} (h : l.usesIndex = some idx) :
    l.index = some idx := by
  cases l <;> first | exact h | cases h

structure Counters (w : World Unit Shared Event) : Prop where
  deq : ∀ n, 0 ≤ (w.shared.nodes n).deqidx
  enq : ∀ n, 0 ≤ (w.shared.nodes n).enqidx
  claim : ∀ {before after t n idx}, w.history = before ++ .claim t n idx :: after →
    (∀ v, .alloc v n ∉ after) → idx < (w.shared.nodes n).deqidx

/-- What a step that wraps no counter does to them. -/
structure CountersStep (L : Layout) (g g' : Shared) (l' : Local) (es : List Event) : Prop where
  deq : ∀ n, 0 ≤ (g'.nodes n).deqidx
  enq : ∀ n, 0 ≤ (g'.nodes n).enqidx
  mono : ∀ n, (∀ v, .alloc v n ∉ es) → (g.nodes n).deqidx ≤ (g'.nodes n).deqidx
  claim : ∀ {u n idx}, .claim u n idx ∈ es →
    es = [.claim u n idx] ∧ idx = (g.nodes n).deqidx ∧ idx < (g'.nodes n).deqidx
  index : ∀ idx, l'.index = some idx → InNode L idx

section Steps

variable {t : Tid} {i : Input} {g g' : Shared} {l l' : Local} {es : List Event}

theorem CountersStep.same (hdeq : ∀ n, 0 ≤ (g.nodes n).deqidx) (henq : ∀ n, 0 ≤ (g.nodes n).enqidx)
    (hsame : ∀ n, (g'.nodes n).deqidx = (g.nodes n).deqidx
      ∧ (g'.nodes n).enqidx = (g.nodes n).enqidx)
    (hclaim : ∀ u n idx, .claim u n idx ∉ es) (hindex : ∀ idx, l'.index = some idx → InNode L idx) :
    CountersStep L g g' l' es where
  deq n := (hsame n).1 ▸ hdeq n
  enq n := (hsame n).2 ▸ henq n
  mono n _ := Int.le_of_eq (hsame n).1.symm
  claim h := absurd h (hclaim _ _ _)
  index := hindex

/-- A write to `enqidx` of a value that is no negative one. -/
theorem CountersStep.setEnqidx (hdeq : ∀ n, 0 ≤ (g.nodes n).deqidx)
    (henq : ∀ n, 0 ≤ (g.nodes n).enqidx) {n : Nat} {k : Int} (hk : 0 ≤ k)
    (hindex : ∀ idx, l'.index = some idx → InNode L idx) :
    CountersStep L g (g.setNode n { g.nodes n with enqidx := k }) l' [] := by
  have hsame : ∀ m, ((g.setNode n { g.nodes n with enqidx := k }).nodes m).deqidx
      = (g.nodes m).deqidx := fun m => by
    by_cases hm : m = n
    · simp [hm]
    · simp [hm]
  refine ⟨fun m => hsame m ▸ hdeq m, fun m => ?_, fun m _ => Int.le_of_eq (hsame m).symm, by simp,
    hindex⟩
  by_cases hm : m = n
  · subst hm
    simpa using hk
  · simpa [hm] using henq m

section States

variable (hdeq : ∀ n, 0 ≤ (g.nodes n).deqidx) (henq : ∀ n, 0 ≤ (g.nodes n).enqidx)

include hdeq henq

theorem enqFetchAdd_counters {item ltail : Nat} (hwrap : NoWrapAt g (.enqFetchAdd item ltail)) :
    Leads (CountersStep L g) (reusingStep L maxThreads t i g (.enqFetchAdd item ltail)) := by
  have h0 := henq ltail
  have hsucc : 0 ≤ succ32 (g.nodes ltail).enqidx := by
    rw [succ32_eq h0 hwrap]
    omega
  refine .ite (fun _ => .into ?_) fun hlt => .into ?_
  · exact .setEnqidx hdeq henq hsucc (by simp [Local.index])
  · refine .setEnqidx hdeq henq hsucc fun idx hidx => ?_
    obtain rfl : (g.nodes ltail).enqidx = idx := Option.some.inj hidx
    exact ⟨h0, by omega⟩

/-- A new node starts over. -/
theorem enqNewNode_counters {item ltail : Nat} :
    Leads (CountersStep L g) (reusingStep L maxThreads t i g (.enqNewNode item ltail)) := by
  refine .ite (fun _ => .into ?_) fun _ => .nowhere
  refine ⟨fun n => ?_, fun n => ?_, fun n hn => ?_, by simp, by simp [Local.index]⟩
  · by_cases hn : n = i.addr
    · simp [hn, Shared.setNode_self, newNode]
    · rw [Shared.setNode_of_ne _ _ _ hn]
      exact hdeq n
  · by_cases hn : n = i.addr
    · simp [hn, Shared.setNode_self, newNode]
    · rw [Shared.setNode_of_ne _ _ _ hn]
      exact henq n
  · have hne : n ≠ i.addr := fun heq => hn t (by simp [heq])
    rw [Shared.setNode_of_ne _ _ _ hne]
    exact Int.le_refl _

/-- The index claimed is behind those claimed before. -/
theorem deqFetchAdd_counters {lhead : Nat} (hwrap : NoWrapAt g (.deqFetchAdd lhead)) :
    Leads (CountersStep L g) (reusingStep L maxThreads t i g (.deqFetchAdd lhead)) := by
  have hsucc := succ32_eq (hdeq lhead) hwrap
  have hother : ∀ n, ((g.setNode lhead { g.nodes lhead with
      deqidx := succ32 (g.nodes lhead).deqidx }).nodes n).enqidx = (g.nodes n).enqidx
      ∧ (g.nodes n).deqidx ≤ ((g.setNode lhead { g.nodes lhead with
      deqidx := succ32 (g.nodes lhead).deqidx }).nodes n).deqidx := fun n => by
    by_cases hn : n = lhead
    · subst hn
      simp [Shared.setNode_self, hsucc]
    · simp [hn]
  refine .ite (fun _ => .into ?_) fun hlt => .into ?_
  · exact ⟨fun n => Int.le_trans (hdeq n) (hother n).2, fun n => (hother n).1 ▸ henq n,
      fun n _ => (hother n).2, by simp, by simp [Local.index]⟩
  · refine ⟨fun n => Int.le_trans (hdeq n) (hother n).2, fun n => (hother n).1 ▸ henq n,
      fun n _ => (hother n).2, fun {u n idx} hc => ?_, fun idx hidx => ?_⟩
    · obtain ⟨rfl, rfl, rfl⟩ : u = t ∧ n = lhead ∧ idx = (g.nodes lhead).deqidx := by
        simpa using hc
      refine ⟨rfl, rfl, ?_⟩
      rw [Shared.setNode_self, hsucc]
      exact Int.lt_succ _
    · obtain rfl : (g.nodes lhead).deqidx = idx := Option.some.inj hidx
      exact ⟨hdeq lhead, by omega⟩

theorem deqCasEnqidx_counters {lhead : Nat} {idx enqidx : Int} (hidx : InNode L idx) :
    Leads (CountersStep L g)
      (reusingStep L maxThreads t i g (.deqCasEnqidx lhead idx enqidx)) := by
  have h0 : 0 ≤ idx := hidx.1
  refine .into ?_
  split
  · exact .setEnqidx hdeq henq (by omega) (by simp [Local.index])
  · exact .same hdeq henq (fun _ => ⟨rfl, rfl⟩) (by simp) (by simp [Local.index])

end States

theorem index_afterScan {scan : Option HazardPointers.Scan} (idx : Int)
    (h : (afterScan scan).index = some idx) : InNode L idx := by
  cases scan <;> cases h

theorem step_counters (hdeq : ∀ n, 0 ≤ (g.nodes n).deqidx) (henq : ∀ n, 0 ≤ (g.nodes n).enqidx)
    (hindex : ∀ idx, l.index = some idx → InNode L idx) (hwrap : NoWrapAt g l)
    (hstep : reusingStep L maxThreads t i g l = some (g', l', es)) :
    CountersStep L g g' l' es := by
  suffices hleads : Leads (CountersStep L g) (reusingStep L maxThreads t i g l) from
    hleads.of_some hstep
  cases l with
  | idle =>
      refine .map fun op _ => ?_
      cases op <;> exact .same hdeq henq (fun _ => ⟨rfl, rfl⟩) (by simp) (by simp [Local.index])
  | enqFetchAdd item ltail => exact enqFetchAdd_counters hdeq henq hwrap
  | enqNewNode item ltail => exact enqNewNode_counters hdeq henq
  | deqFetchAdd lhead => exact deqFetchAdd_counters hdeq henq hwrap
  | deqCasEnqidx lhead idx enqidx => exact deqCasEnqidx_counters hdeq henq (hindex idx rfl)
  | enqCasCell item ltail idx =>
      refine .ite (fun _ => .nowhere) fun _ => .ite (fun _ => .into ?_) fun _ => .into ?_
      · exact .same hdeq henq (fun _ => ⟨Shared.setCell_deqidx .., Shared.setCell_enqidx ..⟩)
          (by simp) (by simp [Local.index])
      · exact .same hdeq henq (fun _ => ⟨rfl, rfl⟩) (by simp) (by simp [Local.index])
  | deqExchange lhead idx =>
      have hsame : ∀ n, ((g.setCell L lhead idx .taken).nodes n).deqidx = (g.nodes n).deqidx
          ∧ ((g.setCell L lhead idx .taken).nodes n).enqidx = (g.nodes n).enqidx := fun n =>
        ⟨Shared.setCell_deqidx .., Shared.setCell_enqidx ..⟩
      refine .ite (fun _ => .into ?_) fun _ => .into ?_
      · exact .same hdeq henq hsame (by simp) hindex
      · exact .same hdeq henq hsame (by simp) (by simp [Local.index])
  | enqCasNext item ltail n =>
      refine .ite (fun _ => .into ?_) fun _ => .into ?_
      · refine .same hdeq henq (fun m => ?_) (by simp) (by simp [Local.index])
        by_cases hm : m = ltail
        · simp [hm]
        · simp [hm]
      · exact .same hdeq henq (fun _ => ⟨rfl, rfl⟩) (by simp) (by simp [Local.index])
  | deqScan scan =>
      refine .into <| .same hdeq henq (fun m => ?_) (by simp) index_afterScan
      cases (HazardPointers.scanStep maxThreads t g.hp scan).2.2 <;> exact ⟨rfl, rfl⟩
  | deqRetire lhead =>
      exact .into <| .same hdeq henq (fun m => ⟨rfl, rfl⟩) (by simp) index_afterScan
  | deqLoadCell lhead idx =>
      refine .ite (fun _ => .nowhere) fun _ => .ite (fun _ => .into ?_) fun _ => .into ?_ <;>
        exact .same hdeq henq (fun _ => ⟨rfl, rfl⟩) (by simp) hindex
  | deqLoadEnqidx lhead idx | deqSpin lhead idx k =>
      refine .ite (fun _ => .into ?_) fun _ => .into ?_ <;>
        exact .same hdeq henq (fun _ => ⟨rfl, rfl⟩) (by simp) hindex
  | deqReloadEnqidx lhead idx | deqCheckNext lhead idx enqidx =>
      refine .ite (fun _ => .into ?_) fun _ => .into ?_
      · exact .same hdeq henq (fun _ => ⟨rfl, rfl⟩) (by simp) hindex
      · exact .same hdeq henq (fun _ => ⟨rfl, rfl⟩) (by simp) (by simp [Local.index])
  | enqHelpTail item ltail n | enqCasTail item ltail n =>
      refine .into <| .same hdeq henq (fun m => ?_) (by simp) (by simp [Local.index])
      split <;> exact ⟨rfl, rfl⟩
  | _ =>
      simp only [reusingStep, step]
      repeat' split
      all_goals
        exact .into <| .same hdeq henq (fun _ => ⟨rfl, rfl⟩) (by simp) (by simp [Local.index])

end Steps

/-! ### Runs -/

/-- The counters as a rely-guarantee proof. -/
def counterInvariant (L : Layout) (maxThreads : Nat) :
    RelyGuarantee (reusingProgram L maxThreads) NoWrap Unit where
  glob := Counters
  loc _ _ l := ∀ idx, l.index = some idx → InNode L idx
  rely _ _ _ := True
  init := ⟨(), ⟨fun _ => Int.le_refl 0, fun _ => Int.le_refl 0, fun h => by simp at h⟩,
    fun _ _ h => by cases h⟩
  stable _ hl := hl
  step {x c t i g l es} hwrap hw hl hstep := by
    have hs := step_counters hw.deq hw.enq (hl t) hwrap hstep
    refine ⟨(), ⟨hs.deq, hs.enq, fun {before after u n idx} heq halloc => ?_⟩, hs.index,
      fun _ _ => trivial⟩
    rcases List.append_eq_append_iff.mp heq with ⟨xs, hbefore, hes⟩ | ⟨xs, hhistory, hes⟩
    · have hmem : Event.claim u n idx ∈ es := by rw [hes]; simp
      exact (hs.claim hmem).2.2
    · cases xs with
      | nil =>
          have hmem : Event.claim u n idx ∈ es := by
            rw [List.nil_append] at hes
            rw [← hes]
            exact List.mem_cons_self
          exact (hs.claim hmem).2.2
      | cons y ys =>
          obtain ⟨rfl, rfl⟩ : Event.claim u n idx = y ∧ after = ys ++ es := by simpa using hes
          have hold := hw.claim hhistory fun v hv => halloc v (List.mem_append_left _ hv)
          exact Int.lt_of_lt_of_le hold
            (hs.mono n fun v hv => halloc v (List.mem_append_right _ hv))

/-- **Every index is used inside its node and by one dequeue**, in the runs in which no counter
wraps. -/
theorem indexSafe_of_noWrap (L : Layout) (maxThreads : Nat) {c : Config Shared Local Event}
    (h : (reusingProgram L maxThreads).Reach NoWrap c) : IndexSafe L c := by
  obtain ⟨_, -, hl⟩ := (counterInvariant L maxThreads).holds h
  have hl : ∀ t idx, (c.locals t).index = some idx → InNode L idx := hl
  refine ⟨fun t idx hidx => hl t idx (Local.index_of_usesIndex hidx),
    fun before between after t u n idx heq => ?_⟩
  have heq : c.history = (before ++ .claim t n idx :: between) ++ .claim u n idx :: after := by
    simpa using heq
  obtain ⟨d, v, i, g, l, es, fs, hreach, hwrap, hstep, hbefore⟩ := h.emitted heq
  obtain ⟨_, hw, hld⟩ := (counterInvariant L maxThreads).holds hreach
  have hw : Counters _ := hw
  have hs := step_counters hw.deq hw.enq (hld v) hwrap hstep
  obtain ⟨hes, hdrawn, -⟩ := hs.claim (show .claim u n idx ∈ es ++ .claim u n idx :: fs by simp)
  obtain ⟨rfl, -⟩ : es = [] ∧ fs = [] := by simpa [List.append_eq_singleton_iff] using hes
  rw [List.append_nil] at hbefore
  by_contra hnone
  have hlt := hw.claim hbefore.symm fun w hw' => hnone ⟨w, hw'⟩
  exact absurd (hdrawn ▸ hlt) (Int.lt_irrefl _)

def noWrapCheck (g : Shared) : Local → Bool
  | .enqFetchAdd _ ltail => (g.nodes ltail).enqidx < 2 ^ 31 - 1
  | .deqFetchAdd lhead => (g.nodes lhead).deqidx < 2 ^ 31 - 1
  | _ => true

theorem noWrapAt_of_check {g : Shared} {l : Local} (h : noWrapCheck g l = true) :
    NoWrapAt g l := by
  cases l with
  | enqFetchAdd _ ltail => exact (of_decide_eq_true h : (g.nodes ltail).enqidx < 2 ^ 31 - 1)
  | deqFetchAdd lhead => exact (of_decide_eq_true h : (g.nodes lhead).deqidx < 2 ^ 31 - 1)
  | _ => trivial

/-- An enqueue and a dequeue of its item, by one thread on nodes of one cell. -/
def handoverSchedule : List (Tid × Input) :=
  List.replicate 9 (0, { op := some (.enqueue 7) })
    ++ List.replicate 10 (0, { op := some .dequeue })

theorem indexSafe_of_noWrap_handover :
    ∃ c, c.history = [.call 0 (.enqueue 7), .fill 0 7 0 0, .stampEnq 0 7 0, .retEnq 0 7,
        .call 0 .dequeue, .claim 0 0 0, .take 0 0 0 (.item 7), .stampDeq 0 (.item 7) 0,
        .retDeq 0 (.item 7)]
      ∧ (reusingProgram (.identity 1 (by decide)) 1).Reach NoWrap c
      ∧ IndexSafe (.identity 1 (by decide)) c := by
  have hrun : ((reusingProgram (.identity 1 (by decide)) 1).execIf 1
      (fun c t _ => noWrapCheck c.shared (c.locals t))
      (reusingProgram (.identity 1 (by decide)) 1).init handoverSchedule).map (·.history)
      = some [.call 0 (.enqueue 7), .fill 0 7 0 0, .stampEnq 0 7 0, .retEnq 0 7,
        .call 0 .dequeue, .claim 0 0 0, .take 0 0 0 (.item 7), .stampDeq 0 (.item 7) 0,
        .retDeq 0 (.item 7)] := by
    decide
  obtain ⟨c, hexec, heq⟩ := Option.map_eq_some_iff.mp hrun
  have hreach : (reusingProgram (.identity 1 (by decide)) 1).Reach NoWrap c :=
    .execIf (fun _ _ _ _ hcheck => noWrapAt_of_check hcheck) .init (fun _ _ => rfl) hexec
  exact ⟨c, heq, hreach, indexSafe_of_noWrap _ 1 hreach⟩

/-! ### A counter that wraps -/

/-- The list is the first node alone, which has one cell, and thread 0 stands at `l`. -/
structure Drained (deqidx : Int) (l : Local) (c : Config Shared Local Event) : Prop where
  reach : (reusingProgram (.identity 1 (by decide)) 1).Reachable c
  head : c.shared.head = sentinelNode
  next : (c.shared.nodes sentinelNode).next = none
  deqidx : (c.shared.nodes sentinelNode).deqidx = deqidx
  stands : c.locals 0 = l

section Drained

variable {k : Int} {l : Local} {c : Config Shared Local Event}

theorem Drained.step (h : Drained k l c) {k' : Int} (g : Shared) (l' : Local) (es : List Event)
    (hstep : reusingStep (.identity 1 (by decide)) 1 0 { op := some .dequeue } c.shared l
      = some (g, l', es))
    (hhead : g.head = sentinelNode) (hnext : (g.nodes sentinelNode).next = none)
    (hdeqidx : (g.nodes sentinelNode).deqidx = k') : ∃ c', Drained k' l' c' :=
  ⟨_, h.reach.snoc trivial (h.stands ▸ hstep), hhead, hnext, hdeqidx, Function.update_self ..⟩

/-- A dequeue up to where it increments `deqidx`. -/
theorem Drained.protect (h : Drained k .idle c) :
    ∃ c', Drained k (.deqFetchAdd sentinelNode) c' := by
  obtain ⟨c, h⟩ := h.step c.shared (.deqProtect none) _ rfl h.head h.next h.deqidx
  obtain ⟨c, h⟩ := h.step c.shared (.deqPublish sentinelNode) []
    (by simp [reusingStep, FAAArrayQueue.step, h.head]) h.head h.next h.deqidx
  obtain ⟨c, h⟩ := h.step (c.shared.setSlot 0 kHpHead (some sentinelNode))
    (.deqProtect (some sentinelNode)) [] rfl h.head h.next h.deqidx
  exact h.step c.shared _ [] (by simp [reusingStep, FAAArrayQueue.step, h.head]) h.head h.next
    h.deqidx

/-- The increment of `deqidx`. -/
theorem Drained.fetchAdd (h : Drained k (.deqFetchAdd sentinelNode) c) :
    ∃ c', Drained (succ32 k)
      (if 0 < k then .deqLoadNext sentinelNode else .deqLoadCell sentinelNode k) c' := by
  refine h.step (c.shared.setNode sentinelNode
    { c.shared.nodes sentinelNode with deqidx := succ32 k }) _
    (if 0 < k then [] else [.claim 0 sentinelNode k]) ?_ h.head (by simpa using h.next) (by simp)
  by_cases hk : 0 < k
  · simp [reusingStep, FAAArrayQueue.step, h.deqidx, Layout.identity, hk]
  · simp [reusingStep, FAAArrayQueue.step, h.deqidx, Layout.identity, hk]

/-- A dequeue that finds the node drained increments `deqidx` all the same. -/
theorem Drained.poll (hk : 0 < k) (h : Drained k .idle c) : ∃ c', Drained (succ32 k) .idle c' := by
  obtain ⟨c, h⟩ := h.protect
  obtain ⟨c, h⟩ := h.fetchAdd
  rw [if_pos hk] at h
  obtain ⟨c, h⟩ := h.step c.shared (.deqClear .empty) []
    (by simp [reusingStep, FAAArrayQueue.step, h.next]) h.head h.next h.deqidx
  exact h.step (c.shared.setSlot 0 kHpHead none) _ _ rfl h.head h.next h.deqidx

end Drained

/-- The first dequeue of the empty queue draws the only index there is. -/
theorem drained_first : ∃ c, Drained 1 .idle c := by
  have hrun : ((reusingProgram (.identity 1 (by decide)) 1).exec
      (reusingProgram (.identity 1 (by decide)) 1).init
      (List.replicate 12 (0, { op := some .dequeue }))).map
      (fun c => (c.shared.head, (c.shared.nodes 0).next, (c.shared.nodes 0).deqidx, c.locals 0))
      = some (0, none, 1, .idle) := by
    decide
  obtain ⟨c, hexec, heq⟩ := Option.map_eq_some_iff.mp hrun
  simp only [Prod.mk.injEq] at heq
  obtain ⟨hhead, hnext, hdeqidx, hstands⟩ := heq
  exact ⟨c, .exec (fun _ _ _ => trivial) .init hexec, hhead, hnext, hdeqidx, hstands⟩

theorem drained_polls (n : Nat) (hn : n < 2 ^ 31 - 1) : ∃ c, Drained (n + 1) .idle c := by
  induction n with
  | zero => exact drained_first
  | succ n ih =>
      obtain ⟨c, h⟩ := ih (by omega)
      have hpoll := h.poll (by omega)
      rwa [succ32_eq (by omega) (by omega)] at hpoll

/-- After 2^31 dequeues of the empty queue, the next one accesses a cell of a negative index. -/
theorem not_indexSafe_polled :
    ¬ ∀ c, (reusingProgram (.identity 1 (by decide)) 1).Reachable c →
      IndexSafe (.identity 1 (by decide)) c := by
  intro hall
  obtain ⟨c, h⟩ := drained_polls (2 ^ 31 - 2) (by decide)
  obtain ⟨c, h⟩ := h.poll (by decide)
  have hwrapped : succ32 ((2 ^ 31 - 2 : Nat) + 1) = - 2 ^ 31 := by decide
  rw [hwrapped] at h
  obtain ⟨c, h⟩ := h.protect
  obtain ⟨c, h⟩ := h.fetchAdd
  have hinside := (hall c h.reach).inside 0 (- 2 ^ 31) (by rw [h.stands]; rfl)
  exact absurd hinside.1 (by decide)

end QueueFairness.FAAArrayQueue
