import QueueFairness.LinkedRingQueue
import QueueFairness.Lib.LinkedList

/-!
# The list of a ring queue and its segments

The segments form one list that grows at its end, every pointer a thread holds leads to a segment of
the list or to one it has allocated itself, and what happens to one segment is a run of that segment
alone. This holds for any segment type, as long as no address is handed out twice.
-/

namespace QueueFairness.LinkedRingQueue

open Interleaving LinkedList

variable {σ κe κd : Type} {S : SegmentType σ κe κd} {maxThreads : Nat}

abbrev W (σ : Type) := World Unit (Shared σ) Event

/-- `s` is the `q`th segment of the list. -/
def At (history : List Event) (s q : Nat) : Prop := (chain history)[q]? = some s

def nextPtr (g : Shared σ) (s : Nat) : Option Nat := (g.nodes s).next

/-- The address that `new` returns was never handed out before. -/
def FreshAddress (c : Config (Shared σ) (Local κe κd) Event) (t : Tid) (i : Input) : Prop :=
  ∀ item ltail start, c.locals t = .enqNew item ltail start → c.shared.status i.addr = .unallocated

/-- The constructor or a thread has allocated segment `s`. -/
def Known (history : List Event) (s : Nat) : Prop := s = sentinel ∨ ∃ t, .alloc t s ∈ history

structure Glob (w : W σ) : Prop where
  linked : Linked (nextPtr w.shared) (chain w.history)
  head : ∃ q, At w.history w.shared.head q
  tail : ∃ q, At w.history w.shared.tail q
  used : ∀ s ∈ chain w.history, w.shared.status s ≠ .unallocated
  known : ∀ s ∈ chain w.history, Known w.history s
  alloc : ∀ {t s}, .alloc t s ∈ w.history → w.shared.status s ≠ .unallocated
  owner : ∀ {t u s}, .alloc t s ∈ w.history → .alloc u s ∈ w.history → t = u
  events : ∀ {s e}, .segment s e ∈ w.history → w.shared.status s ≠ .unallocated

/-- A segment thread `t` has allocated and not linked. -/
structure Private (w : W σ) (t : Tid) (s : Nat) : Prop where
  alloc : .alloc t s ∈ w.history
  notMem : s ∉ chain w.history
  next : (w.shared.nodes s).next = none

/-- `s` is on the list, and `s'` is the segment behind it. -/
def Linking (w : W σ) (s s' : Nat) : Prop := ∃ q, At w.history s q ∧ At w.history s' (q + 1)

def Loc (w : W σ) (t : Tid) : Local κe κd → Prop
  | .idle | .enqLoadTail _ | .enqClear _ | .deqLoadHead | .deqClear _ | .sizeProtectHead _
  | .sizePublishHead _ | .sizeProtectTail _ _ | .sizePublishTail _ _ | .sizeLoadTail _ _
  | .sizeLoadHead _ _ | .sizeClear _ _ => True
  | .enqProtect _ ltail | .enqReload _ ltail | .enqLoadNext _ ltail | .enqSegment _ ltail _
  | .enqLoadStart _ ltail | .enqNew _ ltail _ => ∃ q, At w.history ltail q
  | .enqHelpTail _ ltail lnext => Linking w ltail lnext
  | .enqNewSegment _ ltail newTail _ | .enqCasNext _ ltail newTail =>
      (∃ q, At w.history ltail q) ∧ Private w t newTail
  | .enqCasTail _ ltail newTail => Linking w ltail newTail
  | .enqDelete _ newTail lnext => (∃ q, At w.history lnext q) ∧ Private w t newTail
  | .deqProtect lhead | .deqReload lhead | .deqSegment lhead _ | .deqLoadNext lhead =>
      ∃ q, At w.history lhead q
  | .deqSegmentAgain lhead lnext _ | .deqCasHead lhead lnext | .deqRetire lhead lnext =>
      Linking w lhead lnext
  | .deqScan lnext _ => ∃ q, At w.history lnext q

/-- What thread `t` relies on. -/
structure Rely (t : Tid) (w w' : W σ) : Prop where
  history : ∀ {e}, e ∈ w.history → e ∈ w'.history
  chain : chain w.history <+: chain w'.history
  own : ∀ {s}, Private w t s → Private w' t s

section Stable

variable {t : Tid} {w w' : W σ}

theorem At.mono {h h' : List Event} (hle : chain h <+: chain h') {s q : Nat} (hs : At h s q) :
    At h' s q := by
  obtain ⟨more, hmore⟩ := hle
  unfold At
  rw [← hmore]
  exact getElem?_append_of_some hs more

theorem Known.mono {h h' : List Event} (hle : ∀ {e}, e ∈ h → e ∈ h') {s : Nat} (hs : Known h s) :
    Known h' s :=
  hs.imp_right fun ⟨t, ht⟩ => ⟨t, hle ht⟩

theorem Linking.next {s s' : Nat} (hl : Linking w s s') : ∃ q, At w.history s' q := by
  obtain ⟨q, -, hq⟩ := hl
  exact ⟨q + 1, hq⟩

theorem Linking.first {s s' : Nat} (hl : Linking w s s') : ∃ q, At w.history s q := by
  obtain ⟨q, hq, -⟩ := hl
  exact ⟨q, hq⟩

theorem Rely.at (h : Rely t w w') {s : Nat} (hs : ∃ q, At w.history s q) :
    ∃ q, At w'.history s q := by
  obtain ⟨q, hq⟩ := hs
  exact ⟨q, hq.mono h.chain⟩

theorem Rely.linking (h : Rely t w w') {s s' : Nat} (hl : Linking w s s') : Linking w' s s' := by
  obtain ⟨q, hs, hs'⟩ := hl
  exact ⟨q, hs.mono h.chain, hs'.mono h.chain⟩

theorem Rely.loc {l : Local κe κd} (h : Rely t w w') (hl : Loc w t l) : Loc w' t l := by
  cases l with
  | idle | enqLoadTail | enqClear | deqLoadHead | deqClear | sizeProtectHead | sizePublishHead
  | sizeProtectTail | sizePublishTail | sizeLoadTail | sizeLoadHead | sizeClear => trivial
  | enqProtect | enqReload | enqLoadNext | enqSegment | enqLoadStart | enqNew | deqProtect
  | deqReload | deqSegment | deqLoadNext | deqScan => exact h.at hl
  | enqHelpTail | enqCasTail | deqSegmentAgain | deqCasHead | deqRetire => exact h.linking hl
  | enqNewSegment | enqCasNext | enqDelete => exact ⟨h.at hl.1, h.own hl.2⟩

end Stable

/-! ### Steps -/

/-- Events that do not concern the list and its segments. -/
def Event.Quiet : Event → Prop
  | .call _ _ | .retEnq _ _ | .retDeq _ _ | .retSize _ _ => True
  | _ => False

/-- What a step of thread `t` from `w` has to achieve. -/
def Preserved (t : Tid) (w : W σ) (g : Shared σ) (l : Local κe κd) (es : List Event) : Prop :=
  Glob ⟨(), g, w.history ++ es⟩ ∧ Loc ⟨(), g, w.history ++ es⟩ t l
    ∧ ∀ u, u ≠ t → Rely u w ⟨(), g, w.history ++ es⟩

section Steps

variable {t : Tid} {g g' : Shared σ} {h es : List Event} {l : Local κe κd}

theorem chain_append : chain (h ++ es) = chain h ++ es.filterMap linkedSegment := by
  simp [chain]

/-- A step that neither allocates nor links a segment; it may work on one. -/
theorem preserved_of_same (hw : Glob ⟨(), g, h⟩) (hnext : ∀ s, (g'.nodes s).next = (g.nodes s).next)
    (hstatus : ∀ s, g.status s ≠ .unallocated → g'.status s ≠ .unallocated)
    (hhead : ∃ q, At h g'.head q) (htail : ∃ q, At h g'.tail q)
    (hes : ∀ e ∈ es, e.Quiet ∨ ∃ s e', e = .segment s e' ∧ g.status s ≠ .unallocated)
    (hl : Rely t ⟨(), g, h⟩ ⟨(), g', h ++ es⟩ → Loc ⟨(), g', h ++ es⟩ t l) :
    Preserved t ⟨(), g, h⟩ g' l es := by
  have hchain : chain (h ++ es) = chain h := by
    have hnone : es.filterMap linkedSegment = [] := by
      refine List.filterMap_eq_nil_iff.mpr fun e he => ?_
      rcases hes e he with hq | ⟨s, e', rfl, -⟩
      · cases e <;> first | rfl | exact absurd hq id
      · rfl
    rw [chain_append, hnone, List.append_nil]
  have halloc : ∀ {u s}, .alloc u s ∈ h ++ es ↔ .alloc u s ∈ h := fun {u s} => by
    rw [List.mem_append]
    refine ⟨fun hmem => hmem.resolve_right fun he => ?_, .inl⟩
    rcases hes _ he with hq | ⟨_, _, heq, -⟩
    · exact hq
    · cases heq
  have hat : ∀ {s}, (∃ q, At h s q) → ∃ q, At (h ++ es) s q := fun ⟨q, hq⟩ =>
    ⟨q, hq.mono (hchain ▸ List.prefix_refl _)⟩
  have hrely : ∀ u, Rely u ⟨(), g, h⟩ ⟨(), g', h ++ es⟩ := fun u =>
    ⟨fun he => List.mem_append_left _ he, hchain ▸ List.prefix_refl _,
      fun hp => ⟨halloc.mpr hp.alloc, hchain ▸ hp.notMem, (hnext _).trans hp.next⟩⟩
  refine ⟨⟨?_, hat hhead, hat htail, ?_, ?_, ?_, ?_, fun {s e} he => ?_⟩, hl (hrely t),
    fun u _ => hrely u⟩
  · rw [hchain, show nextPtr g' = nextPtr g from funext hnext]
    exact hw.linked
  · rw [hchain]
    exact fun s hs => hstatus s (hw.used s hs)
  · rw [hchain]
    exact fun s hs => (hw.known s hs).mono fun he => List.mem_append_left _ he
  · exact fun hs => hstatus _ (hw.alloc (halloc.mp hs))
  · exact fun ht hu => hw.owner (halloc.mp ht) (halloc.mp hu)
  · rcases List.mem_append.mp he with he | he
    · exact hstatus _ (hw.events he)
    · rcases hes _ he with hq | ⟨s', e', heq, hs'⟩
      · exact absurd hq id
      · cases heq
        exact hstatus _ hs'

theorem preserved_alloc (hw : Glob ⟨(), g, h⟩) {item ltail s start : Nat} {le : κe}
    (hfresh : g.status s = .unallocated) (hltail : ∃ q, At h ltail q) :
    Preserved t ⟨(), g, h⟩ (g.new S s start) (.enqNewSegment item ltail s le : Local κe κd)
      [.alloc t s] := by
  have hchain : chain (h ++ [.alloc t s]) = chain h := by simp [chain, linkedSegment]
  have hnotMem : s ∉ chain h := fun hs => hw.used s hs hfresh
  have hnodes : ∀ n, n ≠ s → (g.new S s start).nodes n = g.nodes n := fun n hn => by
    simp [Shared.new, hn]
  have hstatus : ∀ n, g.status n ≠ .unallocated → (g.new S s start).status n ≠ .unallocated :=
    fun n hn => by
      have hne : n ≠ s := fun heq => hn (heq ▸ hfresh)
      simpa [Shared.new, Shared.setStatus, hne] using hn
  have hself : (g.new S s start).status s ≠ .unallocated := by simp [Shared.new, Shared.setStatus]
  have hat : ∀ {n}, (∃ q, At h n q) → ∃ q, At (h ++ [.alloc t s]) n q := fun ⟨q, hq⟩ =>
    ⟨q, hq.mono (hchain ▸ List.prefix_refl _)⟩
  have halloc : ∀ {u n}, .alloc u n ∈ h ++ [.alloc t s] → .alloc u n ∈ h ∨ u = t ∧ n = s :=
    fun {u n} hmem => by simpa using hmem
  refine ⟨⟨?_, hat hw.head, hat hw.tail, ?_, ?_, fun hmem => ?_, fun hu hv => ?_, fun hmem => ?_⟩,
    ⟨hat hltail, ⟨by simp, hchain ▸ hnotMem, by simp [Shared.new]⟩⟩, fun u hu =>
      ⟨fun he => List.mem_append_left _ he, hchain ▸ List.prefix_refl _, fun {n} hp => ?_⟩⟩
  · rw [hchain]
    refine hw.linked.congr fun n hn => ?_
    rw [nextPtr, hnodes n fun heq => hnotMem (heq ▸ hn), nextPtr]
  · rw [hchain]
    exact fun n hn => hstatus n (hw.used n hn)
  · rw [hchain]
    exact fun n hn => (hw.known n hn).mono fun he => List.mem_append_left _ he
  · rcases halloc hmem with hmem | ⟨-, rfl⟩
    · exact hstatus _ (hw.alloc hmem)
    · exact hself
  · rcases halloc hu with hold | ⟨heq, hn⟩ <;> rcases halloc hv with hold' | ⟨heq', hn'⟩
    · exact hw.owner hold hold'
    · exact absurd (hn' ▸ hfresh) (hw.alloc hold)
    · exact absurd (hn ▸ hfresh) (hw.alloc hold')
    · rw [heq, heq']
  · exact hstatus _ (hw.events (by simpa using hmem))
  · have hne : n ≠ s := fun heq => hw.alloc hp.alloc (heq ▸ hfresh)
    exact ⟨List.mem_append_left _ hp.alloc, hchain ▸ hp.notMem,
      (congrArg Node.next (hnodes n hne)).trans hp.next⟩

theorem preserved_link (hw : Glob ⟨(), g, h⟩) {item ltail s : Nat}
    (hltail : ∃ q, At h ltail q) (hprivate : Private ⟨(), g, h⟩ t s)
    (hnone : (g.nodes ltail).next = none) :
    Preserved t ⟨(), g, h⟩ (g.setNext ltail (some s)) (.enqCasTail item ltail s : Local κe κd)
      [.link t s] := by
  have hchain : chain (h ++ [.link t s]) = chain h ++ [s] := by simp [chain, linkedSegment]
  have hle : chain h <+: chain (h ++ [.link t s]) := hchain ▸ List.prefix_append _ _
  obtain ⟨q, hq⟩ := hltail
  have hmem : ltail ∈ chain h := List.mem_of_getElem? hq
  have hne : s ≠ ltail := fun heq => hprivate.notMem (heq ▸ hmem)
  have hlen : (chain h).length = q + 1 := hw.linked.length_of_next_none hq hnone
  have hnodes : ∀ n, n ≠ ltail → (g.setNext ltail (some s)).nodes n = g.nodes n := fun n hn => by
    simp [Shared.setNext, hn]
  have hat : ∀ {n}, (∃ q, At h n q) → ∃ q, At (h ++ [.link t s]) n q := fun ⟨q, hq⟩ =>
    ⟨q, hq.mono hle⟩
  have halloc : ∀ {u n}, .alloc u n ∈ h ++ [.link t s] → .alloc u n ∈ h :=
    fun {u n} hmem => by simpa using hmem
  have hused : ∀ n ∈ chain h ++ [s], g.status n ≠ .unallocated := fun n hn => by
    rcases List.mem_append.mp hn with hn | hn
    · exact hw.used n hn
    · obtain rfl := List.mem_singleton.mp hn
      exact hw.alloc hprivate.alloc
  have hknown : ∀ n ∈ chain h ++ [s], Known (h ++ [.link t s]) n := fun n hn => by
    rcases List.mem_append.mp hn with hn | hn
    · exact (hw.known n hn).mono fun he => List.mem_append_left _ he
    · obtain rfl := List.mem_singleton.mp hn
      exact .inr ⟨t, List.mem_append_left _ hprivate.alloc⟩
  refine ⟨⟨?_, hat hw.head, hat hw.tail, hchain ▸ hused, hchain ▸ hknown,
      fun hmem => hw.alloc (halloc hmem),
      fun hu hv => hw.owner (halloc hu) (halloc hv), fun hmem => hw.events (by simpa using hmem)⟩,
    ⟨q, hq.mono hle, ?_⟩, fun u hu => ⟨fun he => List.mem_append_left _ he, hle, fun {n} hp => ?_⟩⟩
  · rw [hchain]
    refine hw.linked.snoc hq hnone hprivate.notMem (by simp [nextPtr, Shared.setNext]) ?_ ?_
    · rw [nextPtr, hnodes s hne]
      exact hprivate.next
    · exact fun n _ hn => congrArg Node.next (hnodes n hn)
  · show (chain (h ++ [.link t s]))[q + 1]? = some s
    rw [hchain, ← hlen]
    simp
  · have hns : n ≠ s := fun heq => hu (hw.owner (heq ▸ hp.alloc) hprivate.alloc)
    have hnl : n ≠ ltail := fun heq => hp.notMem (heq ▸ hmem)
    refine ⟨List.mem_append_left _ hp.alloc, fun hmem => ?_,
      (congrArg Node.next (hnodes n hnl)).trans hp.next⟩
    rw [hchain] at hmem
    rcases List.mem_append.mp hmem with hmem | hmem
    · exact hp.notMem hmem
    · exact hns (List.mem_singleton.mp hmem)

@[simp]
theorem setSegment_next (s n : Nat) (segment : σ) :
    ((g.setSegment s segment).nodes n).next = (g.nodes n).next := by
  by_cases hn : n = s
  · subst hn
    simp [Shared.setSegment]
  · simp [Shared.setSegment, hn]

/-- A step on a segment somebody has allocated. -/
theorem preserved_segment (hw : Glob ⟨(), g, h⟩) {s : Nat} (hs : g.status s ≠ .unallocated)
    (segment : σ) (es : List SegmentEvent)
    (hl : ∀ w' : W σ, Rely t ⟨(), g, h⟩ w' → Loc w' t l) :
    Preserved t ⟨(), g, h⟩ (g.setSegment s segment) l (es.map (.segment s)) := by
  refine preserved_of_same hw (setSegment_next s · segment) (fun _ => id) hw.head hw.tail
    (fun e he => ?_) (hl _)
  obtain ⟨e', -, rfl⟩ := List.mem_map.mp he
  exact .inr ⟨s, e', rfl, hs⟩

/-- A step that reads. -/
theorem preserved_still (hw : Glob ⟨(), g, h⟩) (hes : ∀ e ∈ es, e.Quiet)
    (hl : ∀ w' : W σ, Rely t ⟨(), g, h⟩ w' → Loc w' t l) : Preserved t ⟨(), g, h⟩ g l es :=
  preserved_of_same hw (fun _ => rfl) (fun _ => id) hw.head hw.tail (fun e he => .inl (hes e he))
    (hl _)

/-- A step that writes to the table of hazard pointers, or deletes a segment. -/
theorem preserved_hp (hw : Glob ⟨(), g, h⟩) (hnodes : g'.nodes = g.nodes) (hhead : g'.head = g.head)
    (htail : g'.tail = g.tail)
    (hstatus : ∀ s, g.status s ≠ .unallocated → g'.status s ≠ .unallocated)
    (hes : ∀ e ∈ es, e.Quiet) (hl : ∀ w' : W σ, Rely t ⟨(), g, h⟩ w' → Loc w' t l) :
    Preserved t ⟨(), g, h⟩ g' l es :=
  preserved_of_same hw (fun _ => by rw [hnodes]) hstatus (hhead ▸ hw.head) (htail ▸ hw.tail)
    (fun e he => .inl (hes e he)) (hl _)

theorem setStatus_deleted (g : Shared σ) (s : Nat) :
    ∀ n, g.status n ≠ .unallocated → (g.setStatus s .deleted).status n ≠ .unallocated := by
  intro n hn
  by_cases hns : n = s
  · subst hns
    simp [Shared.setStatus]
  · simpa [Shared.setStatus, hns] using hn

theorem Glob.next (hw : Glob ⟨(), g, h⟩) {s s' : Nat} (hs : ∃ q, At h s q)
    (hnext : (g.nodes s).next = some s') : Linking ⟨(), g, h⟩ s s' := by
  obtain ⟨q, hq⟩ := hs
  exact ⟨q, hq, (hw.linked.next_eq hq).symm.trans hnext⟩

theorem Glob.status (hw : Glob ⟨(), g, h⟩) {s : Nat} (hs : ∃ q, At h s q) :
    g.status s ≠ .unallocated := by
  obtain ⟨q, hq⟩ := hs
  exact hw.used s (List.mem_of_getElem? hq)

theorem loc_afterScan {w : W σ} {lnext : Nat} (hlnext : ∃ q, At w.history lnext q)
    (scan : Option HazardPointers.Scan) : Loc w t (afterScan lnext scan : Local κe κd) := by
  cases scan <;> exact hlnext

theorem step_preserved {i : Input} {l' : Local κe κd} (hw : Glob ⟨(), g, h⟩)
    (hl : Loc ⟨(), g, h⟩ t l)
    (hfresh : ∀ item ltail start, l = .enqNew item ltail start → g.status i.addr = .unallocated)
    (hstep : step S maxThreads t i g l = some (g', l', es)) : Preserved t ⟨(), g, h⟩ g' l' es := by
  suffices hleads : Leads (Preserved t ⟨(), g, h⟩) (step S maxThreads t i g l) from
    hleads.of_some hstep
  cases l with
  | idle =>
      refine .map fun op _ => ?_
      cases op <;> exact preserved_still hw (by simp [Event.Quiet]) fun _ _ => trivial
  | enqLoadTail item => exact .into <| preserved_still hw (by simp) fun _ hr => hr.at hw.tail
  | enqProtect item ltail =>
      exact .into <| preserved_hp hw rfl rfl rfl (fun _ => id) (by simp) fun _ hr => hr.at hl
  | enqReload item ltail =>
      refine .ite (fun _ => .into ?_) fun _ => .into ?_
      · exact preserved_still hw (by simp) fun _ hr => hr.at hw.tail
      · exact preserved_still hw (by simp) fun _ hr => hr.at hl
  | enqLoadNext item ltail =>
      simp only [step]
      split
      · rename_i hnext
        exact .into <| preserved_still hw (by simp) fun _ hr => hr.linking (hw.next hl hnext)
      · exact .into <| preserved_still hw (by simp) fun _ hr => hr.at hl
  | enqHelpTail item ltail lnext =>
      refine .ite (fun _ => .into ?_) fun _ => .into ?_
      · exact preserved_of_same hw (fun _ => rfl) (fun _ => id) hw.head hl.next (by simp)
          fun hr => hr.at hl.next
      · exact preserved_still hw (by simp) fun _ _ => trivial
  | enqSegment item ltail le =>
      refine .into <| preserved_segment hw (hw.status hl) _ _ fun w' hr => ?_
      dsimp only
      split
      · exact hr.at hl
      · trivial
      · exact hr.at hl
  | enqLoadStart item ltail => exact .into <| preserved_still hw (by simp) fun _ hr => hr.at hl
  | enqNew item ltail start =>
      refine .ite (fun _ => .into ?_) fun _ => .nowhere
      exact preserved_alloc hw (hfresh item ltail start rfl) hl
  | enqNewSegment item ltail newTail le =>
      refine .into <| preserved_segment hw (hw.alloc hl.2.alloc) _ _ fun w' hr => ?_
      dsimp only
      split <;> exact ⟨hr.at hl.1, hr.own hl.2⟩
  | enqCasNext item ltail newTail =>
      simp only [step]
      split
      · rename_i hnone
        exact .into <| preserved_link hw hl.1 hl.2 hnone
      · rename_i hnext
        exact .into <| preserved_still hw (by simp) fun _ hr =>
          ⟨hr.at (hw.next hl.1 hnext).next, hr.own hl.2⟩
  | enqCasTail item ltail newTail =>
      refine .into <| preserved_of_same hw (fun _ => ?_) (fun s hs => ?_) ?_ ?_ (by simp)
        fun _ => trivial
      all_goals split
      all_goals first | exact rfl | exact hs | exact hw.head | exact hl.next | exact hw.tail
  | enqDelete item newTail lnext =>
      exact .into <| preserved_hp hw rfl rfl rfl (setStatus_deleted g newTail) (by simp) fun _ hr =>
        hr.at hl.1
  | deqLoadHead => exact .into <| preserved_still hw (by simp) fun _ hr => hr.at hw.head
  | deqProtect lhead =>
      exact .into <| preserved_hp hw rfl rfl rfl (fun _ => id) (by simp) fun _ hr => hr.at hl
  | deqReload lhead =>
      refine .ite (fun _ => .into ?_) fun _ => .into ?_
      · exact preserved_still hw (by simp) fun _ hr => hr.at hw.head
      · exact preserved_still hw (by simp) fun _ hr => hr.at hl
  | deqSegment lhead ld =>
      refine .into <| preserved_segment hw (hw.status hl) _ _ fun w' hr => ?_
      dsimp only
      split
      · exact hr.at hl
      · trivial
      · exact hr.at hl
  | deqLoadNext lhead =>
      simp only [step]
      split
      · exact .into <| preserved_still hw (by simp) fun _ _ => trivial
      · rename_i hnext
        exact .into <| preserved_still hw (by simp) fun _ hr => hr.linking (hw.next hl hnext)
  | deqSegmentAgain lhead lnext ld =>
      obtain ⟨q, hq, hq'⟩ := hl
      refine .into <| preserved_segment hw (hw.status ⟨q, hq⟩) _ _ fun w' hr => ?_
      dsimp only
      split
      · exact hr.linking ⟨q, hq, hq'⟩
      · trivial
      · exact hr.linking ⟨q, hq, hq'⟩
  | deqCasHead lhead lnext =>
      refine .ite (fun _ => .into ?_) fun _ => .into ?_
      · exact preserved_of_same hw (fun _ => rfl) (fun _ => id) hl.next hw.tail (by simp)
          fun hr => hr.linking hl
      · exact preserved_still hw (by simp) fun _ hr => hr.at hw.head
  | deqRetire lhead lnext =>
      exact .into <| preserved_hp hw rfl rfl rfl (fun _ => id) (by simp) fun _ hr =>
        loc_afterScan (hr.at hl.next) _
  | deqScan lnext scan =>
      refine .into ?_
      cases scan with
      | load =>
          exact preserved_hp hw rfl rfl rfl (fun _ => id) (by simp) fun _ hr =>
            loc_afterScan (hr.at hl) _
      | erase =>
          exact preserved_hp hw rfl rfl rfl (setStatus_deleted _ _) (by simp) fun _ hr =>
            loc_afterScan (hr.at hl) _
  | enqClear item | deqClear item =>
      exact .into <| preserved_hp hw rfl rfl rfl (fun _ => id) (by simp [Event.Quiet])
        fun _ _ => trivial
  | sizeProtectHead n | sizeProtectTail lhead n =>
      refine .ite (fun _ => .into ?_) fun _ => .into ?_ <;>
        exact preserved_still hw (by simp) fun _ _ => trivial
  | sizePublishHead ret | sizePublishTail lhead ret =>
      exact .into <| preserved_hp hw rfl rfl rfl (fun _ => id) (by simp) fun _ _ => trivial
  | sizeLoadTail | sizeLoadHead =>
      exact .into <| preserved_still hw (by simp) fun _ _ => trivial
  | sizeClear ihp size =>
      refine .ite (fun _ => .into ?_) fun _ => .into ?_ <;>
        exact preserved_hp hw rfl rfl rfl (fun _ => id) (by simp [Event.Quiet]) fun _ _ => trivial

end Steps

/-- Where the pointers lead, as a rely-guarantee proof. -/
def chainInvariant (S : SegmentType σ κe κd) (maxThreads : Nat) :
    RelyGuarantee (program S maxThreads) FreshAddress Unit where
  glob := Glob
  loc := Loc
  rely := Rely
  init := by
    refine ⟨(), ⟨?_, ⟨0, rfl⟩, ⟨0, rfl⟩, ?_, ?_, ?_, ?_, ?_⟩, fun _ => trivial⟩
    · exact Linked.singleton rfl
    · intro s hs
      obtain rfl := List.mem_singleton.mp hs
      simp [program]
    · exact fun s hs => .inl (List.mem_singleton.mp hs)
    all_goals simp
  stable h hl := h.loc hl
  step {x c t i g l es} hok hw hl hstep :=
    ⟨(), step_preserved hw (hl t) hok hstep⟩

end QueueFairness.LinkedRingQueue
