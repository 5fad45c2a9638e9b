import QueueFairness.Proof.MSQueueChain

/-!
# The steps of MSQueue

Most steps leave the list alone. The others allocate a node, link it, move `tail` or `head` one node
on, or delete a node: one lemma each.
-/

namespace QueueFairness.MSQueue

open Interleaving AtomicQueue LinkedList

variable {α : Type}

namespace Shared

variable (g : Shared α) (n : Nat)

@[simp] theorem setNode_status (node : MSNode α) : (g.setNode n node).status = g.status := rfl
@[simp] theorem setNode_head (node : MSNode α) : (g.setNode n node).head = g.head := rfl
@[simp] theorem setNode_tail (node : MSNode α) : (g.setNode n node).tail = g.tail := rfl
@[simp] theorem setStatus_heap (s : Status) : (g.setStatus n s).heap = g.heap := rfl
@[simp] theorem setStatus_head (s : Status) : (g.setStatus n s).head = g.head := rfl
@[simp] theorem setStatus_tail (s : Status) : (g.setStatus n s).tail = g.tail := rfl

@[simp]
theorem setNode_self (node : MSNode α) : (g.setNode n node).heap n = node := by
  simp [setNode]

@[simp]
theorem setNode_of_ne (node : MSNode α) {m : Nat} (hne : m ≠ n) :
    (g.setNode n node).heap m = g.heap m := by
  simp [setNode, hne]

@[simp]
theorem setStatus_self (s : Status) : (g.setStatus n s).status n = s := by
  simp [setStatus]

@[simp]
theorem setStatus_of_ne (s : Status) {m : Nat} (hne : m ≠ n) :
    (g.setStatus n s).status m = g.status m := by
  simp [setStatus, hne]

variable (fail : Bool) (expected desired : MSPointer)

@[simp]
theorem casTail_heap : (g.casTail fail expected desired).heap = g.heap := by
  unfold casTail
  split <;> rfl

@[simp]
theorem casTail_status : (g.casTail fail expected desired).status = g.status := by
  unfold casTail
  split <;> rfl

@[simp]
theorem casTail_head : (g.casTail fail expected desired).head = g.head := by
  unfold casTail
  split <;> rfl

@[simp]
theorem casTail_clock : (g.casTail fail expected desired).clock = g.clock := by
  unfold casTail
  split <;> rfl

@[simp]
theorem casTail_log : (g.casTail fail expected desired).log = g.log := by
  unfold casTail
  split <;> rfl

end Shared

/-- What a step of thread `t` from `w` has to achieve. -/
def Preserved (t : Tid) (w : W α) (g : Shared α) (l : Local α) (es : List (Event α)) : Prop :=
  Glob ⟨(), g, w.history ++ es⟩ ∧ Loc ⟨(), g, w.history ++ es⟩ t l
    ∧ ∀ u, u ≠ t → Rely u w ⟨(), g, w.history ++ es⟩

/-- Nothing the list invariant speaks of has changed. -/
structure Frame (w w' : W α) : Prop where
  next : nextPtr w'.shared = nextPtr w.shared
  value : ∀ n, (w'.shared.heap n).value = (w.shared.heap n).value
  status : w'.shared.status = w.shared.status
  head : w'.shared.head = w.shared.head
  tail : w'.shared.tail = w.shared.tail
  chain : chain w'.history = chain w.history
  unlinked : unlinked w'.history = unlinked w.history
  alloc : ∀ t n, .alloc t n ∈ w'.history ↔ .alloc t n ∈ w.history

section Frame

variable {w w' : W α}

theorem Frame.passed (h : Frame w w') : passed w'.history = passed w.history :=
  congrArg List.length h.unlinked

theorem Frame.pointsAt (h : Frame w w') {p : MSPointer} {i : Nat} (hp : PointsAt w.history p i) :
    PointsAt w'.history p i := by
  unfold PointsAt
  rwa [h.chain]

theorem Frame.tailFrom (h : Frame w w') {i : Nat} (ht : TailFrom w i) : TailFrom w' i := by
  obtain ⟨k, hk, hp⟩ := ht
  exact ⟨k, hk, by rw [h.tail]; exact h.pointsAt hp⟩

theorem Frame.rely (h : Frame w w') (t : Tid) : Rely t w w' where
  chain := h.chain ▸ List.prefix_refl _
  passed := le_of_eq h.passed.symm
  tail := h.tailFrom
  value n _ := h.value n
  own hp := ⟨(h.alloc _ _).mpr hp.alloc, by rw [h.chain]; exact hp.notMem,
    by rw [h.status]; exact hp.status, by rw [h.next]; exact hp.next⟩
  removed hr := ⟨hr.ptr, by rw [h.unlinked]; exact hr.unlinked, by rw [h.status]; exact hr.status⟩

theorem Frame.glob (h : Frame w w') (hw : Glob w) : Glob w' where
  linked := by
    rw [h.next, h.chain]
    exact hw.linked
  head := by
    rw [h.head, h.passed]
    exact h.pointsAt hw.head
  tail := by
    rw [h.passed]
    exact h.tailFrom hw.tail
  unlinked_eq := by
    rw [h.unlinked, h.passed, h.chain]
    exact hw.unlinked_eq
  used := by
    rw [h.chain, h.status]
    exact hw.used
  live := by
    rw [h.chain, h.status, h.passed]
    exact hw.live
  alloc halloc := by
    rw [h.status]
    exact hw.alloc ((h.alloc _ _).mp halloc)
  owner ht hu := hw.owner ((h.alloc _ _).mp ht) ((h.alloc _ _).mp hu)

theorem Frame.preserved {t : Tid} {g : Shared α} {l : Local α} {es : List (Event α)}
    (h : Frame w ⟨(), g, w.history ++ es⟩) (hw : Glob w)
    (hl : Rely t w ⟨(), g, w.history ++ es⟩ → Loc ⟨(), g, w.history ++ es⟩ t l) :
    Preserved t w g l es :=
  ⟨h.glob hw, hl (h.rely t), fun u _ => h.rely u⟩

end Frame

/-- Events that say nothing about the list. -/
structure Quiet (es : List (Event α)) : Prop where
  link : es.filterMap linkedNode = []
  unlink : es.filterMap unlinkedNode = []
  alloc : ∀ t n, .alloc t n ∉ es

section History

variable {h es : List (Event α)}

theorem chain_append : chain (h ++ es) = chain h ++ es.filterMap linkedNode := by
  simp [chain]

theorem unlinked_append : unlinked (h ++ es) = unlinked h ++ es.filterMap unlinkedNode := by
  simp [unlinked]

theorem frame_of_heap {g g' : Shared α} (hnext : nextPtr g' = nextPtr g)
    (hvalue : ∀ n, (g'.heap n).value = (g.heap n).value) (hstatus : g'.status = g.status)
    (hhead : g'.head = g.head) (htail : g'.tail = g.tail) (hes : Quiet es) :
    Frame ⟨(), g, h⟩ ⟨(), g', h ++ es⟩ where
  next := hnext
  value := hvalue
  status := hstatus
  head := hhead
  tail := htail
  chain := by rw [chain_append, hes.link, List.append_nil]
  unlinked := by rw [unlinked_append, hes.unlink, List.append_nil]
  alloc t n := by simp [hes.alloc t n]

theorem frame_of_eq {g g' : Shared α} (hheap : g'.heap = g.heap) (hstatus : g'.status = g.status)
    (hhead : g'.head = g.head) (htail : g'.tail = g.tail) (hes : Quiet es) :
    Frame ⟨(), g, h⟩ ⟨(), g', h ++ es⟩ :=
  frame_of_heap (by unfold nextPtr; rw [hheap]) (fun n => by rw [hheap]) hstatus hhead htail hes

/-- Writing a stamp. -/
theorem frame_setNode {g : Shared α} {n : Nat} {node : MSNode α}
    (hnext : node.next = (g.heap n).next) (hvalue : node.value = (g.heap n).value)
    (hes : Quiet es) : Frame ⟨(), g, h⟩ ⟨(), g.setNode n node, h ++ es⟩ := by
  refine frame_of_heap ?_ (fun m => ?_) rfl rfl rfl hes
  · funext m
    by_cases hm : m = n
    · subst hm
      simp [nextPtr, hnext]
    · simp [nextPtr, hm]
  · by_cases hm : m = n
    · subst hm
      simp [hvalue]
    · simp [hm]

end History

section Steps

variable {t : Tid} {g : Shared α} {h : List (Event α)}

/-- A node the list has passed is not where `head` or anything behind it stands. -/
theorem Glob.notMem_of_unlinked {w : W α} (hw : Glob w) {n i : Nat}
    (hn : (t, n) ∈ unlinked w.history) (hi : passed w.history ≤ i) :
    (chain w.history)[i]? ≠ some n := by
  intro hat
  have hmem : n ∈ (unlinked w.history).map Prod.snd := List.mem_map_of_mem hn
  rw [hw.unlinked_eq] at hmem
  obtain ⟨j, hj⟩ := List.mem_iff_getElem?.mp hmem
  have hlt : j < passed w.history := by
    have := (List.getElem?_eq_some_iff.mp hj).1
    simp only [List.length_take] at this
    omega
  rw [List.getElem?_take_of_lt hlt] at hj
  have := hw.linked.index_unique hj hat
  omega

theorem Glob.mem_of_unlinked {w : W α} (hw : Glob w) {n : Nat} (hn : (t, n) ∈ unlinked w.history) :
    n ∈ chain w.history := by
  have hmem : n ∈ (unlinked w.history).map Prod.snd := List.mem_map_of_mem hn
  rw [hw.unlinked_eq] at hmem
  exact List.mem_of_mem_take hmem

/-- Only one thread moves `head` off a node. -/
theorem Glob.remover_unique {w : W α} (hw : Glob w) {u : Tid} {n : Nat}
    (ht : (t, n) ∈ unlinked w.history) (hu : (u, n) ∈ unlinked w.history) : t = u := by
  have hnodup : ((unlinked w.history).map Prod.snd).Nodup := by
    rw [hw.unlinked_eq]
    exact (List.take_sublist _ _).nodup hw.linked.nodup
  exact congrArg Prod.fst (List.inj_on_of_nodup_map hnodup ht hu rfl)

theorem Glob.pointsAt_unique {w : W α} (hw : Glob w) {p : MSPointer} {i j : Nat}
    (hi : PointsAt w.history p i) (hj : PointsAt w.history p j) : i = j := by
  obtain ⟨n, hn, hi⟩ := hi
  obtain ⟨m, hm, hj⟩ := hj
  obtain rfl : n = m := Option.some.inj (hn.symm.trans hm)
  exact hw.linked.index_unique hi hj

/-- What is read from a node's `next` is the node behind it. -/
theorem Glob.nextOf (hw : Glob ⟨(), g, h⟩) {p : MSPointer} {k n : Nat} (hk : PointsAt h p k)
    (hn : p.ptr = some n) : NextOf ⟨(), g, h⟩ p (g.heap n).next := by
  refine ⟨k, hk, fun hne => ?_⟩
  obtain ⟨m, hm, hat⟩ := hk
  obtain rfl : m = n := Option.some.inj (hm.symm.trans hn)
  obtain ⟨succ, hsucc⟩ := Option.ne_none_iff_exists'.mp hne
  exact ⟨succ, hsucc, (hw.linked.next_eq hat).symm.trans hsucc⟩

/-- A snapshot whose two pointers differ saw `tail` behind `head`. -/
theorem Glob.front {w : W α} (hw : Glob w) {curHead curTail next : MSPointer}
    (hsnap : Snapshot w curHead curTail) (hnext : NextOf w curHead next)
    (hptr : curHead.ptr ≠ curTail.ptr) (hne : next.ptr ≠ none) : Front w curHead next := by
  obtain ⟨p, q, -, hpq, hch, ⟨m, hm, hq⟩, j, hj, htail⟩ := hsnap
  obtain ⟨k, hk, hk'⟩ := hnext
  obtain rfl : p = k := hw.pointsAt_unique hch hk
  have hlt : p ≠ q := by
    rintro rfl
    obtain ⟨n, hn, hp⟩ := hch
    exact hptr (hn.trans ((hp.symm.trans hq).trans hm.symm))
  exact ⟨p, hk, hk' hne, j, by omega, htail⟩

/-- A step that leaves the heap, `head` and `tail` as they are. -/
theorem preserved_of_eq (hw : Glob ⟨(), g, h⟩) {g' : Shared α} {l : Local α} {es : List (Event α)}
    (hheap : g'.heap = g.heap) (hstatus : g'.status = g.status) (hhead : g'.head = g.head)
    (htail : g'.tail = g.tail) (hes : Quiet es)
    (hl : Rely t ⟨(), g, h⟩ ⟨(), g', h ++ es⟩ → Loc ⟨(), g', h ++ es⟩ t l) :
    Preserved t ⟨(), g, h⟩ g' l es :=
  (frame_of_eq hheap hstatus hhead htail hes).preserved hw hl

/-- A step that writes a stamp of a node. -/
theorem preserved_setNode (hw : Glob ⟨(), g, h⟩) {n : Nat} {node : MSNode α} {l : Local α}
    {es : List (Event α)} (hnext : node.next = (g.heap n).next)
    (hvalue : node.value = (g.heap n).value) (hes : Quiet es)
    (hl : Rely t ⟨(), g, h⟩ ⟨(), g.setNode n node, h ++ es⟩ →
      Loc ⟨(), g.setNode n node, h ++ es⟩ t l) :
    Preserved t ⟨(), g, h⟩ (g.setNode n node) l es :=
  (frame_setNode hnext hvalue hes).preserved hw hl

/-- `new` hands out an address nobody knows. -/
theorem alloc_preserved (hw : Glob ⟨(), g, h⟩) {addr inv : Nat} {value : α}
    (hfree : g.status addr = .unallocated) :
    Preserved t ⟨(), g, h⟩ ((g.setStatus addr .allocated).setNode addr { value })
      (.enqStoreInv addr inv) [.alloc t addr] := by
  have hnew : addr ∉ chain h := fun hmem => hw.used addr hmem hfree
  have hchain : chain (h ++ [.alloc t addr]) = chain h := by simp [chain_append, linkedNode]
  have hunlinked : unlinked (h ++ [.alloc t addr]) = unlinked h := by
    simp [unlinked_append, unlinkedNode]
  have hpassed : passed (h ++ [.alloc t addr]) = passed h := congrArg List.length hunlinked
  have hfresh : ∀ u, Event.alloc u addr ∉ h := fun u hu => hw.alloc hu hfree
  have hpoint : ∀ {p i}, PointsAt h p i → PointsAt (h ++ [.alloc t addr]) p i :=
    fun hp => hp.mono (hchain ▸ List.prefix_refl _)
  have htail : ∀ {i}, TailFrom ⟨(), g, h⟩ i → TailFrom
      ⟨(), (g.setStatus addr .allocated).setNode addr { value }, h ++ [.alloc t addr]⟩ i :=
    fun ⟨k, hk, hp⟩ => ⟨k, hk, hpoint hp⟩
  have hne : ∀ {n}, n ∈ chain h → n ≠ addr := fun hn heq => hnew (heq ▸ hn)
  refine ⟨{ linked := ?linked, head := ?head, tail := ?tail, unlinked_eq := ?unlinked_eq,
            used := ?used, live := ?live, alloc := ?alloc, owner := ?owner },
    ⟨by simp, by simpa [hchain] using hnew, by simp, by simp [nextPtr]⟩, fun u hu =>
    ⟨hchain ▸ List.prefix_refl _, le_of_eq hpassed.symm, htail, ?_, ?_, ?_⟩⟩
  case linked =>
    rw [hchain]
    exact hw.linked.congr fun n hn => by simp [nextPtr, hne hn]
  case head =>
    rw [hpassed]
    exact hpoint hw.head
  case tail =>
    rw [hpassed]
    exact htail hw.tail
  case unlinked_eq =>
    rw [hunlinked, hpassed, hchain]
    exact hw.unlinked_eq
  case used =>
    intro n hn
    rw [hchain] at hn
    simpa [hne hn] using hw.used n hn
  case live =>
    intro i n hi hn
    rw [hpassed] at hi
    rw [hchain] at hn
    simpa [hne (List.mem_of_getElem? hn)] using hw.live hi hn
  case alloc =>
    intro u n hun
    by_cases hn : n = addr
    · subst hn
      simp
    · simpa [hn] using hw.alloc (t := u) (by simpa [hn] using hun)
  case owner =>
    intro u v n hu hv
    by_cases hn : n = addr
    · subst hn
      have hu' : u = t := by simpa [hfresh] using hu
      have hv' : v = t := by simpa [hfresh] using hv
      exact hu'.trans hv'.symm
    · exact hw.owner (n := n) (by simpa [hn] using hu) (by simpa [hn] using hv)
  · intro n hn
    simp [hne hn]
  · intro n hp
    have hn : n ≠ addr := fun heq => by
      have hs := hp.status
      rw [heq] at hs
      exact absurd (hs.symm.trans hfree) (by simp)
    exact ⟨by simp [hp.alloc], by rw [hchain]; exact hp.notMem, by simpa [hn] using hp.status,
      by simpa [nextPtr, hn] using hp.next⟩
  · intro p n hr
    have hn : n ≠ addr := hne (hw.mem_of_unlinked hr.unlinked)
    exact ⟨hr.ptr, by rw [hunlinked]; exact hr.unlinked, by simpa [hn] using hr.status⟩

/-- The compare-and-swap on `next` hangs the thread's node behind the last one. -/
theorem link_preserved (hw : Glob ⟨(), g, h⟩) {node n : Nat} {curTail : MSPointer} {count : UInt32}
    {op : Op α} {res : Res α} (hown : Private ⟨(), g, h⟩ t node) {k : Nat}
    (hk : PointsAt h curTail k) (hn : curTail.ptr = some n) (hlast : nextPtr g n = none) :
    Preserved t ⟨(), g, h⟩ (g.setNode n { g.heap n with next := ⟨some node, count⟩ })
      (.enqNowLin node curTail) [.link t node, .act (.effect t op res)] := by
  set es : List (Event α) := [.link t node, .act (.effect t op res)] with hes
  have hat : (chain h)[k]? = some n := by
    obtain ⟨m, hm, hat⟩ := hk
    obtain rfl : m = n := Option.some.inj (hm.symm.trans hn)
    exact hat
  have hchain : chain (h ++ es) = chain h ++ [node] := by simp [chain_append, hes, linkedNode]
  have hunlinked : unlinked (h ++ es) = unlinked h := by simp [unlinked_append, hes, unlinkedNode]
  have hpassed : passed (h ++ es) = passed h := congrArg List.length hunlinked
  have hlen : (chain h).length = k + 1 := hw.linked.length_of_next_none hat hlast
  have halloc : ∀ u m, Event.alloc u m ∈ h ++ es ↔ Event.alloc u m ∈ h := by simp [hes]
  have hmem : n ∈ chain h := List.mem_of_getElem? hat
  have hne : node ≠ n := fun heq => hown.notMem (heq ▸ hmem)
  have hpoint : ∀ {p i}, PointsAt h p i → PointsAt (h ++ es) p i :=
    fun hp => hp.mono ⟨[node], hchain.symm⟩
  have htail : ∀ {i}, TailFrom ⟨(), g, h⟩ i → TailFrom
      ⟨(), g.setNode n { g.heap n with next := ⟨some node, count⟩ }, h ++ es⟩ i :=
    fun ⟨k, hk, hp⟩ => ⟨k, hk, hpoint hp⟩
  refine ⟨{ linked := ?linked, head := ?head, tail := ?tail, unlinked_eq := ?unlinked_eq,
            used := ?used, live := ?live, alloc := ?alloc, owner := ?owner },
    ⟨k, hpoint hk, by simp [hchain, hlen]⟩,
    fun u hu => ⟨⟨[node], hchain.symm⟩, le_of_eq hpassed.symm, htail, ?_, ?_, ?_⟩⟩
  case linked =>
    rw [hchain]
    exact hw.linked.snoc hat hlast hown.notMem (by simp [nextPtr])
      (by simpa [nextPtr, hne] using hown.next) fun m _ hm => by simp [nextPtr, hm]
  case head =>
    rw [hpassed]
    exact hpoint hw.head
  case tail =>
    rw [hpassed]
    exact htail hw.tail
  case unlinked_eq =>
    obtain ⟨m, -, hm⟩ := hw.head
    have hlt : passed h < (chain h).length := (List.getElem?_eq_some_iff.mp hm).1
    rw [hunlinked, hpassed, hchain, List.take_append_of_le_length hlt.le]
    exact hw.unlinked_eq
  case used =>
    intro m hm
    rw [hchain] at hm
    rcases List.mem_append.mp hm with hm | hm
    · exact hw.used m hm
    · obtain rfl : m = node := by simpa using hm
      simpa using hw.alloc hown.alloc
  case live =>
    intro i m hi hm
    rw [hpassed] at hi
    rw [hchain] at hm
    by_cases hlt : i < (chain h).length
    · rw [List.getElem?_append_left hlt] at hm
      exact hw.live hi hm
    · obtain rfl : node = m := by
        rw [List.getElem?_append_right (by omega)] at hm
        exact List.mem_singleton.mp (List.mem_of_getElem? hm) ▸ rfl
      exact hown.status
  case alloc =>
    intro u m hm
    exact hw.alloc ((halloc u m).mp hm)
  case owner =>
    intro u v m hu hv
    exact hw.owner ((halloc u m).mp hu) ((halloc v m).mp hv)
  · intro m _
    by_cases hm : m = n
    · subst hm
      simp
    · simp [hm]
  · intro m hp
    have hmn : m ≠ n := fun heq => hp.notMem (heq ▸ hmem)
    have hmnode : m ≠ node := fun heq => hu (hw.owner (heq ▸ hp.alloc) hown.alloc)
    exact ⟨(halloc u m).mpr hp.alloc, by simpa [hchain, hmnode] using hp.notMem, hp.status,
      by simpa [nextPtr, hmn] using hp.next⟩
  · intro p m hr
    exact ⟨hr.ptr, by rw [hunlinked]; exact hr.unlinked, hr.status⟩

/-- A compare-and-swap on `tail`, which moves it one node on or not at all. -/
theorem casTail_preserved (hw : Glob ⟨(), g, h⟩) {fail : Bool} {expected desired : MSPointer}
    {l : Local α} {es : List (Event α)} (hes : Quiet es) {k : Nat} (hk : PointsAt h expected k)
    (hk' : PointsAt h desired (k + 1))
    (hl : Rely t ⟨(), g, h⟩ ⟨(), g.casTail fail expected desired, h ++ es⟩ →
      Loc ⟨(), g.casTail fail expected desired, h ++ es⟩ t l) :
    Preserved t ⟨(), g, h⟩ (g.casTail fail expected desired) l es := by
  by_cases hcas : g.tail = expected ∧ fail = false
  · have hg : g.casTail fail expected desired = { g with tail := desired } := by
      simp [Shared.casTail, hcas]
    -- The frame lemma covers everything but `tail`, which it is applied without.
    have hframe : Frame ⟨(), { g with tail := desired }, h⟩
        ⟨(), { g with tail := desired }, h ++ es⟩ := frame_of_eq rfl rfl rfl rfl hes
    have hstep : ∀ {i}, TailFrom ⟨(), g, h⟩ i → TailFrom ⟨(), { g with tail := desired }, h⟩ i := by
      rintro i ⟨j, hj, hp⟩
      rw [hcas.1] at hp
      obtain rfl : j = k := hw.pointsAt_unique hp hk
      exact ⟨j + 1, by omega, hk'⟩
    have hglob : Glob ⟨(), { g with tail := desired }, h⟩ :=
      ⟨hw.linked, hw.head, hstep hw.tail, hw.unlinked_eq, hw.used, hw.live, hw.alloc, hw.owner⟩
    have hrely : ∀ u, Rely u ⟨(), g, h⟩ ⟨(), { g with tail := desired }, h ++ es⟩ := by
      intro u
      have hr := hframe.rely u
      exact ⟨hr.chain, hr.passed, fun ht => hr.tail (hstep ht), hr.value,
        fun hp => hr.own ⟨hp.alloc, hp.notMem, hp.status, hp.next⟩,
        fun hp => hr.removed ⟨hp.ptr, hp.unlinked, hp.status⟩⟩
    rw [hg] at hl ⊢
    exact ⟨hframe.glob hglob, hl (hrely t), fun u _ => hrely u⟩
  · have hg : g.casTail fail expected desired = g := by simp [Shared.casTail, hcas]
    rw [hg] at hl ⊢
    exact (frame_of_eq rfl rfl rfl rfl hes).preserved hw hl

/-- The compare-and-swap on `head` moves it one node on. -/
theorem unlink_preserved (hw : Glob ⟨(), g, h⟩) {curHead next : MSPointer} {n inv : Nat} {v : α}
    {count : UInt32} {ei el : Option Nat} {op : Op α} {res : Res α}
    (hfront : Front ⟨(), g, h⟩ curHead next) (hn : curHead.ptr = some n)
    (hhead : g.head = curHead) :
    Preserved t ⟨(), g, h⟩ { g with head := ⟨next.ptr, count⟩ }
      (.deqNowLin inv curHead next v ei el) [.unlink t n, .act (.effect t op res)] := by
  set es : List (Event α) := [.unlink t n, .act (.effect t op res)] with hes
  obtain ⟨p, hp, hnext, htail⟩ := hfront
  obtain rfl : p = passed h := hw.pointsAt_unique (hhead ▸ hp) hw.head
  have hat : (chain h)[passed h]? = some n := by
    obtain ⟨m, hm, hat⟩ := hp
    obtain rfl : m = n := Option.some.inj (hm.symm.trans hn)
    exact hat
  have hchain : chain (h ++ es) = chain h := by simp [chain_append, hes, linkedNode]
  have hunlinked : unlinked (h ++ es) = unlinked h ++ [(t, n)] := by
    simp [unlinked_append, hes, unlinkedNode]
  have hpassed : passed (h ++ es) = passed h + 1 := by
    rw [passed, hunlinked, List.length_append, passed, List.length_singleton]
  have halloc : ∀ u m, Event.alloc u m ∈ h ++ es ↔ Event.alloc u m ∈ h := by simp [hes]
  have hpoint : ∀ {q i}, PointsAt h q i → PointsAt (h ++ es) q i :=
    fun hq => hq.mono (hchain ▸ List.prefix_refl _)
  have htailFrom : ∀ {i}, TailFrom ⟨(), g, h⟩ i → TailFrom
      ⟨(), { g with head := ⟨next.ptr, count⟩ }, h ++ es⟩ i :=
    fun ⟨k, hk, hq⟩ => ⟨k, hk, hpoint hq⟩
  refine ⟨{ linked := ?linked, head := ?head, tail := ?tail, unlinked_eq := ?unlinked_eq,
            used := ?used, live := ?live, alloc := ?alloc, owner := ?owner },
    ⟨n, hn, by simp [hunlinked], hw.live le_rfl hat⟩, fun u hu =>
    ⟨hchain ▸ List.prefix_refl _, by rw [hpassed]; exact Nat.le_succ _, htailFrom,
      fun _ _ => rfl, ?_, ?_⟩⟩
  case linked =>
    rw [hchain]
    exact hw.linked
  case head =>
    rw [hpassed]
    exact hpoint hnext
  case tail =>
    rw [hpassed]
    exact htailFrom htail
  case unlinked_eq =>
    rw [hunlinked, hpassed, hchain, List.map_append, hw.unlinked_eq, List.take_add_one, hat]
    rfl
  case used =>
    rw [hchain]
    exact hw.used
  case live =>
    intro i m hi hm
    rw [hpassed] at hi
    rw [hchain] at hm
    exact hw.live (Nat.le_of_succ_le hi) hm
  case alloc =>
    intro u m hm
    exact hw.alloc ((halloc u m).mp hm)
  case owner =>
    intro u v m hu hv
    exact hw.owner ((halloc u m).mp hu) ((halloc v m).mp hv)
  · intro m hm
    exact ⟨(halloc u m).mpr hm.alloc, by rw [hchain]; exact hm.notMem, hm.status, hm.next⟩
  · intro q m hr
    exact ⟨hr.ptr, by simp [hunlinked, hr.unlinked], hr.status⟩

/-- Deleting the node the thread has moved `head` off. -/
theorem delete_preserved (hw : Glob ⟨(), g, h⟩) {p : MSPointer} {n : Nat} {res : Res α}
    (hr : Removed ⟨(), g, h⟩ t p n) :
    Preserved t ⟨(), g, h⟩ (g.setStatus n .deleted) .idle [.act (.ret t res)] := by
  have hframe : Frame ⟨(), g.setStatus n .deleted, h⟩
      ⟨(), g.setStatus n .deleted, h ++ [.act (.ret t res)]⟩ :=
    frame_of_eq rfl rfl rfl rfl ⟨rfl, rfl, by simp⟩
  have hglob : Glob ⟨(), g.setStatus n .deleted, h⟩ := by
    refine ⟨hw.linked, hw.head, hw.tail, hw.unlinked_eq, fun m hm => ?_, fun {i m} hi hm => ?_,
      fun {u m} hm => ?_, hw.owner⟩
    · by_cases hmn : m = n
      · subst hmn
        simp
      · simpa [hmn] using hw.used m hm
    · have hmn : m ≠ n := fun heq => hw.notMem_of_unlinked hr.unlinked hi (heq ▸ hm)
      simpa [hmn] using hw.live hi hm
    · by_cases hmn : m = n
      · subst hmn
        simp
      · simpa [hmn] using hw.alloc hm
  refine ⟨hframe.glob hglob, trivial, fun u hu => ?_⟩
  have hrely := hframe.rely u
  refine ⟨hrely.chain, hrely.passed, hrely.tail, hrely.value, fun {m} hp => hrely.own ?_,
    fun {q m} hm => hrely.removed ?_⟩
  · have hmn : m ≠ n := fun heq => hp.notMem (heq ▸ hw.mem_of_unlinked hr.unlinked)
    exact ⟨hp.alloc, hp.notMem, by simpa [hmn] using hp.status, hp.next⟩
  · have hmn : m ≠ n := fun heq => hu (hw.remover_unique hm.unlinked (heq ▸ hr.unlinked))
    exact ⟨hm.ptr, hm.unlinked, by simpa [hmn] using hm.status⟩

theorem quiet_act (a : Act α) : Quiet [Event.act a] := ⟨rfl, rfl, by simp⟩

theorem quiet_nil : Quiet ([] : List (Event α)) := ⟨rfl, rfl, by simp⟩

/-! One lemma for each control state with an argument of its own. -/

section States

variable {i : Input α} (hw : Glob ⟨(), g, h⟩)

include hw

theorem enqCheckTail_preserves {node : Nat} {curTail next : MSPointer}
    (hl : Loc ⟨(), g, h⟩ t (.enqCheckTail node curTail next)) :
    Leads (Preserved t ⟨(), g, h⟩) (step t i g (.enqCheckTail node curTail next)) := by
  obtain ⟨hown, hnextOf⟩ := hl
  refine .ite (fun _ => ?_) fun _ => .into ?_
  · split <;> rename_i hnext <;> refine .into ?_
    · obtain ⟨k, hk, -⟩ := hnextOf
      exact preserved_of_eq hw rfl rfl rfl rfl quiet_nil fun hr =>
        ⟨hr.own hown, ⟨k, hk.mono hr.chain⟩, hnext⟩
    · exact preserved_of_eq hw rfl rfl rfl rfl quiet_nil fun hr =>
        ⟨hr.own hown, hr.nextOf hnextOf, by simp [hnext]⟩
  · exact preserved_of_eq hw rfl rfl rfl rfl quiet_nil fun hr => hr.own hown

theorem enqCasNext_preserves {node : Nat} {curTail next : MSPointer}
    (hl : Loc ⟨(), g, h⟩ t (.enqCasNext node curTail next)) :
    Leads (Preserved t ⟨(), g, h⟩) (step t i g (.enqCasNext node curTail next)) := by
  obtain ⟨hown, ⟨k, hk⟩, hnone⟩ := hl
  refine .map fun n hn => ?_
  split
  · rename_i hcas
    exact link_preserved hw hown hk hn (by rw [nextPtr, hcas.1, hnone])
  · exact preserved_of_eq hw rfl rfl rfl rfl quiet_nil fun hr => hr.own hown

/-- What the loads have found is true together once `head` is seen not to have moved. -/
theorem deqCheckHead_preserves {inv : Nat} {curHead curTail next : MSPointer}
    (hl : Loc ⟨(), g, h⟩ t (.deqCheckHead inv curHead curTail next)) :
    Leads (Preserved t ⟨(), g, h⟩) (step t i g (.deqCheckHead inv curHead curTail next)) := by
  obtain ⟨hsnap, hnext⟩ := hl
  refine .ite (fun _ => .ite (fun hptr => ?_) fun hptr => ?_) fun _ => .into ?_
  · split <;> rename_i hnull <;> refine .into ?_
    · exact preserved_of_eq hw rfl rfl rfl rfl (quiet_act _) fun _ => trivial
    · refine preserved_of_eq hw rfl rfl rfl rfl quiet_nil fun hr =>
        ⟨hr.nextOf ?_, by simp [hnull]⟩
      obtain ⟨k, ⟨n, hn, hat⟩, hk⟩ := hnext
      exact ⟨k, ⟨n, hptr ▸ hn, hat⟩, hk⟩
  · split <;> rename_i hnull <;> refine .into ?_
    · exact preserved_of_eq hw rfl rfl rfl rfl quiet_nil fun _ => trivial
    · exact preserved_of_eq hw rfl rfl rfl rfl quiet_nil fun hr =>
        hr.front (hw.front hsnap hnext hptr (by simp [hnull]))
  · exact preserved_of_eq hw rfl rfl rfl rfl quiet_nil fun _ => trivial

theorem deqReadValue_preserves {inv : Nat} {curHead next : MSPointer}
    (hl : Loc ⟨(), g, h⟩ t (.deqReadValue inv curHead next)) :
    Leads (Preserved t ⟨(), g, h⟩) (step t i g (.deqReadValue inv curHead next)) := by
  refine .map fun n hn => ?_
  obtain ⟨p, -, ⟨m, hm, hat⟩, -⟩ := id hl
  obtain rfl : m = n := Option.some.inj (hm.symm.trans hn)
  exact preserved_of_eq hw rfl rfl rfl rfl ⟨rfl, rfl, by simp⟩ fun hr =>
    ⟨hr.front hl, hr.valueOf ⟨m, List.mem_of_getElem? hat, hn, rfl⟩⟩

theorem deqCasHead_preserves {inv : Nat} {curHead next : MSPointer} {value : α}
    {ei el : Option Nat}
    (hl : Loc ⟨(), g, h⟩ t (.deqCasHead inv curHead next value ei el)) :
    Leads (Preserved t ⟨(), g, h⟩) (step t i g (.deqCasHead inv curHead next value ei el)) := by
  refine .map fun n hn => ?_
  split
  · rename_i hcas
    exact unlink_preserved hw hl.1 hn hcas.1
  · exact preserved_of_eq hw rfl rfl rfl rfl quiet_nil fun _ => trivial

end States

/-- **Every step keeps the list invariant** and stays within what the other threads rely on. -/
theorem step_preserves {i : Input α} {g' : Shared α} {l l' : Local α} {es : List (Event α)}
    (hw : Glob ⟨(), g, h⟩) (hl : Loc ⟨(), g, h⟩ t l) (hstep : step t i g l = some (g', l', es)) :
    Preserved t ⟨(), g, h⟩ g' l' es := by
  suffices hleads : Leads (Preserved t ⟨(), g, h⟩) (step t i g l) from hleads.of_some hstep
  cases l with
  | idle =>
      refine .map fun op _ => ?_
      cases op <;> exact preserved_of_eq hw rfl rfl rfl rfl (quiet_act _) fun _ => trivial
  | enqNowInv | deqNowInv =>
      refine .ite (fun _ => .into ?_) fun _ => .nowhere
      exact preserved_of_eq hw rfl rfl rfl rfl quiet_nil fun _ => trivial
  | enqNew value inv =>
      exact .ite (fun hfree => .into <| alloc_preserved hw hfree) fun _ => .nowhere
  | enqStoreInv node inv =>
      exact .into <| preserved_setNode hw rfl rfl quiet_nil fun hr => hr.own hl
  | enqLoadTail node =>
      obtain ⟨k, -, hk⟩ := hw.tail
      exact .into <| preserved_of_eq hw rfl rfl rfl rfl quiet_nil fun hr =>
        ⟨hr.own hl, k, hk.mono hr.chain⟩
  | enqLoadNext node curTail =>
      obtain ⟨hown, k, hk⟩ := hl
      refine .map fun n hn => ?_
      exact preserved_of_eq hw rfl rfl rfl rfl quiet_nil fun hr =>
        ⟨hr.own hown, hr.nextOf (hw.nextOf hk hn)⟩
  | enqCheckTail node curTail next => exact enqCheckTail_preserves hw hl
  | enqCasNext node curTail next => exact enqCasNext_preserves hw hl
  | enqRetry node =>
      exact .into <| preserved_of_eq hw rfl rfl rfl rfl quiet_nil fun hr => hr.own hl
  | enqHelpTail node curTail next =>
      obtain ⟨hown, ⟨k, hk, hk'⟩, hne⟩ := hl
      exact .into <| casTail_preserved hw quiet_nil hk (hk' hne) fun hr => hr.own hown
  | enqNowLin node curTail =>
      refine .ite (fun _ => .into ?_) fun _ => .nowhere
      exact preserved_of_eq hw rfl rfl rfl rfl quiet_nil fun hr => hr.linkedBehind hl
  | enqStoreLin node curTail lin =>
      exact .into <| preserved_setNode hw rfl rfl ⟨rfl, rfl, by simp⟩ fun hr => hr.linkedBehind hl
  | enqSwingTail node curTail =>
      obtain ⟨k, hk, hnode⟩ := hl
      exact .into <| casTail_preserved hw (quiet_act _) hk ⟨node, rfl, hnode⟩ fun _ => trivial
  | deqLoadHead inv =>
      exact .into <| preserved_of_eq hw rfl rfl rfl rfl quiet_nil fun hr =>
        ⟨passed h, hr.passed, hw.head.mono hr.chain⟩
  | deqLoadTail inv curHead =>
      obtain ⟨p, hp, hch⟩ := hl
      obtain ⟨k, hk, htail⟩ := hw.tail
      exact .into <| preserved_of_eq hw rfl rfl rfl rfl quiet_nil fun hr =>
        hr.snapshot ⟨p, k, hp, hp.trans hk, hch, htail, k, le_rfl, htail⟩
  | deqLoadNext inv curHead curTail =>
      obtain ⟨p, -, -, -, hch, -⟩ := id hl
      refine .map fun n hn => ?_
      exact preserved_of_eq hw rfl rfl rfl rfl quiet_nil fun hr =>
        ⟨hr.snapshot hl, hr.nextOf (hw.nextOf hch hn)⟩
  | deqCheckHead inv curHead curTail next => exact deqCheckHead_preserves hw hl
  | deqHelpTail inv curTail next =>
      obtain ⟨⟨k, hk, hk'⟩, hne⟩ := hl
      exact .into <| casTail_preserved hw quiet_nil hk (hk' hne) fun _ => trivial
  | deqReadValue inv curHead next => exact deqReadValue_preserves hw hl
  | deqReadInv | deqReadLin =>
      refine .map fun _ _ => ?_
      exact preserved_of_eq hw rfl rfl rfl rfl quiet_nil fun hr =>
        ⟨hr.front hl.1, hr.valueOf hl.2⟩
  | deqCasHead inv curHead next value ei el => exact deqCasHead_preserves hw hl
  | deqNowLin inv curHead next value ei el =>
      obtain ⟨m, hm⟩ := hl
      refine .ite (fun _ => .map fun _ _ => ?_) fun _ => .nowhere
      exact preserved_of_eq hw rfl rfl rfl rfl ⟨rfl, rfl, by simp⟩ fun hr => ⟨m, hr.removed hm⟩
  | deqDelete curHead value =>
      obtain ⟨m, hm⟩ := hl
      refine .map fun n hn => ?_
      obtain rfl : m = n := Option.some.inj (hm.ptr.symm.trans hn)
      exact delete_preserved hw hm

/-- What a step does to the nodes and the heap. -/
inductive NodeStep (i : Input α) (g : Shared α) : Local α → Shared α → Prop
  | none {l : Local α} {g' : Shared α} (hheap : g'.heap = g.heap) (hstatus : g'.status = g.status) :
      NodeStep i g l g'
  | alloc {value : α} {inv : Nat} (hfree : g.status i.addr = .unallocated) :
      NodeStep i g (.enqNew value inv) ((g.setStatus i.addr .allocated).setNode i.addr { value })
  | write {l : Local α} {n : Nat} {node : MSNode α} (hvalue : node.value = (g.heap n).value) :
      NodeStep i g l (g.setNode n node)
  | delete {curHead : MSPointer} {value : α} {n : Nat} (hn : curHead.ptr = some n) :
      NodeStep i g (.deqDelete curHead value) (g.setStatus n .deleted)

theorem step_nodes {i : Input α} {g' : Shared α} {l l' : Local α} {es : List (Event α)}
    (hstep : step t i g l = some (g', l', es)) : NodeStep i g l g' := by
  suffices hleads : Leads (fun g' _ _ => NodeStep i g l g') (step t i g l) from
    hleads.of_some hstep
  cases l with
  | idle =>
      refine .map fun op _ => ?_
      cases op <;> exact .none rfl rfl
  | enqNowInv | enqNowLin | deqNowInv =>
      exact .ite (fun _ => .into <| .none rfl rfl) fun _ => .nowhere
  | enqNew => exact .ite (fun hfree => .into <| .alloc hfree) fun _ => .nowhere
  | enqStoreInv | enqStoreLin => exact .into <| .write rfl
  | enqLoadTail | enqRetry | deqLoadHead | deqLoadTail => exact .into <| .none rfl rfl
  | enqHelpTail | enqSwingTail | deqHelpTail => exact .into <| .none (by simp) (by simp)
  | enqLoadNext | deqLoadNext | deqReadValue | deqReadInv | deqReadLin =>
      exact .map fun _ _ => .none rfl rfl
  | enqCheckTail =>
      refine .ite (fun _ => ?_) fun _ => .into <| .none rfl rfl
      split <;> exact .into <| .none rfl rfl
  | deqCheckHead =>
      refine .ite (fun _ => .ite (fun _ => ?_) fun _ => ?_) fun _ => .into <| .none rfl rfl <;>
        split <;> exact .into <| .none rfl rfl
  | enqCasNext =>
      refine .map fun n _ => ?_
      split
      · exact .write rfl
      · exact .none rfl rfl
  | deqCasHead =>
      refine .map fun n _ => ?_
      split <;> exact .none rfl rfl
  | deqNowLin => exact .ite (fun _ => .map fun _ _ => .none rfl rfl) fun _ => .nowhere
  | deqDelete => exact .map fun n hn => .delete hn

end Steps

theorem glob_init [Inhabited α] : Glob ⟨(), (program α).start, []⟩ where
  linked := Linked.singleton rfl
  head := ⟨dummyNode, rfl, rfl⟩
  tail := ⟨0, le_rfl, dummyNode, rfl, rfl⟩
  unlinked_eq := rfl
  used n hn := by
    obtain rfl : n = dummyNode := by simpa [chain] using hn
    simp [program]
  live {i n} _ hn := by
    have hmem := List.mem_of_getElem? hn
    obtain rfl : n = dummyNode := by simpa [chain] using hmem
    simp [program]
  alloc h := by simp at h
  owner h := by simp at h

/-- The list invariant as a rely-guarantee proof. -/
def listInvariant (α : Type) [Inhabited α] :
    RelyGuarantee (program α) (fun _ _ _ => True) Unit where
  glob := Glob
  loc := Loc
  rely := Rely
  init := ⟨(), glob_init, fun _ => trivial⟩
  stable := Rely.loc
  step _ hw hl hstep := ⟨(), step_preserves hw (hl _) hstep⟩

/-- The list invariant holds in every reached configuration, whatever the run. -/
theorem Reach.list [Inhabited α] {ok : Config (Shared α) (Local α) (Event α) → Tid → Input α → Prop}
    {c : Config (Shared α) (Local α) (Event α)} (h : (program α).Reach ok c) :
    Glob ⟨(), c.shared, c.history⟩ ∧ ∀ t, Loc ⟨(), c.shared, c.history⟩ t (c.locals t) := by
  obtain ⟨_, hc⟩ := (listInvariant α).holds (h.mono fun _ _ _ _ => trivial)
  exact hc

end QueueFairness.MSQueue
