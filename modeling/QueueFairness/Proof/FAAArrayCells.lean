import QueueFairness.FAAArrayQueue
import QueueFairness.Lib.LinkedList

/-!
# The cells of the array queue

What holds however the counters run: the linked nodes form one list, an item is put in one cell of
it by its own enqueue, and an exchange takes it out for good. This needs only that no item is
enqueued twice.
-/

namespace QueueFairness.FAAArrayQueue

open Interleaving AtomicQueue LinkedList

abbrev W := World Unit Shared Event

/-- `n` is the `q`th node of the list. -/
def At (history : List Event) (n q : Nat) : Prop := (chain history)[q]? = some n

def nextPtr (g : Shared) (n : Nat) : Option Nat := (g.nodes n).next

/-- `idx` is the index of a cell. -/
def InNode (L : Layout) (idx : Int) : Prop := 0 ≤ idx ∧ idx < L.size

theorem InNode.toNat_lt {L : Layout} {idx : Int} (h : InNode L idx) : idx.toNat < L.size :=
  (Int.toNat_lt h.1).mpr h.2

def takenItem : Event → Option Nat
  | .take _ _ _ (.item a) => some a
  | _ => none

/-- The items that have been exchanged out of their cells. -/
def takenItems (history : List Event) : List Nat := history.filterMap takenItem

structure Glob (L : Layout) (w : W) : Prop where
  linked : Linked (nextPtr w.shared) (chain w.history)
  head : ∃ q, At w.history w.shared.head q
  tail : ∃ q, At w.history w.shared.tail q
  used : ∀ n ∈ chain w.history, w.shared.status n ≠ .unallocated
  alloc : ∀ {t n}, .alloc t n ∈ w.history → w.shared.status n ≠ .unallocated
  owner : ∀ {t u n}, .alloc t n ∈ w.history → .alloc u n ∈ w.history → t = u
  caller : ∀ {t u a}, .call t (.enqueue a) ∈ w.history → .call u (.enqueue a) ∈ w.history → t = u
  cell : ∀ {n idx a}, n ∈ chain w.history → InNode L idx → w.shared.cell L n idx = .item a →
    Put w.history a n idx ∧ a ∉ takenItems w.history
  put : ∀ {a n idx}, Put w.history a n idx →
    n ∈ chain w.history ∧ InNode L idx ∧ (∃ t, .call t (.enqueue a) ∈ w.history)
      ∧ (w.shared.cell L n idx = .item a ∨ ∃ u, .take u n idx (.item a) ∈ w.history)
  putUnique : ∀ {a n idx m j}, Put w.history a n idx → Put w.history a m j → n = m ∧ idx = j
  take : ∀ {t n idx v}, .take t n idx v ∈ w.history →
    n ∈ chain w.history ∧ InNode L idx ∧ w.shared.cell L n idx = .taken
  taken : ∀ {t n idx a}, .take t n idx (.item a) ∈ w.history → Put w.history a n idx
  takenOnce : (takenItems w.history).Nodup
  takenCell : ∀ {n idx}, n ∈ chain w.history → InNode L idx → w.shared.cell L n idx = .taken →
    ∃ t v, .take t n idx v ∈ w.history

/-- The call of thread `t` to enqueue `a`, before it has put the item in the list. -/
structure Pending (w : W) (t : Tid) (a : Nat) : Prop where
  call : .call t (.enqueue a) ∈ w.history
  put : ∀ n idx, ¬ Put w.history a n idx

/-- A node thread `t` has allocated for item `a` and not linked. -/
structure Private (L : Layout) (w : W) (t : Tid) (n a : Nat) : Prop where
  alloc : .alloc t n ∈ w.history
  notMem : n ∉ chain w.history
  status : w.shared.status n ≠ .unallocated
  node : ∃ offset, w.shared.nodes n = newNode L (.item a) offset

/-- `n` is on the list, and `m` is the node behind it. -/
def Linking (w : W) (n m : Nat) : Prop := ∃ q, At w.history n q ∧ At w.history m (q + 1)

/-- The item is the one thread `t` took out of some cell. -/
def Took (w : W) (t : Tid) (v : Slot) : Prop :=
  ∀ a, v = .item a → ∃ n idx, .take t n idx v ∈ w.history

def Loc (L : Layout) (w : W) (t : Tid) : Local → Prop
  | .idle | .deqProtect _ | .deqPublish _ | .deqRetire _ | .deqScan _ => True
  | .enqProtect a _ | .enqPublish a _ => Pending w t a
  | .enqFetchAdd a ltail | .enqCheckTail a ltail | .enqLoadNext a ltail | .enqNewNode a ltail =>
      Pending w t a ∧ ∃ q, At w.history ltail q
  | .enqHelpTail a ltail lnext => Pending w t a ∧ Linking w ltail lnext
  | .enqCasNext a ltail n =>
      Pending w t a ∧ (∃ q, At w.history ltail q) ∧ Private L w t n a
  | .enqNowLinked a ltail n | .enqStampLinked a ltail n _ | .enqCasTail a ltail n =>
      Linking w ltail n ∧ Put w.history a n 0
  | .enqCasCell a ltail idx => Pending w t a ∧ (∃ q, At w.history ltail q) ∧ idx < L.size
  | .enqNowCell a | .enqStampCell a _ | .enqClear a => ∃ n idx, Put w.history a n idx
  | .deqFetchAdd lhead | .deqLoadNext lhead => ∃ q, At w.history lhead q
  | .deqCasHead lhead lnext => Linking w lhead lnext
  | .deqLoadCell lhead idx => (∃ q, At w.history lhead q) ∧ idx < L.size
  | .deqLoadEnqidx lhead idx | .deqSpin lhead idx _ | .deqExchange lhead idx
  | .deqReloadEnqidx lhead idx | .deqCheckNext lhead idx _ | .deqCasEnqidx lhead idx _ =>
      (∃ q, At w.history lhead q) ∧ InNode L idx
  | .deqNowLin v | .deqStampLin v _ | .deqClear v => Took w t v

/-- What thread `t` relies on. -/
structure Rely (L : Layout) (t : Tid) (w w' : W) : Prop where
  history : ∀ {e}, e ∈ w.history → e ∈ w'.history
  chain : chain w.history <+: chain w'.history
  pending : ∀ {a}, Pending w t a → Pending w' t a
  own : ∀ {n a}, Private L w t n a → Private L w' t n a

section Stable

variable {L : Layout} {t : Tid} {w w' : W}

theorem At.mono {h h' : List Event} (hle : chain h <+: chain h') {n q : Nat} (hn : At h n q) :
    At h' n q := by
  obtain ⟨more, hmore⟩ := hle
  unfold At
  rw [← hmore]
  exact getElem?_append_of_some hn more

theorem Put.mono {h h' : List Event} (hle : ∀ {e}, e ∈ h → e ∈ h') {a n : Nat} {idx : Int}
    (hput : Put h a n idx) : Put h' a n idx := by
  rcases hput with ⟨t, ht⟩ | ⟨rfl, t, ht⟩
  · exact .inl ⟨t, hle ht⟩
  · exact .inr ⟨rfl, t, hle ht⟩

theorem Rely.at (h : Rely L t w w') {n : Nat} (hn : ∃ q, At w.history n q) :
    ∃ q, At w'.history n q := by
  obtain ⟨q, hq⟩ := hn
  exact ⟨q, hq.mono h.chain⟩

theorem Rely.linking (h : Rely L t w w') {n m : Nat} (hl : Linking w n m) : Linking w' n m := by
  obtain ⟨q, hn, hm⟩ := hl
  exact ⟨q, hn.mono h.chain, hm.mono h.chain⟩

theorem Rely.took (h : Rely L t w w') {v : Slot} (hv : Took w t v) : Took w' t v := by
  intro a ha
  obtain ⟨n, idx, htake⟩ := hv a ha
  exact ⟨n, idx, h.history htake⟩

theorem Rely.loc {l : Local} (h : Rely L t w w') (hl : Loc L w t l) : Loc L w' t l := by
  cases l with
  | idle | deqProtect | deqPublish | deqRetire | deqScan => trivial
  | enqProtect | enqPublish => exact h.pending hl
  | enqFetchAdd | enqCheckTail | enqLoadNext | enqNewNode => exact ⟨h.pending hl.1, h.at hl.2⟩
  | enqHelpTail => exact ⟨h.pending hl.1, h.linking hl.2⟩
  | enqCasNext => exact ⟨h.pending hl.1, h.at hl.2.1, h.own hl.2.2⟩
  | enqNowLinked | enqStampLinked | enqCasTail => exact ⟨h.linking hl.1, hl.2.mono h.history⟩
  | enqCasCell => exact ⟨h.pending hl.1, h.at hl.2.1, hl.2.2⟩
  | enqNowCell | enqStampCell | enqClear =>
      obtain ⟨n, idx, hput⟩ := hl
      exact ⟨n, idx, hput.mono h.history⟩
  | deqFetchAdd | deqLoadNext => exact h.at hl
  | deqCasHead => exact h.linking hl
  | deqLoadCell | deqLoadEnqidx | deqSpin | deqExchange | deqReloadEnqidx | deqCheckNext
  | deqCasEnqidx => exact ⟨h.at hl.1, hl.2⟩
  | deqNowLin | deqStampLin | deqClear => exact h.took hl

end Stable

/-! ### Steps -/

namespace Shared

variable {L : Layout} (g : Shared) (n : Nat)

@[simp] theorem setNode_status (node : Node) : (g.setNode n node).status = g.status := rfl
@[simp] theorem setNode_head (node : Node) : (g.setNode n node).head = g.head := rfl
@[simp] theorem setNode_tail (node : Node) : (g.setNode n node).tail = g.tail := rfl
@[simp] theorem setStatus_nodes (s : Status) : (g.setStatus n s).nodes = g.nodes := rfl
@[simp] theorem setStatus_head (s : Status) : (g.setStatus n s).head = g.head := rfl
@[simp] theorem setStatus_tail (s : Status) : (g.setStatus n s).tail = g.tail := rfl

@[simp]
theorem setNode_self (node : Node) : (g.setNode n node).nodes n = node := by
  simp [setNode]

@[simp]
theorem setNode_of_ne (node : Node) {m : Nat} (hne : m ≠ n) :
    (g.setNode n node).nodes m = g.nodes m := by
  simp [setNode, hne]

@[simp]
theorem setStatus_self (s : Status) : (g.setStatus n s).status n = s := by
  simp [setStatus]

@[simp]
theorem setStatus_of_ne (s : Status) {m : Nat} (hne : m ≠ n) :
    (g.setStatus n s).status m = g.status m := by
  simp [setStatus, hne]

@[simp]
theorem setCell_nodes_of_ne (idx : Int) (v : Slot) {m : Nat} (hne : m ≠ n) :
    (g.setCell L n idx v).nodes m = g.nodes m := by
  simp [setCell, hne]

@[simp]
theorem cell_setCell_self (idx : Int) (v : Slot) : (g.setCell L n idx v).cell L n idx = v := by
  simp [setCell, cell]

@[simp]
theorem setCell_next (idx : Int) (v : Slot) (m : Nat) :
    ((g.setCell L n idx v).nodes m).next = (g.nodes m).next := by
  by_cases hm : m = n
  · subst hm
    simp [setCell]
  · simp [setCell, hm]

/-- Different indices have different cells. -/
theorem cell_setCell_of_ne {idx j : Int} (v : Slot) {m : Nat} (hidx : InNode L idx)
    (hj : InNode L j) (hne : m = n → j ≠ idx) :
    (g.setCell L n idx v).cell L m j = g.cell L m j := by
  by_cases hm : m = n
  · subst hm
    have hpos : L.position j.toNat ≠ L.position idx.toNat := by
      intro heq
      have := Layout.position_inj hj.toNat_lt hidx.toNat_lt heq
      have h0 := hidx.1
      have h1 := hj.1
      exact hne rfl (by omega)
    simp [setCell, cell, hpos]
  · simp [setCell, cell, hm]

end Shared

theorem cell_newNode {L : Layout} {g : Shared} {n : Nat} {v : Slot} {offset : UInt64} {idx : Int}
    (hn : g.nodes n = newNode L v offset) (hidx : InNode L idx) :
    g.cell L n idx = if idx = 0 then v else .empty := by
  by_cases h0 : idx = 0
  · subst h0
    simp [Shared.cell, hn, newNode]
  · have hpos : L.position idx.toNat ≠ L.position 0 := by
      intro heq
      have := Layout.position_inj hidx.toNat_lt L.size_pos heq
      have h1 := hidx.1
      omega
    simp [Shared.cell, hn, newNode, hpos, h0]

/-- What a step of thread `t` from `w` has to achieve. -/
def Preserved (L : Layout) (t : Tid) (w : W) (g : Shared) (l : Local) (es : List Event) : Prop :=
  Glob L ⟨(), g, w.history ++ es⟩ ∧ Loc L ⟨(), g, w.history ++ es⟩ t l
    ∧ ∀ u, u ≠ t → Rely L u w ⟨(), g, w.history ++ es⟩

/-- Events that do not concern the cells. -/
def Event.Quiet : Event → Prop
  | .claim _ _ _ | .stampEnq _ _ _ | .stampDeq _ _ _ | .retEnq _ _ | .retDeq _ _
  | .call _ .dequeue => True
  | _ => False

section History

variable {h es : List Event}

theorem chain_append : chain (h ++ es) = chain h ++ es.filterMap linkedNode := by
  simp [chain]

theorem takenItems_append : takenItems (h ++ es) = takenItems h ++ takenItems es := by
  simp [takenItems]

variable (hes : ∀ e ∈ es, e.Quiet)

include hes

theorem chain_quiet : chain (h ++ es) = chain h := by
  have hnone : es.filterMap linkedNode = [] := by
    refine List.filterMap_eq_nil_iff.mpr fun e he => ?_
    have := hes e he
    cases e <;> first | rfl | exact absurd this id
  rw [chain_append, hnone, List.append_nil]

theorem takenItems_quiet : takenItems (h ++ es) = takenItems h := by
  have hnone : takenItems es = [] := by
    refine List.filterMap_eq_nil_iff.mpr fun e he => ?_
    have := hes e he
    cases e <;> first | rfl | exact absurd this id
  rw [takenItems_append, hnone, List.append_nil]

theorem mem_quiet {e : Event} (he : ¬ e.Quiet) : e ∈ h ++ es ↔ e ∈ h := by
  rw [List.mem_append]
  exact ⟨fun hmem => hmem.resolve_right fun hmem' => he (hes e hmem'), .inl⟩

theorem put_quiet {a n : Nat} {idx : Int} : Put (h ++ es) a n idx ↔ Put h a n idx := by
  have hfill : ∀ t, .fill t a n idx ∈ h ++ es ↔ .fill t a n idx ∈ h := fun _ => mem_quiet hes id
  have hlink : ∀ t, .link t n a ∈ h ++ es ↔ .link t n a ∈ h := fun _ => mem_quiet hes id
  simp only [Put, hfill, hlink]

end History

section Steps

variable {L : Layout} {t : Tid} {g g' : Shared} {h es : List Event} {l : Local}

/-- The nodes' links and cells are as they were. -/
structure SameCells (g g' : Shared) : Prop where
  next : ∀ n, (g'.nodes n).next = (g.nodes n).next
  items : ∀ n, (g'.nodes n).items = (g.nodes n).items

theorem SameCells.cell (hsame : SameCells g g') (n : Nat) (idx : Int) :
    g'.cell L n idx = g.cell L n idx := by
  rw [Shared.cell, hsame.items, Shared.cell]

/-- A counter of a node is written. -/
theorem SameCells.setNode {n : Nat} {node : Node} (hnext : node.next = (g.nodes n).next)
    (hitems : node.items = (g.nodes n).items) : SameCells g (g.setNode n node) := by
  constructor <;> intro m <;> by_cases hm : m = n
  · subst hm
    simpa using hnext
  · simp [hm]
  · subst hm
    simpa using hitems
  · simp [hm]

/-- The list, its cells and what was told of them are as they were. -/
structure SameList (L : Layout) (g g' : Shared) (h h' : List Event) : Prop where
  linked : chain h' = chain h
  removed : takenItems h' = takenItems h
  put : ∀ {a n idx}, Put h' a n idx ↔ Put h a n idx
  take : ∀ {u n idx v}, .take u n idx v ∈ h' ↔ .take u n idx v ∈ h
  next : ∀ n ∈ chain h, nextPtr g' n = nextPtr g n
  cell : ∀ {n}, n ∈ chain h → ∀ idx, g'.cell L n idx = g.cell L n idx
  status : ∀ n, g.status n ≠ .unallocated → g'.status n ≠ .unallocated

theorem SameList.at {h' : List Event} (hsame : SameList L g g' h h') {n q : Nat} (hn : At h n q) :
    At h' n q :=
  hn.mono (hsame.linked ▸ List.prefix_refl _)

/-- What remains to be checked is who has called and who has allocated. -/
theorem SameList.glob {h' : List Event} (hsame : SameList L g g' h h') (hw : Glob L ⟨(), g, h⟩)
    (hhead : ∃ q, At h g'.head q) (htail : ∃ q, At h g'.tail q)
    (hcalled : ∀ {u a}, .call u (.enqueue a) ∈ h → .call u (.enqueue a) ∈ h')
    (halloc : ∀ {u n}, .alloc u n ∈ h' → g'.status n ≠ .unallocated)
    (howner : ∀ {u v n}, .alloc u n ∈ h' → .alloc v n ∈ h' → u = v)
    (hcaller : ∀ {u v a}, .call u (.enqueue a) ∈ h' → .call v (.enqueue a) ∈ h' → u = v) :
    Glob L ⟨(), g', h'⟩ where
  linked := by
    rw [hsame.linked]
    exact hw.linked.congr hsame.next
  head := hhead.imp fun _ => hsame.at
  tail := htail.imp fun _ => hsame.at
  used := by
    rw [hsame.linked]
    exact fun n hn => hsame.status n (hw.used n hn)
  alloc := halloc
  owner := howner
  caller := hcaller
  cell := by
    intro n idx a hn hidx ha
    rw [hsame.linked] at hn
    rw [hsame.put, hsame.removed]
    exact hw.cell hn hidx ((hsame.cell hn idx).symm.trans ha)
  put := by
    intro a n idx hput
    obtain ⟨hn, hidx, ⟨u, hu⟩, hcell⟩ := hw.put (hsame.put.mp hput)
    refine ⟨by rwa [hsame.linked], hidx, ⟨u, hcalled hu⟩, ?_⟩
    rcases hcell with hcell | ⟨v, hv⟩
    · exact .inl ((hsame.cell hn idx).trans hcell)
    · exact .inr ⟨v, hsame.take.mpr hv⟩
  putUnique hput hput' := hw.putUnique (hsame.put.mp hput) (hsame.put.mp hput')
  take := by
    intro u n idx v htake
    obtain ⟨hn, hidx, hv⟩ := hw.take (hsame.take.mp htake)
    exact ⟨by rwa [hsame.linked], hidx, (hsame.cell hn idx).trans hv⟩
  taken htake := hsame.put.mpr (hw.taken (hsame.take.mp htake))
  takenOnce := by
    rw [hsame.removed]
    exact hw.takenOnce
  takenCell := by
    intro n idx hn hidx hv
    rw [hsame.linked] at hn
    obtain ⟨u, v, hu⟩ := hw.takenCell hn hidx ((hsame.cell hn idx).symm.trans hv)
    exact ⟨u, v, hsame.take.mpr hu⟩

/-- A step that leaves the cells alone, and whatever else it does to a listed node's counters does
not touch the nodes that are not listed. -/
theorem preserved_of_same (hw : Glob L ⟨(), g, h⟩) (hsame : SameCells g g')
    (hprivate : ∀ n ∉ chain h, g'.nodes n = g.nodes n)
    (hstatus : ∀ n, g.status n ≠ .unallocated → g'.status n ≠ .unallocated)
    (hhead : ∃ q, At h g'.head q) (htail : ∃ q, At h g'.tail q) (hes : ∀ e ∈ es, e.Quiet)
    (hl : Rely L t ⟨(), g, h⟩ ⟨(), g', h ++ es⟩ → Loc L ⟨(), g', h ++ es⟩ t l) :
    Preserved L t ⟨(), g, h⟩ g' l es := by
  have hlist : SameList L g g' h (h ++ es) :=
    { linked := chain_quiet hes
      removed := takenItems_quiet hes
      put := put_quiet hes
      take := mem_quiet hes id
      next := fun n _ => hsame.next n
      cell := fun {n} _ => hsame.cell n
      status := hstatus }
  have hcall : ∀ {u a}, .call u (.enqueue a) ∈ h ++ es ↔ .call u (.enqueue a) ∈ h :=
    mem_quiet hes id
  have halloc : ∀ {u n}, .alloc u n ∈ h ++ es ↔ .alloc u n ∈ h := mem_quiet hes id
  have hrely : ∀ u, Rely L u ⟨(), g, h⟩ ⟨(), g', h ++ es⟩ := fun u =>
    ⟨fun he => List.mem_append_left _ he, hlist.linked ▸ List.prefix_refl _,
      fun hp => ⟨hcall.mpr hp.call, fun n idx hn => hp.put n idx (hlist.put.mp hn)⟩,
      fun {n a} hp => ⟨halloc.mpr hp.alloc, hlist.linked ▸ hp.notMem, hstatus n hp.status, by
        rw [hprivate n hp.notMem]
        exact hp.node⟩⟩
  refine ⟨?_, hl (hrely t), fun u _ => hrely u⟩
  exact hlist.glob hw hhead htail hcall.mpr (fun hn => hstatus _ (hw.alloc (halloc.mp hn)))
    (fun hn hm => hw.owner (halloc.mp hn) (halloc.mp hm))
    fun hn hm => hw.caller (hcall.mp hn) (hcall.mp hm)

/-- A step that writes nothing in the nodes. -/
theorem preserved_of_nodes (hw : Glob L ⟨(), g, h⟩) (hnodes : g'.nodes = g.nodes)
    (hstatus : ∀ n, g.status n ≠ .unallocated → g'.status n ≠ .unallocated)
    (hhead : ∃ q, At h g'.head q) (htail : ∃ q, At h g'.tail q) (hes : ∀ e ∈ es, e.Quiet)
    (hl : Rely L t ⟨(), g, h⟩ ⟨(), g', h ++ es⟩ → Loc L ⟨(), g', h ++ es⟩ t l) :
    Preserved L t ⟨(), g, h⟩ g' l es :=
  preserved_of_same hw ⟨fun n => by rw [hnodes], fun n => by rw [hnodes]⟩
    (fun n _ => by rw [hnodes]) hstatus hhead htail hes hl

/-- A step that writes nothing but hazard pointers. -/
theorem preserved_of_eq (hw : Glob L ⟨(), g, h⟩) (hnodes : g'.nodes = g.nodes)
    (hstatus : g'.status = g.status) (hhead : g'.head = g.head) (htail : g'.tail = g.tail)
    (hes : ∀ e ∈ es, e.Quiet)
    (hl : Rely L t ⟨(), g, h⟩ ⟨(), g', h ++ es⟩ → Loc L ⟨(), g', h ++ es⟩ t l) :
    Preserved L t ⟨(), g, h⟩ g' l es :=
  preserved_of_nodes hw hnodes (fun n hn => by rwa [hstatus]) (hhead ▸ hw.head) (htail ▸ hw.tail)
    hes hl

/-- A step that writes a counter of a listed node. -/
theorem preserved_of_counter (hw : Glob L ⟨(), g, h⟩) {n : Nat} {node : Node}
    (hn : ∃ q, At h n q) (hnext : node.next = (g.nodes n).next)
    (hitems : node.items = (g.nodes n).items) (hes : ∀ e ∈ es, e.Quiet)
    (hl : Rely L t ⟨(), g, h⟩ ⟨(), g.setNode n node, h ++ es⟩ →
      Loc L ⟨(), g.setNode n node, h ++ es⟩ t l) :
    Preserved L t ⟨(), g, h⟩ (g.setNode n node) l es := by
  refine preserved_of_same hw (.setNode hnext hitems) (fun m hm => ?_) (fun _ hm => hm) hw.head
    hw.tail hes hl
  obtain ⟨q, hq⟩ := hn
  have hne : m ≠ n := fun heq => hm (heq ▸ List.mem_of_getElem? hq)
  simp [hne]

/-- A call to enqueue an item nobody has enqueued before. -/
theorem call_preserved (hw : Glob L ⟨(), g, h⟩) {a : Nat}
    (hfresh : ∀ u, .call u (.enqueue a) ∉ h) :
    Preserved L t ⟨(), g, h⟩ g (.enqProtect a none) [.call t (.enqueue a)] := by
  have hlist : SameList L g g h (h ++ [.call t (.enqueue a)]) :=
    { linked := by simp [chain_append, linkedNode]
      removed := by simp [takenItems, takenItem]
      put := by simp [Put]
      take := by simp
      next := fun _ _ => rfl
      cell := fun _ _ => rfl
      status := fun _ hn => hn }
  have hnone : ∀ n idx, ¬ Put h a n idx := fun n idx hn => by
    obtain ⟨-, -, ⟨u, hu⟩, -⟩ := hw.put hn
    exact hfresh u hu
  refine ⟨?_, ⟨by simp, fun n idx hn => hnone n idx (hlist.put.mp hn)⟩,
    fun u _ => ⟨fun he => List.mem_append_left _ he, hlist.linked ▸ List.prefix_refl _,
      fun hp => ⟨List.mem_append_left _ hp.call, fun n idx hn => hp.put n idx (hlist.put.mp hn)⟩,
      fun hp => ⟨List.mem_append_left _ hp.alloc, hlist.linked ▸ hp.notMem, hp.status, hp.node⟩⟩⟩
  refine hlist.glob hw hw.head hw.tail (List.mem_append_left _)
    (fun {u n} hn => hw.alloc (t := u) (by simpa using hn))
    (fun {u v n} hn hm => hw.owner (n := n) (by simpa using hn) (by simpa using hm)) ?_
  intro u v b hu hv
  have hu' : .call u (.enqueue b) ∈ h ∨ u = t ∧ b = a := by simpa using hu
  have hv' : .call v (.enqueue b) ∈ h ∨ v = t ∧ b = a := by simpa using hv
  rcases hu' with hu' | ⟨rfl, rfl⟩ <;> rcases hv' with hv' | ⟨rfl, hb⟩
  · exact hw.caller hu' hv'
  · exact absurd (hb ▸ hu') (hfresh u)
  · exact absurd hv' (hfresh v)
  · rfl

/-- A new node, with the item in its first cell. -/
theorem alloc_preserved (hw : Glob L ⟨(), g, h⟩) {a ltail n : Nat} {offset : UInt64}
    (hfree : g.status n = .unallocated) (hpending : Pending ⟨(), g, h⟩ t a)
    (hltail : ∃ q, At h ltail q) :
    Preserved L t ⟨(), g, h⟩ ((g.setStatus n .allocated).setNode n (newNode L (.item a) offset))
      (.enqCasNext a ltail n) [.alloc t n] := by
  have hnew : n ∉ chain h := fun hmem => hw.used n hmem hfree
  have hfresh : ∀ u, .alloc u n ∉ h := fun u hu => hw.alloc hu hfree
  have hne : ∀ {m}, m ∈ chain h → m ≠ n := fun hm heq => hnew (heq ▸ hm)
  have hlist : SameList L g ((g.setStatus n .allocated).setNode n (newNode L (.item a) offset)) h
      (h ++ [.alloc t n]) :=
    { linked := by simp [chain_append, linkedNode]
      removed := by simp [takenItems, takenItem]
      put := by simp [Put]
      take := by simp
      next := fun m hm => by simp [nextPtr, hne hm]
      cell := fun hm idx => by simp [Shared.cell, hne hm]
      status := fun m hm => by
        by_cases hmn : m = n
        · subst hmn
          simp
        · simpa [hmn] using hm }
  refine ⟨?_,
    ⟨⟨by simp [hpending.call], fun m idx hm => hpending.put m idx (hlist.put.mp hm)⟩,
      hltail.imp fun _ => hlist.at, ⟨by simp, by rw [hlist.linked]; exact hnew, by simp, offset,
        by simp⟩⟩,
    fun u _ => ⟨fun he => List.mem_append_left _ he, hlist.linked ▸ List.prefix_refl _,
      fun hp => ⟨List.mem_append_left _ hp.call, fun m idx hm => hp.put m idx (hlist.put.mp hm)⟩,
      fun {m b} hp => ?_⟩⟩
  · refine hlist.glob hw hw.head hw.tail (List.mem_append_left _) ?_ ?_
      fun {u v b} hn hm => hw.caller (a := b) (by simpa using hn) (by simpa using hm)
    · intro u m hm
      by_cases hmn : m = n
      · subst hmn
        simp
      · exact hlist.status m (hw.alloc (t := u) (by simpa [hmn] using hm))
    · intro u v m hu hv
      by_cases hmn : m = n
      · subst hmn
        have hu' : u = t := by simpa [hfresh] using hu
        have hv' : v = t := by simpa [hfresh] using hv
        exact hu'.trans hv'.symm
      · exact hw.owner (n := m) (by simpa [hmn] using hu) (by simpa [hmn] using hv)
  · have hmn : m ≠ n := fun heq => hp.status (heq ▸ hfree)
    exact ⟨List.mem_append_left _ hp.alloc, by rw [hlist.linked]; exact hp.notMem,
      hlist.status m hp.status, by simpa [hmn] using hp.node⟩

/-- An item that is not put is in no cell of the list and was taken out of none. -/
theorem Glob.not_taken {w : W} (hw : Glob L w) {a : Nat} (hput : ∀ n idx, ¬ Put w.history a n idx) :
    a ∉ takenItems w.history := by
  intro hmem
  obtain ⟨e, he, hea⟩ := List.mem_filterMap.mp hmem
  cases e with
  | take u n idx v =>
      cases v with
      | item b =>
          obtain rfl : b = a := by simpa [takenItem] using hea
          exact hput n idx (hw.taken he)
      | empty => cases hea
      | taken => cases hea
  | _ => cases hea

section Insert

variable {h' : List Event} {a n : Nat} {idx : Int} (hpending : Pending ⟨(), g, h⟩ t a)
  (hput : ∀ {b m j}, Put h' b m j ↔ Put h b m j ∨ b = a ∧ m = n ∧ j = idx)

include hpending hput

/-- The item a thread puts in the list has no other place. -/
theorem Glob.putUnique_insert (hw : Glob L ⟨(), g, h⟩) {b m k : Nat} {j i : Int}
    (hm : Put h' b m j) (hk : Put h' b k i) : m = k ∧ j = i := by
  rcases hput.mp hm with hm' | ⟨rfl, rfl, rfl⟩ <;> rcases hput.mp hk with hk' | ⟨hb, rfl, rfl⟩
  · exact hw.putUnique hm' hk'
  · exact absurd (hb ▸ hm') (hpending.put m j)
  · exact absurd hk' (hpending.put k i)
  · exact ⟨rfl, rfl⟩

/-- The items of the other threads are still to be put. -/
theorem Pending.insert (hw : Glob L ⟨(), g, h⟩) (hle : ∀ {e}, e ∈ h → e ∈ h') {u : Tid} (hu : u ≠ t)
    {b : Nat} (hp : Pending ⟨(), g, h⟩ u b) : Pending ⟨(), g', h'⟩ u b := by
  refine ⟨hle hp.call, fun m j hm => ?_⟩
  rcases hput.mp hm with hm | ⟨rfl, rfl, rfl⟩
  · exact hp.put m j hm
  · exact hu (hw.caller hp.call hpending.call)

end Insert

/-- The compare-and-swap on `next` links the thread's node, and with it the item. -/
theorem link_preserved (hw : Glob L ⟨(), g, h⟩) {a ltail n : Nat}
    (hpending : Pending ⟨(), g, h⟩ t a) (hltail : ∃ q, At h ltail q)
    (hown : Private L ⟨(), g, h⟩ t n a) (hlast : (g.nodes ltail).next = none) :
    Preserved L t ⟨(), g, h⟩ (g.setNode ltail { g.nodes ltail with next := some n })
      (.enqNowLinked a ltail n) [.link t n a] := by
  obtain ⟨q, hq⟩ := hltail
  obtain ⟨offset, hnode⟩ : ∃ offset, g.nodes n = newNode L (.item a) offset := hown.node
  set g' := g.setNode ltail { g.nodes ltail with next := some n } with hg'
  have hmem : ltail ∈ chain h := List.mem_of_getElem? hq
  have hne : n ≠ ltail := fun heq => hown.notMem (heq ▸ hmem)
  have hchain : chain (h ++ [.link t n a]) = chain h ++ [n] := by simp [chain_append, linkedNode]
  have hitems : takenItems (h ++ [.link t n a]) = takenItems h := by simp [takenItems, takenItem]
  have hat : ∀ {m k}, At h m k → At (h ++ [.link t n a]) m k :=
    fun hm => hm.mono ⟨[n], hchain.symm⟩
  have hlen : (chain h).length = q + 1 := hw.linked.length_of_next_none hq hlast
  have hcell : ∀ m idx, g'.cell L m idx = g.cell L m idx := by
    intro m idx
    by_cases hm : m = ltail
    · subst hm
      simp [Shared.cell, hg']
    · simp [Shared.cell, hg', hm]
  have hput : ∀ {b m idx}, Put (h ++ [.link t n a]) b m idx
      ↔ Put h b m idx ∨ b = a ∧ m = n ∧ idx = 0 := by
    intro b m idx
    constructor
    · rintro (⟨u, hu⟩ | ⟨rfl, u, hu⟩)
      · exact .inl (.inl ⟨u, by simpa using hu⟩)
      · rcases List.mem_append.mp hu with hu | hu
        · exact .inl (.inr ⟨rfl, u, hu⟩)
        · obtain ⟨-, rfl, rfl⟩ : u = t ∧ m = n ∧ b = a := by simpa using hu
          exact .inr ⟨rfl, rfl, rfl⟩
    · rintro (hm | ⟨rfl, rfl, rfl⟩)
      · exact hm.mono fun he => List.mem_append_left _ he
      · exact .inr ⟨rfl, t, by simp⟩
  have htake : ∀ {u m idx v}, .take u m idx v ∈ h ++ [.link t n a] ↔ .take u m idx v ∈ h := by simp
  have hfirst : ∀ {idx b}, InNode L idx → g.cell L n idx = .item b → idx = 0 ∧ b = a := by
    intro idx b hidx hb
    rw [cell_newNode hnode hidx] at hb
    split at hb
    · exact ⟨‹_›, by simpa using hb.symm⟩
    · cases hb
  refine ⟨{ linked := ?linked, head := ?head, tail := ?tail, used := ?used, alloc := ?alloc,
            owner := ?owner, caller := ?caller, cell := ?cell, put := ?put, putUnique := ?putUnique,
            take := ?take, taken := ?takenPut, takenOnce := ?takenOnce, takenCell := ?takenCell },
    ⟨⟨q, hat hq, by simp [At, hchain, hlen]⟩, hput.mpr (.inr ⟨rfl, rfl, rfl⟩)⟩,
    fun u hu => ⟨List.mem_append_left _, ⟨[n], hchain.symm⟩,
      .insert hpending hput hw (List.mem_append_left _) hu, fun {m b} hp => ?_⟩⟩
  case linked =>
    rw [hchain]
    exact hw.linked.snoc hq hlast hown.notMem (by simp [nextPtr, hg'])
      (by simp [nextPtr, hg', hne, hnode, newNode]) fun m _ hm => by simp [nextPtr, hg', hm]
  case head =>
    exact hw.head.imp fun _ => hat
  case tail =>
    exact hw.tail.imp fun _ => hat
  case used =>
    intro m hm
    rw [hchain] at hm
    rcases List.mem_append.mp hm with hm | hm
    · exact hw.used m hm
    · exact List.mem_singleton.mp hm ▸ hown.status
  case alloc =>
    exact fun {u m} hm => hw.alloc (t := u) (by simpa using hm)
  case owner =>
    exact fun {u v m} hu hv => hw.owner (n := m) (by simpa using hu) (by simpa using hv)
  case caller =>
    exact fun {u v b} hu hv => hw.caller (a := b) (by simpa using hu) (by simpa using hv)
  case cell =>
    intro m idx b hm hidx hb
    rw [hcell] at hb
    rw [hput, hitems]
    rw [hchain] at hm
    rcases List.mem_append.mp hm with hm | hm
    · exact (hw.cell hm hidx hb).imp_left .inl
    · obtain rfl : m = n := List.mem_singleton.mp hm
      obtain ⟨rfl, rfl⟩ := hfirst hidx hb
      exact ⟨.inr ⟨rfl, rfl, rfl⟩, hw.not_taken hpending.put⟩
  case put =>
    intro b m idx hm
    rcases hput.mp hm with hm | ⟨rfl, rfl, rfl⟩
    · obtain ⟨hmem', hidx, ⟨u, hu⟩, hb⟩ := hw.put hm
      exact ⟨by simp [hchain, hmem'], hidx, ⟨u, by simp [hu]⟩, by simpa [hcell] using hb⟩
    · have hidx : InNode L 0 := ⟨le_rfl, by have := L.size_pos; omega⟩
      refine ⟨by simp [hchain], hidx, ⟨t, by simp [hpending.call]⟩, .inl ?_⟩
      rw [hcell, cell_newNode hnode hidx, if_pos rfl]
  case putUnique =>
    exact hw.putUnique_insert hpending hput
  case take =>
    intro u m idx v hm
    obtain ⟨hmem', hidx, hv⟩ := hw.take (htake.mp hm)
    exact ⟨by simp [hchain, hmem'], hidx, (hcell m idx).trans hv⟩
  case takenPut =>
    exact fun hm => hput.mpr (.inl (hw.taken (htake.mp hm)))
  case takenOnce =>
    rw [hitems]
    exact hw.takenOnce
  case takenCell =>
    intro m idx hm hidx hv
    rw [hcell] at hv
    rw [hchain] at hm
    rcases List.mem_append.mp hm with hm | hm
    · obtain ⟨u, v, hu⟩ := hw.takenCell hm hidx hv
      exact ⟨u, v, htake.mpr hu⟩
    · rw [List.mem_singleton.mp hm, cell_newNode hnode hidx] at hv
      split at hv <;> cases hv
  · have hmn : m ≠ n := fun heq => hu (hw.owner (heq ▸ hp.alloc) hown.alloc)
    have hml : m ≠ ltail := fun heq => hp.notMem (heq ▸ hmem)
    exact ⟨by simp [hp.alloc], by simp [hchain, hp.notMem, hmn], hp.status,
      by simpa [hg', hml] using hp.node⟩

/-- The compare-and-swap on a cell puts the item there. -/
theorem fill_preserved (hw : Glob L ⟨(), g, h⟩) {a n : Nat} {idx : Int}
    (hpending : Pending ⟨(), g, h⟩ t a) (hn : ∃ q, At h n q) (hidx : InNode L idx)
    (hempty : g.cell L n idx = .empty) :
    Preserved L t ⟨(), g, h⟩ (g.setCell L n idx (.item a)) (.enqNowCell a) [.fill t a n idx] := by
  obtain ⟨q, hq⟩ := hn
  have hmem : n ∈ chain h := List.mem_of_getElem? hq
  have hchain : chain (h ++ [.fill t a n idx]) = chain h := by simp [chain_append, linkedNode]
  have hitems : takenItems (h ++ [.fill t a n idx]) = takenItems h := by
    simp [takenItems, takenItem]
  have hat : ∀ {m k}, At h m k → At (h ++ [.fill t a n idx]) m k :=
    fun hm => hm.mono (hchain ▸ List.prefix_refl _)
  have hput : ∀ {b m j}, Put (h ++ [.fill t a n idx]) b m j
      ↔ Put h b m j ∨ b = a ∧ m = n ∧ j = idx := by
    intro b m j
    constructor
    · rintro (⟨u, hu⟩ | ⟨rfl, u, hu⟩)
      · rcases List.mem_append.mp hu with hu | hu
        · exact .inl (.inl ⟨u, hu⟩)
        · obtain ⟨-, rfl, rfl, rfl⟩ : u = t ∧ b = a ∧ m = n ∧ j = idx := by simpa using hu
          exact .inr ⟨rfl, rfl, rfl⟩
      · exact .inl (.inr ⟨rfl, u, by simpa using hu⟩)
    · rintro (hm | ⟨rfl, rfl, rfl⟩)
      · exact hm.mono fun he => List.mem_append_left _ he
      · exact .inl ⟨t, by simp⟩
  have htake : ∀ {u m j v}, .take u m j v ∈ h ++ [.fill t a n idx] ↔ .take u m j v ∈ h := by simp
  have hcell : ∀ {m j}, InNode L j → (m = n → j ≠ idx) →
      (g.setCell L n idx (.item a)).cell L m j = g.cell L m j :=
    fun hj hne => Shared.cell_setCell_of_ne _ _ _ hidx hj hne
  -- A cell that has been put in or exchanged is not empty.
  have hbusy : ∀ {m j}, g.cell L m j ≠ .empty → m = n → j ≠ idx := by
    rintro m j hne rfl rfl
    exact hne hempty
  refine ⟨{ linked := ?linked, head := ?head, tail := ?tail, used := ?used, alloc := ?alloc,
            owner := ?owner, caller := ?caller, cell := ?cell, put := ?put, putUnique := ?putUnique,
            take := ?take, taken := ?takenPut, takenOnce := ?takenOnce, takenCell := ?takenCell },
    ⟨n, idx, hput.mpr (.inr ⟨rfl, rfl, rfl⟩)⟩,
    fun u hu => ⟨List.mem_append_left _, hchain ▸ List.prefix_refl _,
      .insert hpending hput hw (List.mem_append_left _) hu, fun {m b} hp => ?_⟩⟩
  case linked =>
    rw [hchain]
    exact hw.linked.congr fun m _ => by simp [nextPtr]
  case head =>
    exact hw.head.imp fun _ => hat
  case tail =>
    exact hw.tail.imp fun _ => hat
  case used =>
    rw [hchain]
    exact hw.used
  case alloc =>
    exact fun {u m} hm => hw.alloc (t := u) (by simpa using hm)
  case owner =>
    exact fun {u v m} hu hv => hw.owner (n := m) (by simpa using hu) (by simpa using hv)
  case caller =>
    exact fun {u v b} hu hv => hw.caller (a := b) (by simpa using hu) (by simpa using hv)
  case cell =>
    intro m j b hm hj hb
    rw [hchain] at hm
    rw [hput, hitems]
    by_cases heq : m = n ∧ j = idx
    · obtain ⟨rfl, rfl⟩ := heq
      obtain rfl : a = b := by simpa using hb
      exact ⟨.inr ⟨rfl, rfl, rfl⟩, hw.not_taken hpending.put⟩
    · rw [hcell hj fun h1 h2 => heq ⟨h1, h2⟩] at hb
      exact (hw.cell hm hj hb).imp_left .inl
  case put =>
    intro b m j hm
    rcases hput.mp hm with hm | ⟨rfl, rfl, rfl⟩
    · obtain ⟨hmem', hj, ⟨u, hu⟩, hb⟩ := hw.put hm
      refine ⟨by rw [hchain]; exact hmem', hj, ⟨u, by simp [hu]⟩, ?_⟩
      rcases hb with hb | ⟨v, hv⟩
      · exact .inl ((hcell hj (hbusy (by simp [hb]))).trans hb)
      · exact .inr ⟨v, by simp [hv]⟩
    · exact ⟨by rw [hchain]; exact hmem, hidx, ⟨t, by simp [hpending.call]⟩, .inl (by simp)⟩
  case putUnique =>
    exact hw.putUnique_insert hpending hput
  case take =>
    intro u m j v hm
    obtain ⟨hmem', hj, hv⟩ := hw.take (htake.mp hm)
    exact ⟨by rw [hchain]; exact hmem', hj, (hcell hj (hbusy (by simp [hv]))).trans hv⟩
  case takenPut =>
    exact fun hm => hput.mpr (.inl (hw.taken (htake.mp hm)))
  case takenOnce =>
    rw [hitems]
    exact hw.takenOnce
  case takenCell =>
    intro m j hm hj hv
    rw [hchain] at hm
    have hne : m = n → j ≠ idx := by
      rintro rfl rfl
      simp at hv
    obtain ⟨u, v, hu⟩ := hw.takenCell hm hj ((hcell hj hne).symm.trans hv)
    exact ⟨u, v, htake.mpr hu⟩
  · have hmn : m ≠ n := fun heq => hp.notMem (heq ▸ hmem)
    exact ⟨by simp [hp.alloc], by rw [hchain]; exact hp.notMem, hp.status,
      by simpa [hmn] using hp.node⟩

/-- The exchange takes out what the cell holds. -/
theorem take_preserved (hw : Glob L ⟨(), g, h⟩) {n : Nat} {idx : Int} {v : Slot}
    (hn : ∃ q, At h n q) (hidx : InNode L idx) (hv : g.cell L n idx = v)
    (hl : Rely L t ⟨(), g, h⟩ ⟨(), g.setCell L n idx .taken, h ++ [.take t n idx v]⟩ →
      Loc L ⟨(), g.setCell L n idx .taken, h ++ [.take t n idx v]⟩ t l) :
    Preserved L t ⟨(), g, h⟩ (g.setCell L n idx .taken) l [.take t n idx v] := by
  obtain ⟨q, hq⟩ := hn
  have hmem : n ∈ chain h := List.mem_of_getElem? hq
  have hchain : chain (h ++ [.take t n idx v]) = chain h := by simp [chain_append, linkedNode]
  have hat : ∀ {m k}, At h m k → At (h ++ [.take t n idx v]) m k :=
    fun hm => hm.mono (hchain ▸ List.prefix_refl _)
  have hput : ∀ {b m j}, Put (h ++ [.take t n idx v]) b m j ↔ Put h b m j := by simp [Put]
  have hcell : ∀ {m j}, InNode L j → (m = n → j ≠ idx) →
      (g.setCell L n idx .taken).cell L m j = g.cell L m j :=
    fun hj hne => Shared.cell_setCell_of_ne _ _ _ hidx hj hne
  have hitems :
      ∀ {b}, b ∈ takenItems (h ++ [.take t n idx v]) ↔ b ∈ takenItems h ∨ v = .item b := by
    intro b
    rw [takenItems_append, List.mem_append]
    cases v <;> simp [takenItems, takenItem, eq_comm]
  have htaken : ∀ {u m j w}, .take u m j w ∈ h ++ [.take t n idx v] →
      .take u m j w ∈ h ∨ m = n ∧ j = idx ∧ w = v := by
    intro u m j w hm
    rcases List.mem_append.mp hm with hm | hm
    · exact .inl hm
    · obtain ⟨-, rfl, rfl, rfl⟩ : u = t ∧ m = n ∧ j = idx ∧ w = v := by simpa using hm
      exact .inr ⟨rfl, rfl, rfl⟩
  have hrely : ∀ u, Rely L u ⟨(), g, h⟩ ⟨(), g.setCell L n idx .taken, h ++ [.take t n idx v]⟩ := by
    refine fun u => ⟨fun he => List.mem_append_left _ he, hchain ▸ List.prefix_refl _,
      fun hp => ⟨by simp [hp.call], fun m j hm => hp.put m j (hput.mp hm)⟩, fun {m b} hp => ?_⟩
    have hmn : m ≠ n := fun heq => hp.notMem (heq ▸ hmem)
    exact ⟨by simp [hp.alloc], by rw [hchain]; exact hp.notMem, hp.status,
      by simpa [hmn] using hp.node⟩
  refine ⟨{ linked := ?linked, head := ?head, tail := ?tail, used := ?used, alloc := ?alloc,
            owner := ?owner, caller := ?caller, cell := ?cell, put := ?put, putUnique := ?putUnique,
            take := ?take, taken := ?takenPut, takenOnce := ?takenOnce, takenCell := ?takenCell },
    hl (hrely t), fun u _ => hrely u⟩
  case linked =>
    rw [hchain]
    exact hw.linked.congr fun m _ => by simp [nextPtr]
  case head =>
    exact hw.head.imp fun _ => hat
  case tail =>
    exact hw.tail.imp fun _ => hat
  case used =>
    rw [hchain]
    exact hw.used
  case alloc =>
    exact fun {u m} hm => hw.alloc (t := u) (by simpa using hm)
  case owner =>
    exact fun {u v m} hu hv => hw.owner (n := m) (by simpa using hu) (by simpa using hv)
  case caller =>
    exact fun {u v b} hu hv => hw.caller (a := b) (by simpa using hu) (by simpa using hv)
  case cell =>
    intro m j b hm hj hb
    rw [hchain] at hm
    have hne : m = n → j ≠ idx := by
      rintro rfl rfl
      simp at hb
    rw [hcell hj hne] at hb
    obtain ⟨hbput, hbtaken⟩ := hw.cell hm hj hb
    refine ⟨hput.mpr hbput, fun hmem' => (hitems.mp hmem').elim hbtaken fun hvb => ?_⟩
    obtain ⟨h1, h2⟩ := hw.putUnique hbput (hw.cell hmem hidx (hv.trans hvb)).1
    exact hne h1 h2
  case put =>
    intro b m j hm
    obtain ⟨hmem', hj, ⟨u, hu⟩, hb⟩ := hw.put (hput.mp hm)
    refine ⟨by rw [hchain]; exact hmem', hj, ⟨u, by simp [hu]⟩, ?_⟩
    rcases hb with hb | ⟨w, hw'⟩
    · by_cases heq : m = n ∧ j = idx
      · obtain ⟨rfl, rfl⟩ := heq
        exact .inr ⟨t, by simp [← hv, hb]⟩
      · exact .inl ((hcell hj fun h1 h2 => heq ⟨h1, h2⟩).trans hb)
    · exact .inr ⟨w, by simp [hw']⟩
  case putUnique =>
    exact fun hn hm => hw.putUnique (hput.mp hn) (hput.mp hm)
  case take =>
    intro u m j w hm
    rw [hchain]
    by_cases heq : m = n ∧ j = idx
    · obtain ⟨rfl, rfl⟩ := heq
      exact ⟨hmem, hidx, by simp⟩
    · rcases htaken hm with hm | ⟨h1, h2, -⟩
      · obtain ⟨hmem', hj, hw'⟩ := hw.take hm
        exact ⟨hmem', hj, (hcell hj fun h1 h2 => heq ⟨h1, h2⟩).trans hw'⟩
      · exact absurd ⟨h1, h2⟩ heq
  case takenPut =>
    intro u m j b hm
    rcases htaken hm with hm | ⟨rfl, rfl, hb⟩
    · exact hput.mpr (hw.taken hm)
    · exact hput.mpr (hw.cell hmem hidx (hv.trans hb.symm)).1
  case takenOnce =>
    rw [takenItems_append, List.nodup_append]
    refine ⟨hw.takenOnce, ?_, fun b hb c hc hbc => ?_⟩
    · cases v <;> simp [takenItems, takenItem, List.filterMap_cons]
    · have hvc : v = .item c := by
        cases v <;> simp_all [takenItems, takenItem]
      exact (hw.cell hmem hidx (hv.trans hvc)).2 (hbc ▸ hb)
  case takenCell =>
    intro m j hm hj hw'
    rw [hchain] at hm
    by_cases heq : m = n ∧ j = idx
    · obtain ⟨rfl, rfl⟩ := heq
      exact ⟨t, v, by simp⟩
    · rw [hcell hj fun h1 h2 => heq ⟨h1, h2⟩] at hw'
      obtain ⟨u, w, hu⟩ := hw.takenCell hm hj hw'
      exact ⟨u, w, by simp [hu]⟩

theorem Glob.linking (hw : Glob L ⟨(), g, h⟩) {n m : Nat} (hn : ∃ q, At h n q)
    (hnext : (g.nodes n).next = some m) : Linking ⟨(), g, h⟩ n m := by
  obtain ⟨q, hq⟩ := hn
  exact ⟨q, hq, (hw.linked.next_eq hq).symm.trans hnext⟩

theorem Linking.snd {w : W} {n m : Nat} (hl : Linking w n m) : ∃ q, At w.history m q := by
  obtain ⟨q, -, hq⟩ := hl
  exact ⟨q + 1, hq⟩

/-- A compare-and-swap on `tail`. -/
theorem casTail_preserved (hw : Glob L ⟨(), g, h⟩) {n m : Nat} (hl : Linking ⟨(), g, h⟩ n m)
    (hloc : ∀ g', Rely L t ⟨(), g, h⟩ ⟨(), g', h ++ []⟩ → Loc L ⟨(), g', h ++ []⟩ t l) :
    Preserved L t ⟨(), g, h⟩ (if g.tail = n then { g with tail := m } else g) l [] := by
  split
  · exact preserved_of_nodes hw rfl (fun _ hs => hs) hw.head hl.snd (by simp) (hloc _)
  · exact preserved_of_eq hw rfl rfl rfl rfl (by simp) (hloc _)

theorem loc_afterScan {w : W} {scan : Option HazardPointers.Scan} : Loc L w t (afterScan scan) := by
  cases scan <;> trivial

/-! One lemma for each control state with more than one way on. -/

section States

variable {maxThreads : Nat} {i : Input} (hw : Glob L ⟨(), g, h⟩)

include hw

theorem idle_preserves (hfresh : ∀ a, i.op = some (.enqueue a) → ∀ u, .call u (.enqueue a) ∉ h) :
    Leads (Preserved L t ⟨(), g, h⟩) (step L maxThreads t i g .idle) := by
  refine .map fun op hop => ?_
  cases op with
  | enqueue a => exact call_preserved hw (hfresh a hop)
  | dequeue => exact preserved_of_eq hw rfl rfl rfl rfl (by simp [Event.Quiet]) fun _ => trivial

theorem enqProtect_preserves {a : Nat} {n : Option Nat}
    (hl : Loc L ⟨(), g, h⟩ t (.enqProtect a n)) :
    Leads (Preserved L t ⟨(), g, h⟩) (step L maxThreads t i g (.enqProtect a n)) := by
  refine .ite (fun _ => .into ?_) fun _ => .into ?_
  · exact preserved_of_eq hw rfl rfl rfl rfl (by simp) fun hr => ⟨hr.pending hl, hr.at hw.tail⟩
  · exact preserved_of_eq hw rfl rfl rfl rfl (by simp) fun hr => hr.pending hl

theorem enqFetchAdd_preserves {a ltail : Nat}
    (hl : Loc L ⟨(), g, h⟩ t (.enqFetchAdd a ltail)) :
    Leads (Preserved L t ⟨(), g, h⟩) (step L maxThreads t i g (.enqFetchAdd a ltail)) := by
  refine .ite (fun _ => .into ?_) fun hidx => .into ?_
  · exact preserved_of_counter hw hl.2 rfl rfl (by simp) fun hr =>
      hr.loc (l := .enqCheckTail a ltail) hl
  · exact preserved_of_counter hw hl.2 rfl rfl (by simp) fun hr =>
      ⟨hr.pending hl.1, hr.at hl.2, by omega⟩

theorem enqCheckTail_preserves {a ltail : Nat}
    (hl : Loc L ⟨(), g, h⟩ t (.enqCheckTail a ltail)) :
    Leads (Preserved L t ⟨(), g, h⟩) (step L maxThreads t i g (.enqCheckTail a ltail)) := by
  refine .ite (fun _ => .into ?_) fun _ => .into ?_
  · exact preserved_of_eq hw rfl rfl rfl rfl (by simp) fun hr => hr.pending hl.1
  · exact preserved_of_eq hw rfl rfl rfl rfl (by simp) fun hr =>
      hr.loc (l := .enqLoadNext a ltail) hl

theorem enqLoadNext_preserves {a ltail : Nat}
    (hl : Loc L ⟨(), g, h⟩ t (.enqLoadNext a ltail)) :
    Leads (Preserved L t ⟨(), g, h⟩) (step L maxThreads t i g (.enqLoadNext a ltail)) := by
  simp only [step]
  split
  · exact .into <| preserved_of_eq hw rfl rfl rfl rfl (by simp) fun hr =>
      hr.loc (l := .enqNewNode a ltail) hl
  · rename_i lnext hnext
    exact .into <| preserved_of_eq hw rfl rfl rfl rfl (by simp) fun hr =>
      ⟨hr.pending hl.1, hr.linking (hw.linking hl.2 hnext)⟩

theorem enqCasNext_preserves {a ltail n : Nat}
    (hl : Loc L ⟨(), g, h⟩ t (.enqCasNext a ltail n)) :
    Leads (Preserved L t ⟨(), g, h⟩) (step L maxThreads t i g (.enqCasNext a ltail n)) := by
  refine .ite (fun hnext => .into ?_) fun _ => .into ?_
  · exact link_preserved hw hl.1 hl.2.1 hl.2.2 hnext
  · exact preserved_of_eq hw rfl rfl rfl rfl (by simp) fun hr => hr.pending hl.1

theorem enqCasCell_preserves {a ltail : Nat} {idx : Int}
    (hl : Loc L ⟨(), g, h⟩ t (.enqCasCell a ltail idx)) :
    Leads (Preserved L t ⟨(), g, h⟩) (step L maxThreads t i g (.enqCasCell a ltail idx)) := by
  obtain ⟨hpending, hltail, hidx⟩ := hl
  refine .ite (fun _ => .nowhere) fun h0 => .ite (fun hempty => .into ?_) fun _ => .into ?_
  · exact fill_preserved hw hpending hltail ⟨Int.not_lt.mp h0, hidx⟩ hempty
  · exact preserved_of_eq hw rfl rfl rfl rfl (by simp) fun hr => hr.pending hpending

theorem deqProtect_preserves {n : Option Nat} :
    Leads (Preserved L t ⟨(), g, h⟩) (step L maxThreads t i g (.deqProtect n)) := by
  refine .ite (fun _ => .into ?_) fun _ => .into ?_
  · exact preserved_of_eq hw rfl rfl rfl rfl (by simp) fun hr => hr.at hw.head
  · exact preserved_of_eq hw rfl rfl rfl rfl (by simp) fun _ => trivial

theorem deqFetchAdd_preserves {lhead : Nat} (hl : Loc L ⟨(), g, h⟩ t (.deqFetchAdd lhead)) :
    Leads (Preserved L t ⟨(), g, h⟩) (step L maxThreads t i g (.deqFetchAdd lhead)) := by
  refine .ite (fun _ => .into ?_) fun hidx => .into ?_
  · exact preserved_of_counter hw hl rfl rfl (by simp) fun hr => hr.at hl
  · exact preserved_of_counter hw hl rfl rfl (by simp [Event.Quiet]) fun hr =>
      ⟨hr.at hl, by omega⟩

theorem deqLoadNext_preserves {lhead : Nat} (hl : Loc L ⟨(), g, h⟩ t (.deqLoadNext lhead)) :
    Leads (Preserved L t ⟨(), g, h⟩) (step L maxThreads t i g (.deqLoadNext lhead)) := by
  simp only [step]
  split
  · exact .into <| preserved_of_eq hw rfl rfl rfl rfl (by simp) fun _ a ha => by cases ha
  · rename_i lnext hnext
    exact .into <| preserved_of_eq hw rfl rfl rfl rfl (by simp) fun hr =>
      hr.linking (hw.linking hl hnext)

theorem deqCasHead_preserves {lhead lnext : Nat}
    (hl : Loc L ⟨(), g, h⟩ t (.deqCasHead lhead lnext)) :
    Leads (Preserved L t ⟨(), g, h⟩) (step L maxThreads t i g (.deqCasHead lhead lnext)) := by
  refine .ite (fun _ => .into ?_) fun _ => .into ?_
  · exact preserved_of_nodes hw rfl (fun _ hs => hs) hl.snd hw.tail (by simp) fun _ => trivial
  · exact preserved_of_eq hw rfl rfl rfl rfl (by simp) fun _ => trivial

theorem deqScan_preserves {scan : HazardPointers.Scan} :
    Leads (Preserved L t ⟨(), g, h⟩) (step L maxThreads t i g (.deqScan scan)) := by
  refine .into ?_
  cases (HazardPointers.scanStep maxThreads t g.hp scan).2.2 with
  | none => exact preserved_of_eq hw rfl rfl rfl rfl (by simp) fun _ => loc_afterScan
  | some obj =>
      refine preserved_of_nodes hw rfl (fun n hn => ?_) hw.head hw.tail (by simp)
        fun _ => loc_afterScan
      by_cases hobj : n = obj
      · subst hobj
        simp
      · simpa [hobj] using hn

theorem deqLoadCell_preserves {lhead : Nat} {idx : Int}
    (hl : Loc L ⟨(), g, h⟩ t (.deqLoadCell lhead idx)) :
    Leads (Preserved L t ⟨(), g, h⟩) (step L maxThreads t i g (.deqLoadCell lhead idx)) := by
  refine .ite (fun _ => .nowhere) fun h0 => ?_
  have hidx : InNode L idx := ⟨Int.not_lt.mp h0, hl.2⟩
  refine .ite (fun _ => .into ?_) fun _ => .into ?_ <;>
    exact preserved_of_eq hw rfl rfl rfl rfl (by simp) fun hr => ⟨hr.at hl.1, hidx⟩

theorem deqExchange_preserves {lhead : Nat} {idx : Int}
    (hl : Loc L ⟨(), g, h⟩ t (.deqExchange lhead idx)) :
    Leads (Preserved L t ⟨(), g, h⟩) (step L maxThreads t i g (.deqExchange lhead idx)) := by
  refine .ite (fun _ => .into ?_) fun _ => .into ?_
  · exact take_preserved hw hl.1 hl.2 rfl fun hr => ⟨hr.at hl.1, hl.2⟩
  · exact take_preserved hw hl.1 hl.2 rfl fun _ a _ => ⟨lhead, idx, by simp⟩

theorem deqCasEnqidx_preserves {lhead : Nat} {idx enqidx : Int}
    (hl : Loc L ⟨(), g, h⟩ t (.deqCasEnqidx lhead idx enqidx)) :
    Leads (Preserved L t ⟨(), g, h⟩)
      (step L maxThreads t i g (.deqCasEnqidx lhead idx enqidx)) := by
  refine .into ?_
  split
  · exact preserved_of_counter hw hl.1 rfl rfl (by simp) fun _ a ha => by cases ha
  · exact preserved_of_eq hw rfl rfl rfl rfl (by simp) fun _ a ha => by cases ha

end States

/-- **Every step keeps the cells' invariant** and stays within what the other threads rely on. -/
theorem step_preserves {maxThreads : Nat} {i : Input} {l' : Local}
    (hfresh : ∀ a, l = .idle → i.op = some (.enqueue a) → ∀ u, .call u (.enqueue a) ∉ h)
    (hw : Glob L ⟨(), g, h⟩) (hl : Loc L ⟨(), g, h⟩ t l)
    (hstep : step L maxThreads t i g l = some (g', l', es)) :
    Preserved L t ⟨(), g, h⟩ g' l' es := by
  suffices hleads : Leads (Preserved L t ⟨(), g, h⟩) (step L maxThreads t i g l) from
    hleads.of_some hstep
  cases l with
  | idle => exact idle_preserves hw fun a => hfresh a rfl
  | enqProtect a n => exact enqProtect_preserves hw hl
  | enqPublish a ret =>
      exact .into <| preserved_of_eq hw rfl rfl rfl rfl (by simp) fun hr => hr.pending hl
  | enqFetchAdd a ltail => exact enqFetchAdd_preserves hw hl
  | enqCheckTail a ltail => exact enqCheckTail_preserves hw hl
  | enqLoadNext a ltail => exact enqLoadNext_preserves hw hl
  | enqHelpTail a ltail lnext =>
      exact .into <| casTail_preserved hw hl.2 fun _ hr => hr.pending hl.1
  | enqNewNode a ltail =>
      exact .ite (fun hfree => .into <| alloc_preserved hw hfree hl.1 hl.2) fun _ => .nowhere
  | enqCasNext a ltail n => exact enqCasNext_preserves hw hl
  | enqNowLinked a ltail n =>
      exact .into <| preserved_of_eq hw rfl rfl rfl rfl (by simp) fun hr =>
        hr.loc (l := .enqStampLinked a ltail n i.ts) hl
  | enqStampLinked a ltail n ts =>
      exact .into <| preserved_of_eq hw rfl rfl rfl rfl (by simp [Event.Quiet]) fun hr =>
        hr.loc (l := .enqCasTail a ltail n) hl
  | enqCasTail a ltail n =>
      exact .into <| casTail_preserved hw hl.1 fun _ hr => ⟨n, 0, hl.2.mono hr.history⟩
  | enqCasCell a ltail idx => exact enqCasCell_preserves hw hl
  | enqNowCell a =>
      exact .into <| preserved_of_eq hw rfl rfl rfl rfl (by simp) fun hr =>
        hr.loc (l := .enqStampCell a i.ts) hl
  | enqStampCell a ts =>
      exact .into <| preserved_of_eq hw rfl rfl rfl rfl (by simp [Event.Quiet]) fun hr =>
        hr.loc (l := .enqClear a) hl
  | enqClear a =>
      exact .into <| preserved_of_eq hw rfl rfl rfl rfl (by simp [Event.Quiet]) fun _ => trivial
  | deqProtect n => exact deqProtect_preserves hw
  | deqPublish ret =>
      exact .into <| preserved_of_eq hw rfl rfl rfl rfl (by simp) fun _ => trivial
  | deqFetchAdd lhead => exact deqFetchAdd_preserves hw hl
  | deqLoadNext lhead => exact deqLoadNext_preserves hw hl
  | deqCasHead lhead lnext => exact deqCasHead_preserves hw hl
  | deqRetire lhead =>
      exact .into <| preserved_of_eq hw rfl rfl rfl rfl (by simp) fun _ => loc_afterScan
  | deqScan scan => exact deqScan_preserves hw
  | deqLoadCell lhead idx => exact deqLoadCell_preserves hw hl
  | deqLoadEnqidx lhead idx | deqSpin lhead idx n =>
      refine .ite (fun _ => .into ?_) fun _ => .into ?_ <;>
        exact preserved_of_eq hw rfl rfl rfl rfl (by simp) fun hr =>
          hr.loc (l := .deqExchange lhead idx) hl
  | deqReloadEnqidx lhead idx | deqCheckNext lhead idx enqidx =>
      refine .ite (fun _ => .into ?_) fun _ => .into ?_
      · exact preserved_of_eq hw rfl rfl rfl rfl (by simp) fun hr =>
          hr.loc (l := .deqExchange lhead idx) hl
      · exact preserved_of_eq hw rfl rfl rfl rfl (by simp) fun hr => hr.at hl.1
  | deqExchange lhead idx => exact deqExchange_preserves hw hl
  | deqNowLin v =>
      exact .into <| preserved_of_eq hw rfl rfl rfl rfl (by simp) fun hr => hr.took hl
  | deqStampLin v ts =>
      exact .into <| preserved_of_eq hw rfl rfl rfl rfl (by simp [Event.Quiet]) fun hr => hr.took hl
  | deqCasEnqidx lhead idx enqidx => exact deqCasEnqidx_preserves hw hl
  | deqClear v =>
      exact .into <| preserved_of_eq hw rfl rfl rfl rfl (by simp [Event.Quiet]) fun _ => trivial

end Steps

theorem glob_init {L : Layout} {maxThreads : Nat} :
    Glob L ⟨(), (program L maxThreads).start, []⟩ where
  linked := Linked.singleton rfl
  head := ⟨0, rfl⟩
  tail := ⟨0, rfl⟩
  used n hn := by
    obtain rfl : n = sentinelNode := by simpa [chain] using hn
    simp [program]
  alloc h := by simp at h
  owner h := by simp at h
  caller h := by simp at h
  cell {n idx a} _ hidx ha := by
    have hnode : (program L maxThreads).start.cell L n idx = .empty := by
      simp [program, Shared.cell, newNode]
    rw [hnode] at ha
    cases ha
  put h := by simp [Put] at h
  putUnique h := by simp [Put] at h
  take h := by simp at h
  taken h := by simp at h
  takenOnce := List.nodup_nil
  takenCell {n idx} _ hidx hv := by
    have hnode : (program L maxThreads).start.cell L n idx = .empty := by
      simp [program, Shared.cell, newNode]
    rw [hnode] at hv
    cases hv

/-- No item is enqueued twice. -/
def FreshItem (c : Config Shared Local Event) (t : Tid) (i : Input) : Prop :=
  ∀ a, c.locals t = .idle → i.op = some (.enqueue a) → ∀ u, .call u (.enqueue a) ∉ c.history

/-- The cells' invariant as a rely-guarantee proof. -/
def cellInvariant (L : Layout) (maxThreads : Nat) :
    RelyGuarantee (program L maxThreads) FreshItem Unit where
  glob := Glob L
  loc := Loc L
  rely := Rely L
  init := ⟨(), glob_init, fun _ => trivial⟩
  stable := Rely.loc
  step hok hw hl hstep := ⟨(), step_preserves hok hw (hl _) hstep⟩

theorem Reach.cells {L : Layout} {maxThreads : Nat} {c : Config Shared Local Event}
    (h : (program L maxThreads).Reach FreshItem c) :
    Glob L ⟨(), c.shared, c.history⟩ ∧ ∀ t, Loc L ⟨(), c.shared, c.history⟩ t (c.locals t) := by
  obtain ⟨_, hc⟩ := (cellInvariant L maxThreads).holds h
  exact hc

end QueueFairness.FAAArrayQueue
