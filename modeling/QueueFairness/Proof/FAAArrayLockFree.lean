import QueueFairness.Lib.LockFree
import QueueFairness.Proof.FAAArrayFifo
import QueueFairness.Proof.FAAArrayIndices
import QueueFairness.Proof.HazardScan

/-!
# The array queue is lock-free

A thread goes round its loop again only after it has drawn an index, or because `head` or `tail` was
moved. A node has only so many indices, `head` and `tail` pass it once, and a node is added only by
a call that takes effect by that. So the threads share a budget: the indices left at `head` and
`tail`, the nodes behind them, and a node for every call that may still add one. The thread that
moves `head` pays from it for the scan of its retired list, which gets longer by one node then.
-/

namespace QueueFairness.FAAArrayQueue

open Interleaving AtomicQueue LinkedList HazardPointers

/-! ### The budget -/

/-- What the threads can still use up. -/
structure Gauge where
  tailNodes : Nat
  tailCells : Nat
  headNodes : Nat
  headCells : Nat

/-- There is no more of anything. -/
structure Gauge.Le (G' G : Gauge) : Prop where
  tailNodes : G'.tailNodes ≤ G.tailNodes
  tailCells : G'.tailCells ≤ G.tailCells
  headNodes : G'.headNodes ≤ G.headNodes
  headCells : G'.headCells ≤ G.headCells

/-- What an index costs an enqueue that finds its cell taken. -/
def enqRound : Nat := 5

/-- What an index costs a dequeue that finds its cell empty, most of it spent waiting for the
item. -/
def deqRound : Nat := 4 * 1024 + 13

/-- What a node costs, of which each index costs `round`. -/
def nodeCost (L : Layout) (round : Nat) : Nat := round * L.size + 9

/-- What all that is left costs a thread that has `kept` nodes on its retired list. -/
def Gauge.cost (L : Layout) (maxThreads kept : Nat) (G : Gauge) : Nat :=
  G.tailNodes * nodeCost L enqRound + enqRound * G.tailCells
    + (G.headNodes * (nodeCost L deqRound + (kept + G.headNodes) * perObject maxThreads)
      + deqRound * G.headCells)

section Cost

variable {L : Layout} {maxThreads kept kept' : Nat} {G G' : Gauge}

variable (L maxThreads) in
theorem Gauge.headCost_le (hle : G'.headNodes ≤ G.headNodes) (hkept : kept' ≤ kept) :
    G'.headNodes * (nodeCost L deqRound + (kept' + G'.headNodes) * perObject maxThreads)
      ≤ G.headNodes * (nodeCost L deqRound + (kept + G.headNodes) * perObject maxThreads) :=
  Nat.mul_le_mul hle (Nat.add_le_add_left
    (Nat.mul_le_mul_right _ (Nat.add_le_add hkept hle)) _)

variable (L maxThreads) in
theorem Gauge.Le.cost (hle : G'.Le G) (hkept : kept' ≤ kept) :
    G'.cost L maxThreads kept' ≤ G.cost L maxThreads kept :=
  Nat.add_le_add
    (Nat.add_le_add (Nat.mul_le_mul_right _ hle.tailNodes) (Nat.mul_le_mul_left _ hle.tailCells))
    (Nat.add_le_add (Gauge.headCost_le L maxThreads hle.headNodes hkept)
      (Nat.mul_le_mul_left _ hle.headCells))

variable (L maxThreads kept) in
/-- An index less at `tail`. -/
theorem Gauge.Le.cost_tailCell (hle : G'.Le G) (hcell : G'.tailCells < G.tailCells) :
    G'.cost L maxThreads kept + enqRound ≤ G.cost L maxThreads kept := by
  have hcells : enqRound * (G'.tailCells + 1) ≤ enqRound * G.tailCells :=
    Nat.mul_le_mul_left _ hcell
  have hnodes : G'.tailNodes * nodeCost L enqRound ≤ G.tailNodes * nodeCost L enqRound :=
    Nat.mul_le_mul_right _ hle.tailNodes
  have hhead := Gauge.headCost_le L maxThreads hle.headNodes
    (Nat.le_refl kept)
  have hheadCells := Nat.mul_le_mul_left deqRound hle.headCells
  rw [Nat.mul_succ] at hcells
  unfold Gauge.cost
  omega

variable (L maxThreads kept) in
/-- An index less at `head`. -/
theorem Gauge.Le.cost_headCell (hle : G'.Le G) (hcell : G'.headCells < G.headCells) :
    G'.cost L maxThreads kept + deqRound ≤ G.cost L maxThreads kept := by
  have hcells : deqRound * (G'.headCells + 1) ≤ deqRound * G.headCells :=
    Nat.mul_le_mul_left _ hcell
  have hnodes : G'.tailNodes * nodeCost L enqRound ≤ G.tailNodes * nodeCost L enqRound :=
    Nat.mul_le_mul_right _ hle.tailNodes
  have hhead := Gauge.headCost_le L maxThreads hle.headNodes
    (Nat.le_refl kept)
  have htailCells := Nat.mul_le_mul_left enqRound hle.tailCells
  rw [Nat.mul_succ] at hcells
  unfold Gauge.cost
  omega

/-- `tail` is moved: the node it comes to may be a fresh one. -/
theorem Gauge.cost_tailNode (hnode : G'.tailNodes < G.tailNodes) (hcells : G'.tailCells ≤ L.size)
    (hhead : G'.headNodes ≤ G.headNodes) (hheadCells : G'.headCells ≤ G.headCells)
    (hkept : kept' ≤ kept) : G'.cost L maxThreads kept' + 9 ≤ G.cost L maxThreads kept := by
  have hnodes : (G'.tailNodes + 1) * nodeCost L enqRound ≤ G.tailNodes * nodeCost L enqRound :=
    Nat.mul_le_mul_right _ hnode
  have hnew : enqRound * G'.tailCells ≤ enqRound * L.size := Nat.mul_le_mul_left _ hcells
  have hheadCost := Gauge.headCost_le L maxThreads hhead hkept
  have hcost := Nat.mul_le_mul_left deqRound hheadCells
  rw [Nat.succ_mul] at hnodes
  have hone : nodeCost L enqRound = enqRound * L.size + 9 := rfl
  unfold Gauge.cost
  omega

/-- `head` is moved, and the node it leaves goes on the retired list, which is scanned. -/
theorem Gauge.cost_headNode (hnode : G'.headNodes < G.headNodes) (hcells : G'.headCells ≤ L.size)
    (htail : G'.tailNodes ≤ G.tailNodes) (htailCells : G'.tailCells ≤ G.tailCells)
    (hkept : kept' ≤ kept + 1) :
    G'.cost L maxThreads kept' + (kept + 1) * perObject maxThreads + 9
      ≤ G.cost L maxThreads kept := by
  have hnodes : G'.headNodes
          * (nodeCost L deqRound + (kept' + G'.headNodes) * perObject maxThreads)
        + (nodeCost L deqRound + (kept + 1) * perObject maxThreads)
      ≤ G.headNodes * (nodeCost L deqRound + (kept + G.headNodes) * perObject maxThreads) := by
    have hlist : kept' + G'.headNodes ≤ kept + G.headNodes := by omega
    calc G'.headNodes * (nodeCost L deqRound + (kept' + G'.headNodes) * perObject maxThreads)
          + (nodeCost L deqRound + (kept + 1) * perObject maxThreads)
        ≤ G'.headNodes * (nodeCost L deqRound + (kept + G.headNodes) * perObject maxThreads)
          + (nodeCost L deqRound + (kept + G.headNodes) * perObject maxThreads) :=
          Nat.add_le_add
            (Nat.mul_le_mul_left _ (Nat.add_le_add_left (Nat.mul_le_mul_right _ hlist) _))
            (Nat.add_le_add_left (Nat.mul_le_mul_right _ (by omega)) _)
      _ = (G'.headNodes + 1)
            * (nodeCost L deqRound + (kept + G.headNodes) * perObject maxThreads) :=
          (Nat.succ_mul ..).symm
      _ ≤ G.headNodes * (nodeCost L deqRound + (kept + G.headNodes) * perObject maxThreads) :=
          Nat.mul_le_mul_right _ hnode
  have hnew : deqRound * G'.headCells ≤ deqRound * L.size := Nat.mul_le_mul_left _ hcells
  have htailNodes : G'.tailNodes * nodeCost L enqRound ≤ G.tailNodes * nodeCost L enqRound :=
    Nat.mul_le_mul_right _ htail
  have hcost := Nat.mul_le_mul_left enqRound htailCells
  have hone : nodeCost L deqRound = deqRound * L.size + 9 := rfl
  unfold Gauge.cost
  omega

end Cost

/-! ### What is left of a list -/

/-- The nodes behind `n`. -/
def behind (h : List Event) (n : Nat) : Nat := (chain h).length - ((chain h).idxOf n + 1)

/-- The indices of a node that are left when its counter stands at `idx`. -/
def cellsLeft (L : Layout) (idx : Int) : Nat := ((L.size : Int) - idx).toNat

/-- What is left of the list, to which `more` nodes may still be added. -/
def gauge (L : Layout) (more : Nat) (g : Shared) (h : List Event) : Gauge where
  tailNodes := behind h g.tail + more
  tailCells := cellsLeft L (g.nodes g.tail).enqidx
  headNodes := behind h g.head + more
  headCells := cellsLeft L (g.nodes g.head).deqidx

section Left

variable {L : Layout} {more : Nat} {t : Tid} {g g' : Shared} {h h' : List Event} {n : Nat}
  {idx idx' : Int}

theorem cellsLeft_mono (hle : idx ≤ idx') : cellsLeft L idx' ≤ cellsLeft L idx := by
  unfold cellsLeft
  omega

theorem cellsLeft_le (h0 : 0 ≤ idx) : cellsLeft L idx ≤ L.size := by
  unfold cellsLeft
  omega

theorem cellsLeft_succ (hlt : idx < L.size) : cellsLeft L (idx + 1) < cellsLeft L idx := by
  unfold cellsLeft
  omega

theorem behind_eq (hw : Glob L ⟨(), g, h⟩) {q : Nat} (hn : At h n q) :
    behind h n = (chain h).length - (q + 1) := by
  obtain ⟨hlt, hget⟩ := List.getElem?_eq_some_iff.mp hn
  have hidx : (chain h).idxOf n = q := by
    rw [← hget]
    exact hw.linked.nodup.idxOf_getElem q hlt
  rw [behind, hidx]

/-- A step that moves neither `head` nor `tail` and adds no node. -/
theorem gauge_still (hw : Glob L ⟨(), g, h⟩) (hr : CountRely t ⟨(), g, h⟩ ⟨(), g', h'⟩)
    (hchain : chain h' = chain h) (hhead : g'.head = g.head) (htail : g'.tail = g.tail) :
    (gauge L more g' h').Le (gauge L more g h) := by
  obtain ⟨p, hp⟩ := hw.head
  obtain ⟨q, hq⟩ := hw.tail
  refine ⟨?_, cellsLeft_mono ?_, ?_, cellsLeft_mono ?_⟩
  · simp only [gauge, behind, hchain, htail, Nat.le_refl]
  · rw [htail]
    exact hr.enq _ hq.mem
  · simp only [gauge, behind, hchain, hhead, Nat.le_refl]
  · rw [hhead]
    exact hr.deq _ hp.mem

/-- A step that adds a node, which was expected. -/
theorem gauge_link (hw : Glob L ⟨(), g, h⟩) (hw' : Glob L ⟨(), g', h'⟩)
    (hr : CountRely t ⟨(), g, h⟩ ⟨(), g', h'⟩) (hchain : chain h' = chain h ++ [n])
    (hhead : g'.head = g.head) (htail : g'.tail = g.tail) :
    (gauge L more g' h').Le (gauge L (more + 1) g h) := by
  obtain ⟨p, hp⟩ := hw.head
  obtain ⟨q, hq⟩ := hw.tail
  have hlength : (chain h').length = (chain h).length + 1 := by
    rw [hchain, List.length_append, List.length_singleton]
  have hbehind : ∀ {m k}, At h m k → behind h' m + more ≤ behind h m + (more + 1) := by
    intro m k hm
    rw [behind_eq hw hm, behind_eq hw' (hm.mono ⟨[n], hchain.symm⟩), hlength]
    omega
  refine ⟨?_, cellsLeft_mono ?_, ?_, cellsLeft_mono ?_⟩
  · simp only [gauge, htail]
    exact hbehind hq
  · rw [htail]
    exact hr.enq _ hq.mem
  · simp only [gauge, hhead]
    exact hbehind hp
  · rw [hhead]
    exact hr.deq _ hp.mem

/-- A pointer that is moved to the next node. -/
theorem behind_next (hw : Glob L ⟨(), g, h⟩) {m : Nat} (hl : Linking ⟨(), g, h⟩ n m) :
    behind h m < behind h n := by
  obtain ⟨q, hn, hm⟩ := hl
  have hlt : q + 1 < (chain h).length := (List.getElem?_eq_some_iff.mp hm).1
  rw [behind_eq hw hn, behind_eq hw hm]
  omega

end Left

/-! ### Ranks -/

/-- The steps a thread has left until its call takes effect or returns, or until it draws its next
index, if nobody else's call takes effect and neither `head` nor `tail` is moved. What the thread
has read may be out of date, and then it has to go round once more. -/
def near (maxThreads : Nat) (g : Shared) (t : Tid) : Local → Nat
  | .idle => 10
  | .enqProtect _ n => if n = some g.tail then 6 else 8
  | .enqPublish _ ret => if ret = g.tail then 7 else 9
  | .enqFetchAdd _ ltail => if ltail = g.tail then 5 else 10
  | .enqCheckTail _ ltail => if ltail = g.tail then 4 else 9
  | .enqLoadNext _ ltail => if ltail = g.tail ∨ (g.nodes ltail).next = none then 3 else 10
  | .enqHelpTail _ ltail _ => if ltail = g.tail then 1 else 9
  | .enqNewNode _ ltail => if (g.nodes ltail).next = none then 2 else 10
  | .enqCasNext _ ltail _ => if (g.nodes ltail).next = none then 1 else 9
  | .enqNowLinked _ _ _ => 4
  | .enqStampLinked _ _ _ _ => 3
  | .enqCasTail _ _ _ => 2
  | .enqCasCell _ _ _ => 9
  | .enqNowCell _ => 3
  | .enqStampCell _ _ => 2
  | .enqClear _ => 1
  | .deqProtect n => if n = some g.head then 4 else 6
  | .deqPublish ret => if ret = g.head then 5 else 7
  | .deqFetchAdd lhead => if lhead = g.head then 3 else 9
  | .deqLoadNext lhead => if lhead = g.head then 2 else 8
  | .deqCasHead lhead _ => if lhead = g.head then 1 else 7
  | .deqRetire _ => ((g.hp.retiredList t).length + 1) * perObject maxThreads + 7
  | .deqScan scan => scan.left maxThreads (g.hp.retiredList t).length + 6
  | .deqLoadCell _ _ => 4 * 1024 + 15
  | .deqLoadEnqidx _ _ => 4 * 1024 + 14
  | .deqSpin _ _ i => (4 * 1024 - i) + 13
  | .deqExchange _ _ => 12
  | .deqNowLin _ => 3
  | .deqStampLin _ _ => 2
  | .deqReloadEnqidx _ _ => 11
  | .deqCheckNext _ _ _ => 10
  | .deqCasEnqidx _ _ _ => 1
  | .deqClear _ => 1

/-- The length of the thread's retired list, to which it is about to add a node in `retire`. -/
def kept (g : Shared) (t : Tid) : Local → Nat
  | .deqRetire _ => (g.hp.retiredList t).length + 1
  | _ => (g.hp.retiredList t).length

def rank (L : Layout) (maxThreads more : Nat) (g : Shared) (h : List Event) (t : Tid) (l : Local) :
    Nat :=
  (gauge L more g h).cost L maxThreads (kept g t l) + near maxThreads g t l

/-- The call has taken effect. -/
def Local.won : Local → Bool
  | .enqNowLinked _ _ _ | .enqStampLinked _ _ _ _ | .enqCasTail _ _ _ | .enqNowCell _
  | .enqStampCell _ _ | .enqClear _ | .deqNowLin _ | .deqStampLin _ _ | .deqClear _ => true
  | _ => false

section Ranks

variable {L : Layout} {maxThreads more : Nat} {t u v : Tid} {g g' : Shared} {h h' es : List Event}
  {l l' : Local}

theorem kept_eq (hretired : g'.hp.retiredList t = g.hp.retiredList t) :
    kept g' t l = kept g t l := by
  cases l <;> simp only [kept, hretired]

/-- What another thread can do to the way a thread has left. -/
theorem near_le (hretired : g'.hp.retiredList t = g.hp.retiredList t) :
    near maxThreads g' t l ≤ near maxThreads g t l + 8 := by
  cases l <;> simp only [near, hretired] <;> (try split_ifs) <;> omega

/-- The way left depends on `head`, `tail` and the links only. -/
theorem near_eq (hl : Loc L ⟨(), g, h⟩ t l) (hhead : g'.head = g.head) (htail : g'.tail = g.tail)
    (hnext : ∀ n ∈ chain h, (g'.nodes n).next = (g.nodes n).next)
    (hretired : g'.hp.retiredList t = g.hp.retiredList t) :
    near maxThreads g' t l = near maxThreads g t l := by
  cases l with
  | enqLoadNext a ltail | enqNewNode a ltail =>
      obtain ⟨-, q, hq⟩ := hl
      simp only [near, htail, hnext _ (At.mem hq)]
  | enqCasNext a ltail n =>
      obtain ⟨-, ⟨q, hq⟩, -⟩ := hl
      simp only [near, hnext _ (At.mem hq)]
  | _ => simp only [near, hhead, htail, hretired]

/-- What a step that is not a return does: the call of the thread takes effect, or the thread comes
nearer to that and the others lose nothing. -/
def Advances (L : Layout) (maxThreads : Nat) (t : Tid) (g : Shared) (h : List Event) (l : Local)
    (g' : Shared) (h' : List Event) (l' : Local) : Prop :=
  (l.won = false ∧ l'.won = true ∧ g'.hp = g.hp
      ∧ ∀ more, (gauge L more g' h').Le (gauge L (more + 1) g h))
    ∨ l'.won = l.won
      ∧ (∀ more, rank L maxThreads more g' h' t l' < rank L maxThreads more g h t l)
      ∧ ∀ more u l₁, u ≠ t → Loc L ⟨(), g, h⟩ u l₁ →
        rank L maxThreads more g' h' u l₁ ≤ rank L maxThreads more g h u l₁

/-- An index at `tail` pays for a round of an enqueue. -/
theorem rank_lt_tailCell (hle : (gauge L more g' h').Le (gauge L more g h))
    (hcell : (gauge L more g' h').tailCells < (gauge L more g h).tailCells)
    (hkept : kept g' t l' = kept g t l)
    (hnear : near maxThreads g' t l' < near maxThreads g t l + enqRound) :
    rank L maxThreads more g' h' t l' < rank L maxThreads more g h t l := by
  have hcost := hle.cost_tailCell L maxThreads (kept g t l) hcell
  rw [rank, rank, hkept]
  omega

/-- An index at `head` pays for a round of a dequeue. -/
theorem rank_lt_headCell (hle : (gauge L more g' h').Le (gauge L more g h))
    (hcell : (gauge L more g' h').headCells < (gauge L more g h).headCells)
    (hkept : kept g' t l' = kept g t l)
    (hnear : near maxThreads g' t l' < near maxThreads g t l + deqRound) :
    rank L maxThreads more g' h' t l' < rank L maxThreads more g h t l := by
  have hcost := hle.cost_headCell L maxThreads (kept g t l) hcell
  rw [rank, rank, hkept]
  omega

/-- A call that takes effect may set the others back, since it was expected to add a node. -/
theorem rank_won {l₁ : Local} (hhp : g'.hp = g.hp)
    (hle : (gauge L more g' h').Le (gauge L (more + 1) g h)) :
    rank L maxThreads more g' h' u l₁ ≤ rank L maxThreads (more + 1) g h u l₁ + 10 := by
  have hretired : g'.hp.retiredList u = g.hp.retiredList u := by rw [hhp]
  have hcost := hle.cost L maxThreads (Nat.le_of_eq (kept_eq (l := l₁) hretired))
  have hnear : near maxThreads g' u l₁ ≤ near maxThreads g u l₁ + 8 := near_le hretired
  unfold rank
  omega

variable (hw : Glob L ⟨(), g, h⟩) (hw' : Glob L ⟨(), g', h ++ es⟩)
  (hr : CountRely v ⟨(), g, h⟩ ⟨(), g', h ++ es⟩)

include hw hw' hr

/-- A step that moves neither `head` nor `tail` and adds no node. -/
theorem still_advances (hes : es.filterMap linkedNode = []) (hhead : g'.head = g.head)
    (htail : g'.tail = g.tail)
    (hretired : ∀ u, u ≠ t → g'.hp.retiredList u = g.hp.retiredList u) (hwon : l'.won = l.won)
    (hself : ∀ more, (gauge L more g' (h ++ es)).Le (gauge L more g h) →
      rank L maxThreads more g' (h ++ es) t l' < rank L maxThreads more g h t l) :
    Advances L maxThreads t g h l g' (h ++ es) l' := by
  have hchain : chain (h ++ es) = chain h := by rw [chain_append, hes, List.append_nil]
  have hnext : ∀ n ∈ chain h, (g'.nodes n).next = (g.nodes n).next := by
    intro n hn
    obtain ⟨q, hq⟩ := List.mem_iff_getElem?.mp hn
    have hnext' : nextPtr g' n = (chain (h ++ es))[q + 1]? :=
      hw'.linked.next_eq (hchain.symm ▸ hq)
    have hnext : nextPtr g n = (chain h)[q + 1]? := hw.linked.next_eq hq
    rw [hchain] at hnext'
    exact hnext'.trans hnext.symm
  have hle : ∀ more, (gauge L more g' (h ++ es)).Le (gauge L more g h) := fun more =>
    gauge_still hw hr hchain hhead htail
  refine .inr ⟨hwon, fun more => hself more (hle more), fun more u l₁ hu hl₁ => ?_⟩
  rw [rank, rank, near_eq hl₁ hhead htail hnext (hretired u hu), kept_eq (hretired u hu)]
  exact Nat.add_le_add_right ((hle more).cost L maxThreads (Nat.le_refl _)) _

/-- Such a step that brings the thread nearer. -/
theorem nearer_advances (hes : es.filterMap linkedNode = []) (hhead : g'.head = g.head)
    (htail : g'.tail = g.tail) (hretired : g'.hp.retiredList = g.hp.retiredList)
    (hwon : l'.won = l.won) (hkept : kept g' t l' ≤ kept g t l)
    (hnear : near maxThreads g' t l' < near maxThreads g t l) :
    Advances L maxThreads t g h l g' (h ++ es) l' :=
  still_advances hw hw' hr hes hhead htail (fun u _ => by rw [hretired]) hwon fun _ hle =>
    Nat.add_lt_add_of_le_of_lt (hle.cost L maxThreads hkept) hnear

omit hw' in
/-- A call takes effect without adding a node. -/
theorem won_advances (hes : es.filterMap linkedNode = []) (hhead : g'.head = g.head)
    (htail : g'.tail = g.tail) (hhp : g'.hp = g.hp) (hbefore : l.won = false)
    (hafter : l'.won = true) : Advances L maxThreads t g h l g' (h ++ es) l' := by
  refine .inl ⟨hbefore, hafter, hhp, fun more => ?_⟩
  have hchain : chain (h ++ es) = chain h := by rw [chain_append, hes, List.append_nil]
  have hle : (gauge L more g' (h ++ es)).Le (gauge L more g h) :=
    gauge_still hw hr hchain hhead htail
  exact ⟨Nat.le_succ_of_le hle.tailNodes, hle.tailCells, Nat.le_succ_of_le hle.headNodes,
    hle.headCells⟩

end Ranks

/-! ### Steps -/

section Steps

variable {L : Layout} {maxThreads : Nat} {t v : Tid} {i : Input} {g g' : Shared}
  {h es : List Event} {l l' : Local}

/-- An event of a return. -/
def Event.Returns : Event → Prop
  | .retEnq _ _ | .retDeq _ _ => True
  | _ => False

/-- What a step from `l` that is not a return has to achieve, given what every step keeps. -/
def Advancing (L : Layout) (maxThreads : Nat) (t : Tid) (g : Shared) (h : List Event) (l : Local)
    (g' : Shared) (l' : Local) (es : List Event) : Prop :=
  Glob L ⟨(), g', h ++ es⟩ → CountRely (t + 1) ⟨(), g, h⟩ ⟨(), g', h ++ es⟩ →
    (∀ e ∈ es, ¬ e.Returns) → Advances L maxThreads t g h l g' (h ++ es) l'

/-- A move of `head` or `tail` makes up for what it sets the threads back. -/
theorem moved_advances (hwon : l'.won = l.won)
    (hretired : g'.hp.retiredList = g.hp.retiredList)
    (hself : ∀ more, rank L maxThreads more g' h' t l' < rank L maxThreads more g h t l)
    (hcost : ∀ more kept, (gauge L more g' h').cost L maxThreads kept + 9
      ≤ (gauge L more g h).cost L maxThreads kept) :
    Advances L maxThreads t g h l g' h' l' := by
  refine .inr ⟨hwon, hself, fun more u l₁ _ _ => ?_⟩
  have hother := hcost more (kept g u l₁)
  have hturn : near maxThreads g' u l₁ ≤ near maxThreads g u l₁ + 8 := near_le (by rw [hretired])
  have hkeep : kept g' u l₁ = kept g u l₁ := kept_eq (by rw [hretired])
  rw [rank, rank, hkeep]
  omega

theorem tail_advances (hw : Glob L ⟨(), g, h⟩) (hs : Counts L ⟨(), g, h⟩) {n m : Nat}
    (hl : Linking ⟨(), g, h⟩ n m) (htail : g.tail = n) (hwon : l'.won = l.won)
    (hkept : kept { g with tail := m } t l' ≤ kept g t l)
    (hnear : near maxThreads { g with tail := m } t l' ≤ near maxThreads g t l + 8) :
    Advances L maxThreads t g h l { g with tail := m } (h ++ []) l' := by
  subst htail
  have hcells : 0 ≤ (g.nodes m).enqidx := by
    obtain ⟨q, hq⟩ := hl.snd
    exact hs.enq m hq.mem
  have hcost : ∀ more kept kept', kept' ≤ kept →
      (gauge L more { g with tail := m } h).cost L maxThreads kept' + 9
        ≤ (gauge L more g h).cost L maxThreads kept := fun more _ _ =>
    Gauge.cost_tailNode (Nat.add_lt_add_right (behind_next hw hl) more) (cellsLeft_le hcells)
      (Nat.le_refl _) (Nat.le_refl _)
  rw [List.append_nil]
  refine moved_advances hwon rfl (fun more => ?_) fun more kept =>
    hcost more kept kept (Nat.le_refl kept)
  have hself := hcost more _ _ hkept
  rw [rank, rank]
  omega

/-- The dequeue that moves `head` has its budget for `retire`. -/
theorem head_advances (hw : Glob L ⟨(), g, h⟩) (hs : Counts L ⟨(), g, h⟩) {n m : Nat}
    (hl : Linking ⟨(), g, h⟩ n m) (hhead : g.head = n) :
    Advances L maxThreads t g h (.deqCasHead n m) { g with head := m } (h ++ [])
      (.deqRetire n) := by
  subst hhead
  have hcells : 0 ≤ (g.nodes m).deqidx := by
    obtain ⟨q, hq⟩ := hl.snd
    exact hs.deq m hq.mem
  have hcost : ∀ more kept kept', kept' ≤ kept + 1 →
      (gauge L more { g with head := m } h).cost L maxThreads kept'
          + (kept + 1) * perObject maxThreads + 9
        ≤ (gauge L more g h).cost L maxThreads kept := fun more _ _ =>
    Gauge.cost_headNode (Nat.add_lt_add_right (behind_next hw hl) more) (cellsLeft_le hcells)
      (Nat.le_refl _) (Nat.le_refl _)
  rw [List.append_nil]
  refine moved_advances rfl rfl (fun more => ?_) fun more kept => ?_
  · have hself := hcost more (g.hp.retiredList t).length ((g.hp.retiredList t).length + 1)
      (Nat.le_refl _)
    simp only [rank, near, kept, if_true]
    omega
  · have hother := hcost more kept kept (Nat.le_succ kept)
    omega

/-- The compare-and-swap that moves `tail` to a node behind it. -/
theorem casTail_advances (hw : Glob L ⟨(), g, h⟩) (hs : Counts L ⟨(), g, h⟩) {n m : Nat}
    (hl : Linking ⟨(), g, h⟩ n m)
    (hw' : Glob L ⟨(), if g.tail = n then { g with tail := m } else g, h ++ []⟩)
    (hr : CountRely v ⟨(), g, h⟩ ⟨(), if g.tail = n then { g with tail := m } else g, h ++ []⟩)
    (hwon : l'.won = l.won) (hkept : ∀ g : Shared, kept g t l' = kept g t l)
    (hmoved : near maxThreads { g with tail := m } t l' ≤ near maxThreads g t l + 8)
    (hlost : g.tail ≠ n → near maxThreads g t l' < near maxThreads g t l) :
    Advances L maxThreads t g h l (if g.tail = n then { g with tail := m } else g)
      (h ++ []) l' := by
  by_cases htail : g.tail = n
  · rw [if_pos htail]
    have hkeep : kept { g with tail := m } t l = kept g t l := kept_eq rfl
    exact tail_advances hw hs hl htail hwon ((hkept _).trans hkeep).le hmoved
  · rw [if_neg htail] at hw' hr ⊢
    exact nearer_advances hw hw' hr rfl rfl rfl rfl hwon (hkept g).le (hlost htail)

/-! #### The scan of the retired nodes -/

theorem near_afterScan (scan : Option Scan) : near maxThreads g t (afterScan scan)
    = scanLeft maxThreads (g.hp.retiredList t).length scan + 6 := by
  cases scan with
  | none =>
      rw [afterScan, near, if_neg (Option.some_ne_none g.head).symm]
      rfl
  | some scan => rfl

theorem kept_afterScan (scan : Option Scan) :
    kept g t (afterScan scan) = (g.hp.retiredList t).length := by
  cases scan <;> rfl

theorem won_afterScan (scan : Option Scan) : (afterScan scan).won = false := by
  cases scan <;> rfl

theorem deqRetire_advances {n : Nat} (hw : Glob L ⟨(), g, h⟩) :
    Leads (Advancing L maxThreads t g h (.deqRetire n))
      (step L maxThreads t i g (.deqRetire n)) := by
  refine .into fun hw' hr _ => ?_
  refine still_advances hw hw' hr rfl rfl rfl (fun u hu => by simp [setRetired, hu])
    (won_afterScan _) fun more hle => ?_
  have hlist : ((g.hp.setRetired t (g.hp.retiredList t ++ [n])).retiredList t)
      = g.hp.retiredList t ++ [n] := Function.update_self ..
  have hscan : scanLeft maxThreads (g.hp.retiredList t ++ [n]).length
        (scanFrom maxThreads (g.hp.retiredList t ++ [n]) 0)
      ≤ (g.hp.retiredList t ++ [n]).length * perObject maxThreads := scanLeft_scanFrom
  rw [rank, rank, near_afterScan, kept_afterScan, hlist]
  rw [List.length_append, List.length_singleton] at hscan ⊢
  refine Nat.add_lt_add_of_le_of_lt (hle.cost L maxThreads (Nat.le_refl _)) ?_
  rw [near]
  omega

theorem deqScan_advances {scan : Scan} (hw : Glob L ⟨(), g, h⟩) :
    Leads (Advancing L maxThreads t g h (.deqScan scan))
      (step L maxThreads t i g (.deqScan scan)) := by
  simp only [step]
  generalize hg : (scanStep maxThreads t g.hp scan).2.2.elim
    { g with hp := (scanStep maxThreads t g.hp scan).1 } _ = g'
  refine .into fun hw' hr _ => ?_
  have hhp : g'.hp = (scanStep maxThreads t g.hp scan).1 := by
    subst hg
    cases (scanStep maxThreads t g.hp scan).2.2 <;> rfl
  have hlists : g'.head = g.head ∧ g'.tail = g.tail := by
    subst hg
    cases (scanStep maxThreads t g.hp scan).2.2 <;> exact ⟨rfl, rfl⟩
  refine still_advances hw hw' hr rfl hlists.1 hlists.2
    (fun u hu => by rw [hhp, scanStep_retiredList_of_ne hu]) (won_afterScan _) fun more hle => ?_
  rw [rank, rank, near_afterScan, kept_afterScan, hhp]
  refine Nat.add_lt_add_of_le_of_lt (hle.cost L maxThreads length_scanStep_le) ?_
  exact Nat.add_lt_add_right scanLeft_scanStep 6

/-! #### The indices -/

/-- An enqueue draws an index, from the node `tail` points to or from one before it. -/
theorem enqFetchAdd_advances {a ltail : Nat} (hwrap : NoWrapAt g (.enqFetchAdd a ltail))
    (hw : Glob L ⟨(), g, h⟩) (hs : Counts L ⟨(), g, h⟩)
    (hl : Loc L ⟨(), g, h⟩ t (.enqFetchAdd a ltail)) :
    Leads (Advancing L maxThreads t g h (.enqFetchAdd a ltail))
      (step L maxThreads t i g (.enqFetchAdd a ltail)) := by
  obtain ⟨-, q, hq⟩ := hl
  have h0 : 0 ≤ (g.nodes ltail).enqidx := hs.enq ltail (At.mem hq)
  simp only [step, succ32_eq h0 hwrap]
  refine .ite (fun _ => .into fun hw' hr _ => ?_) fun hsize => .into fun hw' hr _ => ?_
  · refine nearer_advances hw hw' hr rfl rfl rfl rfl rfl (Nat.le_refl _) ?_
    change (if ltail = g.tail then 4 else 9) < if ltail = g.tail then 5 else 10
    split_ifs <;> omega
  · refine still_advances hw hw' hr rfl rfl rfl (fun _ _ => rfl) rfl fun more hle => ?_
    by_cases htail : ltail = g.tail
    · subst htail
      have hcell : cellsLeft L ((g.nodes g.tail).enqidx + 1)
          < cellsLeft L (g.nodes g.tail).enqidx := cellsLeft_succ (by omega)
      refine rank_lt_tailCell hle (by simpa [gauge] using hcell) rfl ?_
      rw [near, near, if_pos rfl]
      decide
    · refine Nat.add_lt_add_of_le_of_lt (hle.cost L maxThreads (Nat.le_refl _)) ?_
      rw [near, near, if_neg htail]
      omega

/-- A dequeue draws an index, from the node `head` points to or from one that has none left. -/
theorem deqFetchAdd_advances {lhead : Nat} (hwrap : NoWrapAt g (.deqFetchAdd lhead))
    (hw : Glob L ⟨(), g, h⟩) (hs : Counts L ⟨(), g, h⟩)
    (hl : CountLoc L ⟨(), g, h⟩ t (.deqFetchAdd lhead)) :
    Leads (Advancing L maxThreads t g h (.deqFetchAdd lhead))
      (step L maxThreads t i g (.deqFetchAdd lhead)) := by
  obtain ⟨q, hq, k, hle, hk⟩ := hl.head
  have h0 : 0 ≤ (g.nodes lhead).deqidx := hs.deq lhead hq.mem
  simp only [step, succ32_eq h0 hwrap]
  refine .ite (fun _ => .into fun hw' hr _ => ?_) fun hsize => .into fun hw' hr _ => ?_
  · refine nearer_advances hw hw' hr rfl rfl rfl rfl rfl (Nat.le_refl _) ?_
    change (if lhead = g.head then 2 else 8) < if lhead = g.head then 3 else 9
    split_ifs <;> omega
  · have hhead : lhead = g.head := by
      by_contra hne
      have hlt : q < k := Nat.lt_of_le_of_ne hle fun heq =>
        hne (Option.some.inj (hq.symm.trans (heq ▸ hk)))
      have hpassed : L.size ≤ (g.nodes lhead).deqidx := hs.passed hk hlt hq
      omega
    subst hhead
    refine still_advances hw hw' hr rfl rfl rfl (fun _ _ => rfl) rfl fun more hle => ?_
    have hcell : cellsLeft L ((g.nodes g.head).deqidx + 1)
        < cellsLeft L (g.nodes g.head).deqidx := cellsLeft_succ (by omega)
    refine rank_lt_headCell hle (by simpa [gauge] using hcell) rfl ?_
    rw [near, near, if_pos rfl]
    decide

/-! #### The other control states with more than one way on -/

section States

variable (hw : Glob L ⟨(), g, h⟩)

include hw

theorem enqProtect_advances {a : Nat} {n : Option Nat} :
    Leads (Advancing L maxThreads t g h (.enqProtect a n))
      (step L maxThreads t i g (.enqProtect a n)) := by
  refine .ite (fun hn => .into fun hw' hr _ => ?_) fun hn => .into fun hw' hr _ => ?_
  · refine nearer_advances hw hw' hr rfl rfl rfl rfl rfl (Nat.le_refl _) ?_
    rw [near, near, if_pos rfl, if_pos hn.symm]
    decide
  · refine nearer_advances hw hw' hr rfl rfl rfl rfl rfl (Nat.le_refl _) ?_
    rw [near, near, if_pos rfl, if_neg (Ne.symm hn)]
    decide

theorem enqCheckTail_advances {a ltail : Nat} :
    Leads (Advancing L maxThreads t g h (.enqCheckTail a ltail))
      (step L maxThreads t i g (.enqCheckTail a ltail)) := by
  refine .ite (fun htail => .into fun hw' hr _ => ?_) fun htail => .into fun hw' hr _ => ?_
  · refine nearer_advances hw hw' hr rfl rfl rfl rfl rfl (Nat.le_refl _) ?_
    simp [near, htail]
  · refine nearer_advances hw hw' hr rfl rfl rfl rfl rfl (Nat.le_refl _) ?_
    simp [near, not_not.mp htail]

theorem enqLoadNext_advances {a ltail : Nat} :
    Leads (Advancing L maxThreads t g h (.enqLoadNext a ltail))
      (step L maxThreads t i g (.enqLoadNext a ltail)) := by
  simp only [step]
  split <;> rename_i hnext <;> refine .into fun hw' hr _ => ?_
  · refine nearer_advances hw hw' hr rfl rfl rfl rfl rfl (Nat.le_refl _) ?_
    rw [near, near, if_pos hnext, if_pos (.inr hnext)]
    decide
  · refine nearer_advances hw hw' hr rfl rfl rfl rfl rfl (Nat.le_refl _) ?_
    simp only [near, hnext, reduceCtorEq, or_false]
    split_ifs <;> omega

theorem enqNewNode_advances {a ltail : Nat} (hltail : ∃ q, At h ltail q) :
    Leads (Advancing L maxThreads t g h (.enqNewNode a ltail))
      (step L maxThreads t i g (.enqNewNode a ltail)) := by
  obtain ⟨q, hq⟩ := hltail
  refine .ite (fun hfree => .into fun hw' hr _ => ?_) fun _ => .nowhere
  have hne : ltail ≠ i.addr := fun heq => hw.used ltail (At.mem hq) (heq ▸ hfree)
  refine nearer_advances hw hw' hr rfl rfl rfl rfl rfl (Nat.le_refl _) ?_
  simp only [near, Shared.setNode_of_ne _ _ _ hne, Shared.setStatus_nodes]
  split_ifs <;> omega

theorem enqCasNext_advances {a ltail n : Nat} :
    Leads (Advancing L maxThreads t g h (.enqCasNext a ltail n))
      (step L maxThreads t i g (.enqCasNext a ltail n)) := by
  refine .ite (fun _ => .into fun hw' hr _ => ?_) fun hnext => .into fun hw' hr _ => ?_
  · exact .inl ⟨rfl, rfl, rfl, fun more => gauge_link hw hw' hr (chain_append ..) rfl rfl⟩
  · refine nearer_advances hw hw' hr rfl rfl rfl rfl rfl (Nat.le_refl _) ?_
    simp [near, hnext]

theorem deqProtect_advances {n : Option Nat} :
    Leads (Advancing L maxThreads t g h (.deqProtect n))
      (step L maxThreads t i g (.deqProtect n)) := by
  refine .ite (fun hn => .into fun hw' hr _ => ?_) fun hn => .into fun hw' hr _ => ?_
  · refine nearer_advances hw hw' hr rfl rfl rfl rfl rfl (Nat.le_refl _) ?_
    rw [near, near, if_pos rfl, if_pos hn.symm]
    decide
  · refine nearer_advances hw hw' hr rfl rfl rfl rfl rfl (Nat.le_refl _) ?_
    rw [near, near, if_pos rfl, if_neg (Ne.symm hn)]
    decide

theorem deqLoadNext_advances {lhead : Nat} :
    Leads (Advancing L maxThreads t g h (.deqLoadNext lhead))
      (step L maxThreads t i g (.deqLoadNext lhead)) := by
  simp only [step]
  split <;> refine .into fun hw' hr _ => ?_
  · exact won_advances hw hr rfl rfl rfl rfl rfl rfl
  · refine nearer_advances hw hw' hr rfl rfl rfl rfl rfl (Nat.le_refl _) ?_
    simp only [near]
    split_ifs <;> omega

theorem deqCasHead_advances {lhead lnext : Nat} (hs : Counts L ⟨(), g, h⟩)
    (hl : Linking ⟨(), g, h⟩ lhead lnext) :
    Leads (Advancing L maxThreads t g h (.deqCasHead lhead lnext))
      (step L maxThreads t i g (.deqCasHead lhead lnext)) := by
  refine .ite (fun hhead => .into fun _ _ _ => ?_) fun hhead => .into fun hw' hr _ => ?_
  · exact head_advances hw hs hl hhead
  · refine nearer_advances hw hw' hr rfl rfl rfl rfl rfl (Nat.le_refl _) ?_
    simp [near, Ne.symm hhead]

end States

/-- **Every step that is not a return advances the threads.** -/
theorem step_advances
    (hfresh : ∀ a, l = .idle → i.op = some (.enqueue a) → ∀ u, .call u (.enqueue a) ∉ h)
    (hwrap : NoWrapAt g l) (hw : Glob L ⟨(), g, h⟩) (hloc : Loc L ⟨(), g, h⟩ t l)
    (hs : Counts L ⟨(), g, h⟩) (hl : CountLoc L ⟨(), g, h⟩ t l)
    (hstep : step L maxThreads t i g l = some (g', l', es)) (hret : ∀ e ∈ es, ¬ e.Returns) :
    Advances L maxThreads t g h l g' (h ++ es) l' := by
  have hw' : Glob L ⟨(), g', h ++ es⟩ := (step_preserves hfresh hw hloc hstep).1
  have hr : CountRely (t + 1) ⟨(), g, h⟩ ⟨(), g', h ++ es⟩ :=
    (step_counts hfresh hwrap hw hloc hs hl hstep).2.2 (t + 1) (Nat.succ_ne_self t)
  suffices hleads : Leads (Advancing L maxThreads t g h l) (step L maxThreads t i g l) from
    hleads.of_some hstep hw' hr hret
  clear hstep hw' hr hret
  cases l with
  | idle =>
      refine .map fun op _ hw' hr _ => ?_
      cases op <;>
        exact nearer_advances hw hw' hr rfl rfl rfl rfl rfl (Nat.le_refl _) (by simp [near])
  | enqProtect a n => exact enqProtect_advances hw
  | enqPublish a ret =>
      refine .into fun hw' hr _ => ?_
      refine nearer_advances hw hw' hr rfl rfl rfl rfl rfl (Nat.le_refl _) ?_
      simp only [near, Shared.setSlot, Option.some.injEq]
      split_ifs <;> omega
  | enqFetchAdd a ltail => exact enqFetchAdd_advances hwrap hw hs hloc
  | enqCheckTail a ltail => exact enqCheckTail_advances hw
  | enqLoadNext a ltail => exact enqLoadNext_advances hw
  | enqHelpTail a ltail lnext =>
      refine .into fun hw' hr _ => ?_
      refine casTail_advances hw hs hloc.2 hw' hr rfl (fun _ => rfl) (by simp [near]) fun hne => ?_
      simp [near, Ne.symm hne]
  | enqNewNode a ltail => exact enqNewNode_advances hw hloc.2
  | enqCasNext a ltail n => exact enqCasNext_advances hw
  | enqCasTail a ltail n =>
      refine .into fun hw' hr _ => ?_
      exact casTail_advances hw hs hloc.1 hw' hr rfl (fun _ => rfl) (by simp [near])
        fun _ => by simp [near]
  | enqCasCell a ltail idx =>
      refine .ite (fun _ => .nowhere) fun _ => .ite (fun _ => .into fun hw' hr _ => ?_) fun _ =>
        .into fun hw' hr _ => ?_
      · exact won_advances hw hr rfl rfl rfl rfl rfl rfl
      · exact nearer_advances hw hw' hr rfl rfl rfl rfl rfl (Nat.le_refl _) (by simp [near])
  | enqNowLinked | enqStampLinked | enqNowCell | enqStampCell | deqNowLin | deqStampLin =>
      refine .into fun hw' hr _ => ?_
      exact nearer_advances hw hw' hr rfl rfl rfl rfl rfl (Nat.le_refl _) (by simp [near])
  | deqProtect n => exact deqProtect_advances hw
  | deqPublish ret =>
      refine .into fun hw' hr _ => ?_
      refine nearer_advances hw hw' hr rfl rfl rfl rfl rfl (Nat.le_refl _) ?_
      simp only [near, Shared.setSlot, Option.some.injEq]
      split_ifs <;> omega
  | deqFetchAdd lhead => exact deqFetchAdd_advances hwrap hw hs hl
  | deqLoadNext lhead => exact deqLoadNext_advances hw
  | deqCasHead lhead lnext => exact deqCasHead_advances hw hs hloc
  | deqRetire n => exact deqRetire_advances hw
  | deqScan scan => exact deqScan_advances hw
  | deqLoadCell lhead idx =>
      refine .ite (fun _ => .nowhere) fun _ => .ite (fun _ => .into fun hw' hr _ => ?_) fun _ =>
        .into fun hw' hr _ => ?_ <;>
        exact nearer_advances hw hw' hr rfl rfl rfl rfl rfl (Nat.le_refl _) (by simp [near])
  | deqLoadEnqidx lhead idx | deqSpin lhead idx n =>
      refine .ite (fun hspin => .into fun hw' hr _ => ?_) fun hspin => .into fun hw' hr _ => ?_ <;>
        refine nearer_advances hw hw' hr rfl rfl rfl rfl rfl (Nat.le_refl _) ?_ <;>
        simp only [near] <;> omega
  | deqExchange lhead idx =>
      refine .ite (fun _ => .into fun hw' hr _ => ?_) fun _ => .into fun hw' hr _ => ?_
      · exact nearer_advances hw hw' hr rfl rfl rfl rfl rfl (Nat.le_refl _) (by simp [near])
      · exact won_advances hw hr rfl rfl rfl rfl rfl rfl
  | deqReloadEnqidx lhead idx | deqCheckNext lhead idx enqidx =>
      refine .ite (fun _ => .into fun hw' hr _ => ?_) fun _ => .into fun hw' hr _ => ?_ <;>
        refine nearer_advances hw hw' hr rfl rfl rfl rfl rfl (Nat.le_refl _) ?_ <;>
        simp only [near] <;> (try split_ifs) <;> omega
  | deqCasEnqidx lhead idx enqidx =>
      refine .into fun _ hr _ => ?_
      refine won_advances hw hr rfl ?_ ?_ ?_ rfl rfl <;> split <;> rfl
  | enqClear | deqClear => exact .into fun _ _ hret => absurd trivial (hret _ List.mem_cons_self)

end Steps

/-! ### No thread is blocked -/

section Enabled

variable {L : Layout} {maxThreads : Nat} {t : Tid} {i : Input} {g g' : Shared} {es : List Event}
  {l l' : Local} {c : Config Shared Local Event}

theorem reusingStep_of_step {r : Shared × Local × List Event}
    (h : step L maxThreads t i g l = some r) : reusingStep L maxThreads t i g l = some r := by
  cases l with
  | enqNewNode a ltail =>
      obtain ⟨hfree, h⟩ := Option.ite_none_right_eq_some.mp h
      exact Option.ite_none_right_eq_some.mpr ⟨by rw [hfree]; decide, h⟩
  | _ => exact h

theorem Reach.reusing (h : (program L maxThreads).Reach Proper c) :
    (reusingProgram L maxThreads).Reach NoWrap c := by
  induction h with
  | init => exact .init
  | step _ hok hnext ih =>
      obtain ⟨g, l, es, hstep, rfl⟩ := Program.next_eq_some hnext
      exact ih.snoc hok.2 (reusingStep_of_step hstep)

/-- A step changes the status of one node at most. -/
theorem step_status (hstep : step L maxThreads t i g l = some (g', l', es)) :
    g'.status = g.status ∨ ∃ n s, g'.status = Function.update g.status n s := by
  cases l with
  | idle =>
      obtain ⟨op, -, heq⟩ := Option.map_eq_some_iff.mp hstep
      cases op <;> exact .inl (congrArg (fun r => r.1.status) heq).symm
  | enqNewNode a ltail =>
      obtain ⟨-, heq⟩ := Option.ite_none_right_eq_some.mp hstep
      exact .inr ⟨i.addr, .allocated, (congrArg (fun r => r.1.status) (Option.some.inj heq)).symm⟩
  | deqScan scan =>
      have heq := (congrArg (fun r => r.1.status) (Option.some.inj hstep)).symm
      cases hfreed : (scanStep maxThreads t g.hp scan).2.2 with
      | none =>
          rw [hfreed] at heq
          exact .inl heq
      | some n =>
          rw [hfreed] at heq
          exact .inr ⟨n, .deleted, heq⟩
  | _ =>
      left
      simp only [step] at hstep
      repeat' split at hstep
      all_goals first
        | (cases hstep; done)
        | (simp only [Option.some.injEq, Prod.mk.injEq] at hstep
           obtain ⟨rfl, -, -⟩ := hstep
           rfl)

/-- The addresses in use are bounded. -/
theorem Reach.unallocated (h : (program L maxThreads).Reach Proper c) :
    ∃ bound, ∀ n, bound ≤ n → c.shared.status n = .unallocated := by
  induction h with
  | init => exact ⟨1, fun n hn => if_neg (Nat.ne_of_gt hn)⟩
  | step _ _ hnext ih =>
      obtain ⟨g, l, es, hstep, rfl⟩ := Program.next_eq_some hnext
      obtain ⟨bound, hbound⟩ := ih
      rcases step_status hstep with hstatus | ⟨m, s, hstatus⟩
      · exact ⟨bound, fun n hn => by rw [hstatus, hbound n hn]⟩
      · refine ⟨max bound (m + 1), fun n hn => ?_⟩
        rw [hstatus, Function.update_of_ne (by omega)]
        exact hbound n (by omega)

/-- A thread in a call can take a step: the index it has drawn is one of a cell, and there is always
memory for a node. -/
theorem Reach.enabled (h : (program L maxThreads).Reach Proper c) (hbusy : c.locals t ≠ .idle) :
    ∃ i, ((program L maxThreads).next c t i).isSome := by
  obtain ⟨bound, hbound⟩ := Reach.unallocated h
  obtain ⟨_, -, hindex⟩ := (counterInvariant L maxThreads).holds (Reach.reusing h)
  have hinside : ∀ idx, (c.locals t).index = some idx → InNode L idx := hindex t
  refine ⟨{ addr := bound }, ?_⟩
  rw [Program.next, Option.isSome_map]
  change (step L maxThreads t { addr := bound } c.shared (c.locals t)).isSome
  cases hl : c.locals t with
  | idle => exact absurd hl hbusy
  | enqNewNode a ltail => simp [step, hbound bound (Nat.le_refl bound)]
  | enqCasCell a ltail idx =>
      have hidx := hinside idx (by rw [hl]; rfl)
      rw [step, if_neg (Int.not_lt.mpr hidx.1)]
      split <;> rfl
  | deqLoadCell lhead idx =>
      have hidx := hinside idx (by rw [hl]; rfl)
      rw [step, if_neg (Int.not_lt.mpr hidx.1)]
      split <;> rfl
  | _ =>
      simp only [step]
      first | rfl | (split <;> rfl)

end Enabled

/-! ### The result -/

section Results

variable {L : Layout} {maxThreads : Nat} {c : Config Shared Local Event}

/-- A call that has just taken effect is nearly done. -/
theorem rank_of_won {more : Nat} {t : Tid} {g g' : Shared} {h h' : List Event} {l l' : Local}
    (hafter : l'.won = true) (hhp : g'.hp = g.hp)
    (hle : (gauge L more g' h').Le (gauge L (more + 1) g h)) :
    rank L maxThreads more g' h' t l' ≤ rank L maxThreads (more + 1) g h t l + 10 := by
  have hkept : kept g' t l' ≤ kept g t l := by
    have hlength : (g.hp.retiredList t).length ≤ kept g t l := by
      cases l <;> simp [kept]
    have hkept' : kept g' t l' = (g.hp.retiredList t).length := by
      rw [← hhp]
      cases l' <;> first | (cases hafter; done) | rfl
    rw [hkept']
    exact hlength
  have hnear : near maxThreads g' t l' ≤ 10 := by
    cases l' <;> first | (cases hafter; done) | simp [near]
  have hcost := hle.cost L maxThreads hkept
  unfold rank
  omega

/-- Lock-freedom, in the runs in which no item is enqueued twice and no counter wraps. -/
def lockFree (L : Layout) (maxThreads : Nat) : LockFree (program L maxThreads)
    ((program L maxThreads).Reach Proper) Proper Event.Returns where
  keep h hok hnext := h.step hok hnext
  rank more c u := rank L maxThreads more c.shared c.history u (c.locals u)
  won := Local.won
  raise := 10
  step {c t i g l es} more h hok hstep hnone := by
    obtain ⟨hw, hloc⟩ := Reach.cells (h.mono fun _ _ _ hok => hok.1)
    obtain ⟨hs, hl⟩ := Reach.counts h
    rcases step_advances hok.1 hok.2 hw (hloc t) hs (hl t) hstep hnone with
      ⟨hbefore, hafter, hhp, hle⟩ | ⟨hwon, hself, hothers⟩
    · refine .inl ⟨hbefore, hafter, fun u => ?_⟩
      by_cases hu : u = t
      · subst hu
        simp only [Function.update_self]
        exact rank_of_won hafter hhp (hle more)
      · have hlocal : Function.update c.locals t l u = c.locals u := Function.update_of_ne hu ..
        simp only [hlocal]
        exact rank_won hhp (hle more)
    · refine .inr ⟨hwon, by simpa using hself more, fun u hu => ?_⟩
      have hlocal : Function.update c.locals t l u = c.locals u := Function.update_of_ne hu ..
      simp only [hlocal]
      exact hothers more u _ hu (hloc u)

/-- **Lock-freedom.** In every configuration that is reached each thread in a call can take a step;
and from there on some call returns among a bounded number of steps, whichever of the given threads
take them and in whatever order. -/
theorem array_lock_free (h : (program L maxThreads).Reach Proper c) :
    (∀ t, c.locals t ≠ .idle → ∃ i, ((program L maxThreads).next c t i).isSome)
      ∧ ∀ threads : Finset Tid, ∃ bound, ∀ (sched : List (Tid × Input)) c',
        (program L maxThreads).Runs Proper c sched c' → (∀ x ∈ sched, x.1 ∈ threads) →
        bound < sched.length →
        ∃ es, c'.history = c.history ++ es ∧ ∃ e ∈ es, e.Returns :=
  ⟨fun _ hbusy => Reach.enabled h hbusy, fun threads =>
    ⟨(lockFree L maxThreads).potential threads c, fun _ _ hruns hsched hlong =>
      (lockFree L maxThreads).returns h hruns hsched hlong⟩⟩

/-- With one cell a node, thread 0 is about to link a node for its second item, and thread 1 has
emptied the first node and finds none behind it. -/
def midwaySchedule : List (Tid × Input) :=
  List.replicate 9 (0, { op := some (.enqueue 7) })
    ++ List.replicate 8 (0, { op := some (.enqueue 8), addr := 1 })
    ++ List.replicate 22 (1, { op := some .dequeue })

theorem array_lock_free_midway :
    ∃ c, (c.locals 0, c.locals 1) = (.enqCasNext 8 0 1, .deqLoadNext 0)
      ∧ (∀ t, c.locals t ≠ .idle →
        ∃ i, ((program (.identity 1 Nat.one_pos) 2).next c t i).isSome)
      ∧ ∀ threads : Finset Tid, ∃ bound, ∀ (sched : List (Tid × Input)) c',
        (program (.identity 1 Nat.one_pos) 2).Runs Proper c sched c' →
        (∀ x ∈ sched, x.1 ∈ threads) → bound < sched.length →
        ∃ es, c'.history = c.history ++ es ∧ ∃ e ∈ es, e.Returns := by
  have hrun : ((program (.identity 1 Nat.one_pos) 2).execIf 2 properCheck
      (program (.identity 1 Nat.one_pos) 2).init midwaySchedule).map
      (fun c => (c.locals 0, c.locals 1)) = some (.enqCasNext 8 0 1, .deqLoadNext 0) := by
    decide +kernel
  obtain ⟨c, hexec, hlocals⟩ := Option.map_eq_some_iff.mp hrun
  exact ⟨c, hlocals, array_lock_free
    (.execIf (fun _ _ _ _ hcheck => proper_of_check hcheck) .init (fun _ _ => rfl) hexec)⟩

end Results

end QueueFairness.FAAArrayQueue
