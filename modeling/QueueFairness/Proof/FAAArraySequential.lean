import Mathlib.Data.List.Nodup
import QueueFairness.FAAArrayQueueSize
import QueueFairness.Lib.Solo
import QueueFairness.Proof.FAAArrayCells
import QueueFairness.Proof.HazardScan

/-!
# The array queue used by one thread at a time

When the calls are made one after another, the nodes hold a list of items: each node holds a run of
it between the two indices that are drawn next, and every node but the last is filled to its end. A
dequeue that finds nothing spends an index, of its node and of the enqueues, so that the two are
never out of step.
-/

namespace QueueFairness.FAAArrayQueue.Sequential

open Interleaving HazardPointers

variable {L : Layout}

/-- The node begins at index `off` of the queue. Dequeues have drawn `d` indices of it, and the
cells from there on hold `xs`. -/
structure Holds (L : Layout) (node : Node) (off d : Nat) (xs : List Nat) : Prop where
  offset : node.startIndexOffset = .ofNat off
  deqidx : node.deqidx = d
  room : min d L.size + xs.length ≤ L.size
  items : ∀ i (hi : i < xs.length), node.items (L.position (min d L.size + i)) = .item xs[i]

/-- The last node, whose cells behind `xs` are free. -/
structure Last (L : Layout) (node : Node) (off d : Nat) (xs : List Nat) : Prop
    extends Holds L node off d xs where
  enqidx : node.enqidx = (min d L.size + xs.length : Nat)
  empty : ∀ i, min d L.size + xs.length ≤ i → i < L.size → node.items (L.position i) = .empty
  next : node.next = none

/-- The nodes at `front` are full, hold `xs` from the node `n` at index `off` on, whose first `d`
indices are drawn, and lead to the node `m` at index `off'`. -/
inductive Path (L : Layout) (nodes : Nat → Node) :
    List Nat → Nat → Nat → Nat → List Nat → Nat → Nat → Nat → Prop
  | nil {n off d : Nat} : Path L nodes [] n off d [] n off d
  | cons {n n' off d m off' d' : Nat} {front xs ys : List Nat} (hholds : Holds L (nodes n) off d xs)
      (hfull : min d L.size + xs.length = L.size) (hnext : (nodes n).next = some n')
      (hpath : Path L nodes front n' (off + L.size) 0 ys m off' d') :
      Path L nodes (n :: front) n off d (xs ++ ys) m off' d'

/-- The nodes at `live` are in use, and addresses are left. -/
structure Store (g : Shared) (live : List Nat) : Prop where
  nodup : live.Nodup
  used : ∀ n ∈ live, g.status n ≠ .unallocated
  free : ∃ bound, ∀ n, bound ≤ n → g.status n = .unallocated

/-- The queue holds `ys` in the full nodes at `front`, and `zs` in the last one. -/
structure Represents (L : Layout) (g : Shared) (front : List Nat) (off d : Nat) (ys : List Nat)
    (off' d' : Nat) (zs : List Nat) : Prop where
  path : Path L g.nodes front g.head off d ys g.tail off' d'
  last : Last L (g.nodes g.tail) off' d' zs
  store : Store g (front ++ [g.tail])

/-- The queue holds `xs`, after `p` calls. -/
def Contains (L : Layout) (p : Nat) (g : Shared) (xs : List Nat) : Prop :=
  ∃ front off d ys off' d' zs, xs = ys ++ zs ∧ d ≤ p ∧ off' ≤ p * L.size
    ∧ Represents L g front off d ys off' d' zs

/-! ### Nodes -/

section Nodes

variable {node : Node} {nodes nodes' : Nat → Node} {off d off' d' n m s a x : Nat}
  {front xs ys zs : List Nat}

/-- A counter that does not reach the end of `int` counts. -/
theorem succ32_natCast {k : Nat} (hk : k + 1 < 2 ^ 31) :
    succ32 (k : Int) = ((k + 1 : Nat) : Int) := by
  unfold succ32
  rw [Int.bmod_eq_of_le] <;> omega

theorem Holds.lt_size (h : Holds L node off d (x :: xs)) : d < L.size := by
  have hroom := h.room
  rw [List.length_cons] at hroom
  omega

/-- The first cell that is not drawn has the first item. -/
theorem Holds.head (h : Holds L node off d (x :: xs)) : node.items (L.position d) = .item x := by
  have hfirst := h.items 0 (Nat.zero_lt_succ _)
  rwa [Nat.add_zero, Nat.min_eq_left (Nat.le_of_lt h.lt_size)] at hfirst

/-- The fetch-and-add of a dequeue that finds the node drained. -/
theorem Holds.drained (h : Holds L node off d xs) (hd : L.size ≤ d) (hwrap : d + 1 < 2 ^ 31) :
    Holds L { node with deqidx := succ32 node.deqidx } off (d + 1) xs := by
  have hmin : min (d + 1) L.size = min d L.size := by omega
  refine ⟨h.offset, (congrArg succ32 h.deqidx).trans (succ32_natCast hwrap), hmin ▸ h.room, ?_⟩
  rw [hmin]
  exact h.items

/-- The first item is drawn and exchanged for the marker. -/
theorem Holds.take (h : Holds L node off d (x :: xs)) (hwrap : d + 1 < 2 ^ 31) :
    Holds L { node with
      deqidx := succ32 node.deqidx
      items := Function.update node.items (L.position d) .taken } off (d + 1) xs := by
  have hd := h.lt_size
  have hmin : min d L.size = d := Nat.min_eq_left (Nat.le_of_lt hd)
  have hmin' : min (d + 1) L.size = d + 1 := Nat.min_eq_left hd
  have hroom := h.room
  rw [hmin, List.length_cons] at hroom
  refine ⟨h.offset, (congrArg succ32 h.deqidx).trans (succ32_natCast hwrap), ?_, fun i hi => ?_⟩
  · rw [hmin']
    omega
  · rw [hmin']
    have hne : L.position (d + 1 + i) ≠ L.position d := fun heq =>
      absurd (L.position_inj (by omega) hd heq) (by omega)
    have hitem := h.items (i + 1) (Nat.succ_lt_succ hi)
    rw [hmin, List.getElem_cons_succ, ← Nat.add_assoc, Nat.add_right_comm] at hitem
    exact (Function.update_of_ne hne ..).trans hitem

theorem Path.congr (hp : Path L nodes front n off d xs m off' d')
    (heq : ∀ n ∈ front, nodes' n = nodes n) : Path L nodes' front n off d xs m off' d' := by
  induction hp with
  | nil => exact .nil
  | cons hholds hfull hnext _ ih =>
      have hn := heq _ List.mem_cons_self
      exact .cons (hn ▸ hholds) hfull (hn ▸ hnext)
        (ih fun n hn => heq n (List.mem_cons_of_mem _ hn))

/-- **The indices go on from one node to the next.** -/
theorem Path.index (hp : Path L nodes front n off d xs m off' d') :
    off' + min d' L.size = off + min d L.size + xs.length := by
  induction hp with
  | nil => rfl
  | cons _ hfull _ _ ih =>
      rw [ih, List.length_append, Nat.zero_min]
      omega

theorem Path.snoc (hp : Path L nodes front n off d xs m off' d')
    (hholds : Holds L (nodes m) off' d' zs) (hfull : min d' L.size + zs.length = L.size)
    (hnext : (nodes m).next = some s) :
    Path L nodes (front ++ [m]) n off d (xs ++ zs) s (off' + L.size) 0 := by
  induction hp with
  | nil => simpa using Path.cons hholds hfull hnext .nil
  | cons hholds' hfull' hnext' _ ih =>
      rw [List.append_assoc]
      exact .cons hholds' hfull' hnext' (ih hholds hfull hnext)

/-- The next cell takes an item in. -/
theorem Last.fill (h : Last L node off d xs) (hroom : min d L.size + xs.length < L.size)
    (hsize : L.size < 2 ^ 31) :
    Last L { node with
      enqidx := succ32 node.enqidx
      items := Function.update node.items (L.position (min d L.size + xs.length)) (.item a) } off d
      (xs ++ [a]) := by
  have hlength : (xs ++ [a]).length = xs.length + 1 := List.length_append
  have hne : ∀ i, i < L.size → i ≠ min d L.size + xs.length →
      L.position i ≠ L.position (min d L.size + xs.length) := fun i hi hne heq =>
    hne (L.position_inj hi hroom heq)
  refine ⟨⟨h.offset, h.deqidx, by omega, fun i hi => ?_⟩, ?_, fun i hi hi' => ?_, h.next⟩
  · rcases Nat.lt_succ_iff_lt_or_eq.mp (hlength ▸ hi) with hlt | rfl
    · rw [List.getElem_append_left hlt]
      exact (Function.update_of_ne (hne _ (by omega) (by omega)) ..).trans (h.items i hlt)
    · rw [List.getElem_concat_length rfl]
      exact Function.update_self ..
  · rw [hlength]
    exact (congrArg succ32 h.enqidx).trans (succ32_natCast (by omega))
  · rw [hlength] at hi
    exact (Function.update_of_ne (hne i hi' (by omega)) ..).trans (h.empty i (by omega) hi')

theorem Last.take (h : Last L node off d (x :: xs)) (hwrap : d + 1 < 2 ^ 31) :
    Last L { node with
      deqidx := succ32 node.deqidx
      items := Function.update node.items (L.position d) .taken } off (d + 1) xs := by
  have hd := h.lt_size
  have hlength : min d L.size + (x :: xs).length = min (d + 1) L.size + xs.length := by
    rw [List.length_cons]
    omega
  refine ⟨h.toHolds.take hwrap, ?_, fun i hi hi' => ?_, h.next⟩
  · rw [← hlength]
    exact h.enqidx
  · have hne : L.position i ≠ L.position d := fun heq =>
      absurd (L.position_inj hi' hd heq) (by omega)
    exact (Function.update_of_ne hne ..).trans (h.empty i (hlength ▸ hi) hi')

theorem Last.drained (h : Last L node off d xs) (hd : L.size ≤ d) (hwrap : d + 1 < 2 ^ 31) :
    Last L { node with deqidx := succ32 node.deqidx } off (d + 1) xs := by
  have hmin : min (d + 1) L.size = min d L.size := by omega
  refine ⟨h.toHolds.drained hd hwrap, ?_, ?_, h.next⟩
  · rw [hmin]
    exact h.enqidx
  · rw [hmin]
    exact h.empty

/-- A dequeue finds the last node empty: it spends the index on both sides. -/
theorem Last.spend (h : Last L node off d []) (hd : d < L.size) (hwrap : d + 1 < 2 ^ 31) :
    Last L { node with
      deqidx := succ32 node.deqidx
      enqidx := (d : Int) + 1
      items := Function.update node.items (L.position d) .taken } off (d + 1) [] := by
  have hmin : min d L.size = d := Nat.min_eq_left (Nat.le_of_lt hd)
  have hmin' : min (d + 1) L.size = d + 1 := Nat.min_eq_left hd
  refine ⟨⟨h.offset, (congrArg succ32 h.deqidx).trans (succ32_natCast hwrap), ?_,
    fun i hi => absurd hi (Nat.not_lt_zero i)⟩, ?_, fun i hi hi' => ?_, h.next⟩
  · rw [hmin']
    exact hd
  · rw [hmin']
    rfl
  · rw [hmin', List.length_nil] at hi
    have hne : L.position i ≠ L.position d := fun heq =>
      absurd (L.position_inj hi' hd heq) (by omega)
    refine (Function.update_of_ne hne ..).trans (h.empty i ?_ hi')
    rw [hmin, List.length_nil]
    omega

/-- What an enqueue that finds the node full leaves of it. -/
theorem Holds.link (h : Holds L node off d xs) (k : Int) (next : Option Nat) :
    Holds L { node with enqidx := k, next := next } off d xs :=
  ⟨h.offset, h.deqidx, h.room, h.items⟩

/-- A new node has its item in its first cell. -/
theorem last_newNode (off : Nat) : Last L (newNode L (.item a) (.ofNat off)) off 0 [a] := by
  have hpos := L.size_pos
  refine ⟨⟨rfl, rfl, ?_, fun i hi => ?_⟩, ?_, fun i hi hi' => ?_, rfl⟩
  · rw [Nat.zero_min, List.length_singleton]
    omega
  · obtain rfl : i = 0 := Nat.lt_one_iff.mp hi
    simp [newNode]
  · simp [newNode]
  · rw [Nat.zero_min, List.length_singleton] at hi
    have hne : L.position i ≠ L.position 0 := fun heq =>
      absurd (L.position_inj hi' hpos heq) (by omega)
    simp [newNode, hne]

end Nodes

/-! ### A call -/

/-- The answers of a list to the calls. -/
def answers : List Nat → List (Tid × Call) → List SizedEvent
  | _, [] => []
  | xs, (t, .enqueue a) :: calls => .queue (.retEnq t a) :: answers (xs ++ [a]) calls
  | xs, (t, .dequeue) :: calls =>
      .queue (.retDeq t (xs.head?.elim .empty .item)) :: answers xs.tail calls
  | xs, (t, .estimateSize) :: calls => .retSize t (.ofNat xs.length) :: answers xs calls

def isReturn : SizedEvent → Bool
  | .queue (.retEnq _ _) | .queue (.retDeq _ _) | .retSize _ _ => true
  | _ => false

/-- The answers of the queue. -/
def returns (history : List SizedEvent) : List SizedEvent := history.filter isReturn

/-- `new` returns an address that was not used before. -/
def FreeAddress (c : Config Shared SizedLocal SizedEvent) (t : Tid) (i : SizedInput) : Prop :=
  ∀ item ltail, c.locals t = .queue (.enqNewNode item ltail) → c.shared.status i.addr = .unallocated

section Calls

variable {maxThreads p : Nat} {t : Tid} {g g' : Shared} {l l' : Local} {es : List Event}
  {history out : List SizedEvent} {Q : Config Shared SizedLocal SizedEvent → Prop}
  {front live xs ys zs : List Nat} {off d off' d' n m s a x : Nat}

/-- Thread `t`, at `l` after `history`, comes to the end of its call, and then `Q` holds. -/
abbrev Ends (L : Layout) (maxThreads : Nat) (t : Tid)
    (Q : Config Shared SizedLocal SizedEvent → Prop) (g : Shared) (l : SizedLocal)
    (history : List SizedEvent) : Prop :=
  (sizedProgram L maxThreads).Finishes FreeAddress t Q
    ⟨g, Function.update (fun _ => .queue .idle) t l, history⟩

/-- The control states inside a call that do not allocate. -/
def Plain : Local → Prop
  | .idle | .enqNewNode _ _ => False
  | _ => True

theorem Plain.ne_idle (hl : Plain l) : l ≠ .idle := by
  rintro rfl
  exact hl

theorem Plain.free (hl : Plain l) (i : SizedInput) :
    FreeAddress ⟨g, Function.update (fun _ => .queue .idle) t (.queue l), history⟩ t i := by
  intro item ltail heq
  obtain rfl : l = .enqNewNode item ltail := by simpa using heq
  exact hl.elim

theorem sizedStep_queue (hl : l ≠ .idle) {i : SizedInput}
    (hstep : step L maxThreads t i.queue g l = some (g', l', es)) :
    sizedStep L maxThreads t i g (.queue l) = some (g', .queue l', es.map .queue) := by
  simp [sizedStep, hl, hstep]

/-- A step of the queue. -/
theorem ends_step (hl : Plain l) (hstep : ∀ i : SizedInput, ∃ g' l' es,
      step L maxThreads t i.queue g l = some (g', l', es)
        ∧ Ends L maxThreads t Q g' (.queue l') (history ++ es.map .queue)) :
    Ends L maxThreads t Q g (.queue l) history := by
  have hbusy : SizedLocal.queue l ≠ (sizedProgram L maxThreads).idle := fun heq =>
    hl.ne_idle (SizedLocal.queue.inj heq)
  refine .next hbusy ⟨{}, hl.free _⟩ fun i _ => ?_
  obtain ⟨g', l', es, heq, hends⟩ := hstep i
  exact ⟨_, _, _, sizedStep_queue hl.ne_idle heq, hends⟩

/-- A step that depends on nothing that the program text leaves open. -/
theorem ends_next (hl : Plain l)
    (hstep : ∀ i : SizedInput, step L maxThreads t i.queue g l = some (g', l', es))
    (hends : Ends L maxThreads t Q g' (.queue l') (history ++ es.map .queue)) :
    Ends L maxThreads t Q g (.queue l) history :=
  ends_step hl fun i => ⟨g', l', es, hstep i, hends⟩

theorem returns_append {history' : List SizedEvent} :
    returns (history ++ history') = returns history ++ returns history' :=
  List.filter_append ..

/-- The call is over, the queue holds `xs`, and its answers are `out`. -/
def Answered (L : Layout) (p : Nat) (xs : List Nat) (out : List SizedEvent)
    (c : Config Shared SizedLocal SizedEvent) : Prop :=
  (∀ u, c.locals u = .queue .idle) ∧ Contains L p c.shared xs ∧ returns c.history = out

theorem Represents.setSlot (hr : Represents L g front off d ys off' d' zs) (j : Nat)
    (q : Option Nat) : Represents L (g.setSlot t j q) front off d ys off' d' zs :=
  ⟨hr.path, hr.last, hr.store.nodup, hr.store.used, hr.store.free⟩

/-- The call has returned. -/
theorem answered_idle (hc : Contains L p g xs) {e : SizedEvent} (he : isReturn e = true)
    (hout : returns history = out) :
    Ends L maxThreads t (Answered L p xs (out ++ [e])) g (.queue .idle) (history ++ [e]) := by
  refine .idle (by simp [sizedProgram]) ⟨fun u => ?_, hc, ?_⟩
  · by_cases hu : u = t
    · simp [hu]
    · simp [hu]
  · rw [returns_append, hout]
    simp [returns, he]

/-! ### Enqueues -/

/-- The last steps of an enqueue whose item is in its cell. -/
theorem filled_ends (hc : Contains L p (g.setSlot t kHpTail none) xs)
    (hout : returns history = out) :
    Ends L maxThreads t (Answered L p xs (out ++ [.queue (.retEnq t a)])) g (.queue (.enqNowCell a))
      history := by
  refine ends_step trivial fun i => ⟨_, _, _, rfl, ?_⟩
  refine ends_next trivial (fun j => rfl) (ends_next trivial (fun j => rfl) ?_)
  refine answered_idle hc rfl ?_
  simp [returns, isReturn, ← hout]

/-- The nodes before the last one are other nodes. -/
theorem Store.ne_tail (hs : Store g (front ++ [g.tail])) {q : Nat} (hq : q ∈ front) : q ≠ g.tail :=
  (List.nodup_append.mp hs.nodup).2.2 q hq _ (List.mem_singleton_self _)

/-- The index drawn is that of a free cell. -/
theorem cell_ends (hr : Represents L g front off d ys off' d' zs) (hsize : L.size < 2 ^ 31)
    (hroom : min d' L.size + zs.length < L.size) (hd : d ≤ p) (hoff : off' ≤ p * L.size)
    (hout : returns history = out) :
    Ends L maxThreads t (Answered L p (ys ++ zs ++ [a]) (out ++ [.queue (.retEnq t a)])) g
      (.queue (.enqFetchAdd a g.tail)) history := by
  let k := min d' L.size + zs.length
  let g₁ := g.setNode g.tail { g.nodes g.tail with enqidx := succ32 (g.nodes g.tail).enqidx }
  let g₂ := g₁.setCell L g.tail k (.item a)
  have hidx : (g.nodes g.tail).enqidx = (k : Int) := hr.last.enqidx
  have hfetch : ∀ i : SizedInput, step L maxThreads t i.queue g (.enqFetchAdd a g.tail)
      = some (g₁, .enqCasCell a g.tail k, []) := fun i => by
    have hk : ¬ (g.nodes g.tail).enqidx > (L.size : Int) - 1 := by omega
    simp only [step, if_neg hk, ← hidx, g₁]
  have hcas : ∀ i : SizedInput, step L maxThreads t i.queue g₁ (.enqCasCell a g.tail k)
      = some (g₂, .enqNowCell a, [.fill t a g.tail k]) := fun i => by
    have hpos : ¬ (k : Int) < 0 := by omega
    have hempty : g₁.cell L g.tail k = .empty := by
      simpa [g₁, Shared.cell] using hr.last.empty k (Nat.le_refl _) hroom
    simp only [step, if_neg hpos, if_pos hempty, g₂]
  refine ends_next trivial hfetch (ends_next trivial hcas (filled_ends ?_ ?_))
  · have hlast : g₂.nodes g.tail = { g.nodes g.tail with
        enqidx := succ32 (g.nodes g.tail).enqidx
        items := Function.update (g.nodes g.tail).items (L.position k) (.item a) } := by
      simp [g₂, g₁, Shared.setCell]
    have hr' : Represents L g₂ front off d ys off' d' (zs ++ [a]) := by
      refine ⟨hr.path.congr fun q hq => ?_, ?_, hr.store.nodup, hr.store.used, hr.store.free⟩
      · simp [g₂, g₁, hr.store.ne_tail hq]
      · exact hlast ▸ hr.last.fill hroom hsize
    exact ⟨front, off, d, ys, off', d', _, List.append_assoc .., hd, hoff, hr'.setSlot _ _⟩
  · simp [returns, isReturn, ← hout]

/-- The new node is linked behind the full one. -/
theorem Represents.link (hr : Represents L g front off d ys off' d' zs)
    (hfull : min d' L.size + zs.length = L.size) (hs : g.status s = .unallocated)
    (htail : g'.nodes g.tail = { g.nodes g.tail with
      enqidx := succ32 (g.nodes g.tail).enqidx, next := some s })
    (hnew : g'.nodes s = newNode L (.item a) (.ofNat (off' + L.size)))
    (hnodes : ∀ q, q ≠ g.tail → q ≠ s → g'.nodes q = g.nodes q) (hhead : g'.head = g.head)
    (htail' : g'.tail = s) (hstatus : g'.status = Function.update g.status s .allocated) :
    Represents L g' (front ++ [g.tail]) off d (ys ++ zs) (off' + L.size) 0 [a] := by
  have hused : ∀ q ∈ front ++ [g.tail], q ≠ s := fun q hq heq => hr.store.used q hq (heq ▸ hs)
  refine ⟨?_, ?_, ?_, fun q hq => ?_, ?_⟩
  · rw [hhead, htail']
    refine (hr.path.congr fun q hq => ?_).snoc ?_ hfull ?_
    · exact hnodes q (hr.store.ne_tail hq) (hused q (List.mem_append_left _ hq))
    · rw [htail]
      exact hr.last.toHolds.link _ _
    · rw [htail]
  · rw [htail', hnew]
    exact last_newNode _
  · rw [htail']
    refine List.nodup_append.mpr ⟨hr.store.nodup, List.nodup_singleton s, fun q hq r hr heq => ?_⟩
    exact hused q hq (heq.trans (List.mem_singleton.mp hr))
  · rw [hstatus]
    by_cases hqs : q = s
    · simp [hqs]
    · rw [Function.update_of_ne hqs]
      rw [htail', List.mem_append, List.mem_singleton, or_iff_left hqs] at hq
      exact hr.store.used q hq
  · obtain ⟨bound, hbound⟩ := hr.store.free
    refine ⟨max bound (s + 1), fun q hq => ?_⟩
    rw [hstatus, Function.update_of_ne (by omega)]
    exact hbound q (by omega)

/-- The node is full, and a new one takes the item. -/
theorem node_ends (hr : Represents L g front off d ys off' d' zs)
    (hfull : min d' L.size + zs.length = L.size) (hd : d ≤ p) (hoff : off' + L.size ≤ p * L.size)
    (hout : returns history = out) :
    Ends L maxThreads t (Answered L p (ys ++ zs ++ [a]) (out ++ [.queue (.retEnq t a)])) g
      (.queue (.enqFetchAdd a g.tail)) history := by
  let g₁ := g.setNode g.tail { g.nodes g.tail with enqidx := succ32 (g.nodes g.tail).enqidx }
  have hidx : (g.nodes g.tail).enqidx = (L.size : Int) := hfull ▸ hr.last.enqidx
  have hnone : (g₁.nodes g.tail).next = none := by simpa [g₁] using hr.last.next
  have hfetch : ∀ i : SizedInput, step L maxThreads t i.queue g (.enqFetchAdd a g.tail)
      = some (g₁, .enqCheckTail a g.tail, []) := fun i => by
    have hk : (g.nodes g.tail).enqidx > (L.size : Int) - 1 := by omega
    simp only [step, if_pos hk, g₁]
  have hcheck : ∀ i : SizedInput, step L maxThreads t i.queue g₁ (.enqCheckTail a g.tail)
      = some (g₁, .enqLoadNext a g.tail, []) := fun i => by
    simp [step, g₁]
  have hload : ∀ i : SizedInput, step L maxThreads t i.queue g₁ (.enqLoadNext a g.tail)
      = some (g₁, .enqNewNode a g.tail, []) := fun i => by
    simp only [step, hnone]
  refine ends_next trivial hfetch (ends_next trivial hcheck (ends_next trivial hload ?_))
  refine .next (by simp [sizedProgram]) ?_ fun i hfree => ?_
  · obtain ⟨bound, hbound⟩ := hr.store.free
    exact ⟨{ addr := bound }, fun _ _ _ => hbound bound (Nat.le_refl _)⟩
  have hs : g.status i.addr = .unallocated := hfree a g.tail (by simp)
  have htail : g.tail ≠ i.addr := fun heq => hr.store.used g.tail (by simp) (heq ▸ hs)
  let new := newNode L (.item a) (.ofNat (off' + L.size))
  let g₂ := (g₁.setStatus i.addr .allocated).setNode i.addr new
  let g₃ := g₂.setNode g.tail { g₂.nodes g.tail with next := some i.addr }
  let g₄ : Shared := { g₃ with tail := i.addr }
  have hoffset : (g₁.nodes g.tail).startIndexOffset + .ofNat L.size = .ofNat (off' + L.size) := by
    have hstart : (g₁.nodes g.tail).startIndexOffset = .ofNat off' := by
      simpa [g₁] using hr.last.offset
    rw [hstart, UInt64.ofNat_add]
  have hnew : step L maxThreads t i.queue g₁ (.enqNewNode a g.tail)
      = some (g₂, .enqCasNext a g.tail i.addr, [.alloc t i.addr]) := by
    have hs' : g₁.status i.queue.addr = .unallocated := hs
    simp only [step, if_pos hs', hoffset]
    rfl
  refine ⟨_, _, _, sizedStep_queue (by simp) hnew, ?_⟩
  have hlink : ∀ j : SizedInput, step L maxThreads t j.queue g₂ (.enqCasNext a g.tail i.addr)
      = some (g₃, .enqNowLinked a g.tail i.addr, [.link t i.addr a]) := fun j => by
    have hnext : (g₂.nodes g.tail).next = none := by
      rw [Shared.setNode_of_ne _ _ _ htail, Shared.setStatus_nodes]
      exact hnone
    simp only [step, if_pos hnext, g₃]
  have hswing : ∀ j : SizedInput, step L maxThreads t j.queue g₃ (.enqCasTail a g.tail i.addr)
      = some (g₄, .enqClear a, []) := fun j => by
    have heq : g₃.tail = g.tail := rfl
    simp only [step, if_pos heq, g₄]
  refine ends_next trivial hlink (ends_step trivial fun j => ⟨_, _, _, rfl, ?_⟩)
  refine ends_next trivial (fun j => rfl) (ends_next trivial hswing ?_)
  refine ends_next trivial (fun j => rfl) (answered_idle ?_ rfl ?_)
  · have hr' : Represents L g₄ (front ++ [g.tail]) off d (ys ++ zs) (off' + L.size) 0 [a] := by
      refine hr.link hfull hs ?_ ?_ (fun q hq hq' => ?_) rfl rfl rfl
      · simp [g₄, g₃, g₂, g₁, htail]
      · simp [g₄, g₃, g₂, Ne.symm htail, new]
      · simp [g₄, g₃, g₂, g₁, hq, hq']
    exact
      ⟨front ++ [g.tail], off, d, ys ++ zs, off' + L.size, 0, [a], rfl, hd, hoff, hr'.setSlot _ _⟩
  · simp [returns, isReturn, ← hout]

/-- The loop of `protect` on `tail`, which nobody moves meanwhile. -/
theorem protectTail_ends
    (hends : Ends L maxThreads t Q (g.setSlot t kHpTail (some g.tail))
      (.queue (.enqFetchAdd a g.tail)) history) :
    Ends L maxThreads t Q g (.queue (.enqProtect a none)) history := by
  have hagain : ∀ i : SizedInput,
      step L maxThreads t i.queue (g.setSlot t kHpTail (some g.tail)) (.enqProtect a (some g.tail))
        = some (g.setSlot t kHpTail (some g.tail), .enqFetchAdd a g.tail, []) := fun i => by
    simp [step, Shared.setSlot]
  refine ends_next trivial (fun i => rfl) (ends_next trivial (fun i => rfl) ?_)
  refine ends_next trivial hagain ?_
  simpa using hends

/-- **An enqueue puts its item behind the others.** -/
theorem enqueue_ends (hc : Contains L p g xs) (hsize : L.size < 2 ^ 31)
    (hout : returns history = out) :
    Ends L maxThreads t (Answered L (p + 1) (xs ++ [a]) (out ++ [.queue (.retEnq t a)])) g
      (.queue (.enqProtect a none)) history := by
  obtain ⟨front, off, d, ys, off', d', zs, rfl, hd, hoff, hr⟩ := hc
  have hmul : (p + 1) * L.size = p * L.size + L.size := Nat.succ_mul ..
  refine protectTail_ends ?_
  have hr' := hr.setSlot kHpTail (some g.tail) (t := t)
  rcases Nat.lt_or_eq_of_le hr.last.room with hroom | hfull
  · exact cell_ends hr' hsize hroom (by omega) (by omega) hout
  · exact node_ends hr' hfull (by omega) (by omega) hout

/-! ### Retiring a node -/

/-- **The scan of the retired nodes comes to its end**, and the list is as it was. -/
theorem scan_ends (hs : Store g live) (scan : Option Scan)
    (hends : ∀ g' : Shared, g'.nodes = g.nodes → g'.head = g.head → g'.tail = g.tail →
      Store g' live → Ends L maxThreads t Q g' (.queue (.deqProtect none)) history) :
    Ends L maxThreads t Q g (.queue (afterScan scan)) history := by
  -- By induction on the steps left.
  induction hleft : scanLeft maxThreads (g.hp.retiredList t).length scan using Nat.strongRecOn
    generalizing g scan with
  | _ left ih =>
  subst hleft
  cases scan with
  | none => exact hends g rfl rfl rfl hs
  | some scan =>
      let r := scanStep maxThreads t g.hp scan
      let g₁ : Shared := { g with hp := r.1 }
      have hless : scanLeft maxThreads (r.1.retiredList t).length r.2.1
          < scanLeft maxThreads (g.hp.retiredList t).length (some scan) := scanLeft_scanStep
      refine ends_next trivial (fun i => rfl) ?_
      rw [List.map_nil, List.append_nil]
      cases hobj : r.2.2 with
      | none => exact ih _ hless (g := g₁) ⟨hs.nodup, hs.used, hs.free⟩ r.2.1 hends rfl
      | some obj =>
          refine ih _ hless (g := g₁.setStatus obj .deleted) ⟨hs.nodup, fun n hn => ?_, ?_⟩ r.2.1
            hends rfl
          · by_cases hno : n = obj
            · simp [hno]
            · rw [Shared.setStatus_of_ne _ _ _ hno]
              exact hs.used n hn
          · obtain ⟨bound, hbound⟩ := hs.free
            refine ⟨max bound (obj + 1), fun n hn => ?_⟩
            rw [Shared.setStatus_of_ne _ _ _ (by omega)]
            exact hbound n (by omega)

/-! ### Dequeues -/

/-- The loop of `protect` on `head`, which nobody moves meanwhile. -/
theorem protectHead_ends
    (hends :
      Ends L maxThreads t Q (g.setSlot t kHpHead (some g.head)) (.queue (.deqFetchAdd g.head))
      history) : Ends L maxThreads t Q g (.queue (.deqProtect none)) history := by
  have hagain : ∀ i : SizedInput,
      step L maxThreads t i.queue (g.setSlot t kHpHead (some g.head)) (.deqProtect (some g.head))
        = some (g.setSlot t kHpHead (some g.head), .deqFetchAdd g.head, []) := fun i => by
    simp [step, Shared.setSlot]
  refine ends_next trivial (fun i => rfl) (ends_next trivial (fun i => rfl) ?_)
  refine ends_next trivial hagain ?_
  simpa using hends

/-- Node `n` has become `node`, and that is all that the queue sees. -/
structure Becomes (g g' : Shared) (n : Nat) (node : Node) : Prop where
  node : g'.nodes n = node
  others : ∀ q, q ≠ n → g'.nodes q = g.nodes q
  head : g'.head = g.head
  tail : g'.tail = g.tail
  status : g'.status = g.status

/-- The last step of a dequeue. -/
theorem clear_ends {v : Slot} (hc : Contains L p (g.setSlot t kHpHead none) xs)
    (hout : returns history = out) :
    Ends L maxThreads t (Answered L p xs (out ++ [.queue (.retDeq t v)])) g (.queue (.deqClear v))
      history :=
  ends_next trivial (fun _ => rfl) (answered_idle hc rfl hout)

/-- The first item of the node is taken. -/
theorem take_ends (hholds : Holds L (g.nodes n) off d (x :: xs)) (hout : returns history = out)
    (hc : ∀ g', Becomes g g' n { g.nodes n with
        deqidx := succ32 (g.nodes n).deqidx
        items := Function.update (g.nodes n).items (L.position d) .taken } → Contains L p g' ys) :
    Ends L maxThreads t (Answered L p ys (out ++ [.queue (.retDeq t (.item x))])) g
      (.queue (.deqFetchAdd n)) history := by
  let g₁ := g.setNode n { g.nodes n with deqidx := succ32 (g.nodes n).deqidx }
  let g₂ := g₁.setCell L n d .taken
  have hd := hholds.lt_size
  have hcell : g₁.cell L n d = .item x := by simpa [g₁, Shared.cell] using hholds.head
  have hpos : ¬ (d : Int) < 0 := by omega
  have hfetch : ∀ i : SizedInput, step L maxThreads t i.queue g (.deqFetchAdd n)
      = some (g₁, .deqLoadCell n d, [.claim t n d]) := fun i => by
    have hidx := hholds.deqidx
    have hk : ¬ (g.nodes n).deqidx > (L.size : Int) - 1 := by omega
    simp only [step, if_neg hk, ← hidx, g₁]
  have hload : ∀ i : SizedInput, step L maxThreads t i.queue g₁ (.deqLoadCell n d)
      = some (g₁, .deqExchange n d, []) := fun i => by
    simp [step, hpos, hcell]
  have hexchange : ∀ i : SizedInput, step L maxThreads t i.queue g₁ (.deqExchange n d)
      = some (g₂, .deqNowLin (.item x), [.take t n d (.item x)]) := fun i => by
    simp [step, hcell, g₂]
  refine ends_next trivial hfetch (ends_next trivial hload (ends_next trivial hexchange ?_))
  refine ends_step trivial fun _ => ⟨_, _, _, rfl, ends_next trivial (fun j => rfl) ?_⟩
  refine clear_ends (hc _ ⟨?_, fun q hq => ?_, rfl, rfl, rfl⟩) ?_
  · simp [g₂, g₁, Shared.setCell, Shared.setSlot]
  · simp [g₂, g₁, Shared.setSlot, hq]
  · simp [returns, isReturn, ← hout]

/-- A node is drained. -/
theorem drained_ends (hholds : Holds L (g.nodes n) off d []) (hd : L.size ≤ d)
    (hends : ∀ g', Becomes g g' n { g.nodes n with deqidx := succ32 (g.nodes n).deqidx } →
      Ends L maxThreads t Q g' (.queue (.deqLoadNext n)) history) :
    Ends L maxThreads t Q g (.queue (.deqFetchAdd n)) history := by
  let g₁ := g.setNode n { g.nodes n with deqidx := succ32 (g.nodes n).deqidx }
  have hfetch : ∀ i : SizedInput, step L maxThreads t i.queue g (.deqFetchAdd n)
      = some (g₁, .deqLoadNext n, []) := fun i => by
    have hidx := hholds.deqidx
    have hk : (g.nodes n).deqidx > (L.size : Int) - 1 := by omega
    simp only [step, if_pos hk, g₁]
  refine ends_next trivial hfetch ?_
  rw [List.map_nil, List.append_nil]
  exact hends g₁ ⟨by simp [g₁], fun q hq => by simp [g₁, hq], rfl, rfl, rfl⟩

/-- The last node has free cells only, and a dequeue spends the first of them. -/
theorem spend_ends (hlast : Last L (g.nodes n) off d []) (hd : d < L.size)
    (hout : returns history = out)
    (hc : ∀ g', Becomes g g' n { g.nodes n with
        deqidx := succ32 (g.nodes n).deqidx
        enqidx := (d : Int) + 1
        items := Function.update (g.nodes n).items (L.position d) .taken } → Contains L p g' ys) :
    Ends L maxThreads t (Answered L p ys (out ++ [.queue (.retDeq t .empty)])) g
      (.queue (.deqFetchAdd n)) history := by
  let g₁ := g.setNode n { g.nodes n with deqidx := succ32 (g.nodes n).deqidx }
  let g₂ := g₁.setCell L n d .taken
  let g₃ := g₂.setNode n { g₂.nodes n with enqidx := (d : Int) + 1 }
  have hmin : min d L.size = d := Nat.min_eq_left (Nat.le_of_lt hd)
  have henq : (g.nodes n).enqidx = d := by
    rw [hlast.enqidx, hmin, List.length_nil, Nat.add_zero]
  have hcell : g₁.cell L n d = .empty := by
    have hempty := hlast.empty d (by rw [hmin, List.length_nil, Nat.add_zero]) hd
    simpa [g₁, Shared.cell] using hempty
  have hpos : ¬ (d : Int) < 0 := by omega
  have hfetch : ∀ i : SizedInput, step L maxThreads t i.queue g (.deqFetchAdd n)
      = some (g₁, .deqLoadCell n d, [.claim t n d]) := fun i => by
    have hidx := hlast.deqidx
    have hk : ¬ (g.nodes n).deqidx > (L.size : Int) - 1 := by omega
    simp only [step, if_neg hk, ← hidx, g₁]
  have hload : ∀ i : SizedInput, step L maxThreads t i.queue g₁ (.deqLoadCell n d)
      = some (g₁, .deqLoadEnqidx n d, []) := fun i => by
    simp [step, hpos, hcell]
  have hbehind : ∀ i : SizedInput, step L maxThreads t i.queue g₁ (.deqLoadEnqidx n d)
      = some (g₁, .deqExchange n d, []) := fun i => by
    simp [step, g₁, henq]
  have hexchange : ∀ i : SizedInput, step L maxThreads t i.queue g₁ (.deqExchange n d)
      = some (g₂, .deqReloadEnqidx n d, [.take t n d .empty]) := fun i => by
    simp [step, hcell, g₂]
  have hreload : ∀ i : SizedInput, step L maxThreads t i.queue g₂ (.deqReloadEnqidx n d)
      = some (g₂, .deqCheckNext n d d, []) := fun i => by
    have henq₂ : (g₂.nodes n).enqidx = d := by simp [g₂, g₁, Shared.setCell, henq]
    have hle : (d : Int) + 1 ≥ d := by omega
    simp [step, henq₂, hle]
  have hcheck : ∀ i : SizedInput, step L maxThreads t i.queue g₂ (.deqCheckNext n d d)
      = some (g₂, .deqCasEnqidx n d d, []) := fun i => by
    have hnext : (g₂.nodes n).next = none := by simpa [g₂, g₁, Shared.setCell] using hlast.next
    simp [step, hnext]
  have hcas : ∀ i : SizedInput, step L maxThreads t i.queue g₂ (.deqCasEnqidx n d d)
      = some (g₃, .deqClear .empty, []) := fun i => by
    have henq₂ : (g₂.nodes n).enqidx = d := by simp [g₂, g₁, Shared.setCell, henq]
    simp [step, henq₂, g₃]
  refine ends_next trivial hfetch (ends_next trivial hload (ends_next trivial hbehind ?_))
  refine ends_next trivial hexchange (ends_next trivial hreload (ends_next trivial hcheck ?_))
  refine ends_next trivial hcas (clear_ends (hc _ ⟨?_, fun q hq => ?_, rfl, rfl, rfl⟩) ?_)
  · simp [g₃, g₂, g₁, Shared.setCell, Shared.setSlot]
  · simp [g₃, g₂, g₁, Shared.setSlot, hq]
  · simp [returns, isReturn, ← hout]

/-- The answer of a list to a dequeue. -/
def answer (xs : List Nat) : Slot := xs.head?.elim .empty .item

/-- A dequeue on the last node. -/
theorem dequeue_last (hlast : Last L (g.nodes g.tail) off d zs) (hhead : g.head = g.tail)
    (hs : Store g [g.tail]) (hwrap : d + 1 < 2 ^ 31) (hd : d + 1 ≤ p) (hoff : off ≤ p * L.size)
    (hout : returns history = out) :
    Ends L maxThreads t (Answered L p zs.tail (out ++ [.queue (.retDeq t (answer zs))])) g
      (.queue (.deqFetchAdd g.tail)) history := by
  have hkeep : ∀ {g' : Shared} {node : Node} {ws : List Nat}, Becomes g g' g.tail node →
      Last L node off (d + 1) ws → Contains L p g' ws := fun {g' node ws} hb hlast => by
    refine ⟨[], off, d + 1, [], off, d + 1, ws, rfl, hd, hoff, ?_, ?_, ?_⟩
    · rw [hb.head, hb.tail, hhead]
      exact .nil
    · rw [hb.tail, hb.node]
      exact hlast
    · exact ⟨List.nodup_singleton _, by rw [hb.status, hb.tail]; exact hs.used,
        by rw [hb.status]; exact hs.free⟩
  cases zs with
  | cons x zs => exact take_ends hlast.toHolds hout fun g' hb => hkeep hb (hlast.take hwrap)
  | nil =>
      rcases Nat.lt_or_ge d L.size with hlt | hge
      · exact spend_ends hlast hlt hout fun g' hb => hkeep hb (hlast.spend hlt hwrap)
      · refine drained_ends hlast.toHolds hge fun g' hb => ?_
        have hload : ∀ i : SizedInput, step L maxThreads t i.queue g' (.deqLoadNext g.tail)
            = some (g', .deqClear .empty, []) := fun i => by
          have hnext : (g'.nodes g.tail).next = none := by
            rw [hb.node]
            exact hlast.next
          simp only [step, hnext]
        refine ends_next trivial hload (clear_ends ?_ (by simpa using hout))
        exact hkeep ⟨hb.node, hb.others, hb.head, hb.tail, hb.status⟩ (hlast.drained hge hwrap)

/-- A dequeue on a node that is full, behind which it goes on when the node is drained. -/
theorem dequeue_first (hfirst : Holds L (g.nodes g.head) off d xs)
    (hfull : min d L.size + xs.length = L.size) (hnext : (g.nodes g.head).next = some m)
    (hpath : Path L g.nodes front m (off + L.size) 0 ys g.tail off' d')
    (hlast : Last L (g.nodes g.tail) off' d' zs) (hs : Store g (g.head :: (front ++ [g.tail])))
    (hwrap : d + 1 < 2 ^ 31) (hd : d + 1 ≤ p) (hoff : off' ≤ p * L.size)
    (hout : returns history = out)
    (hmore : ∀ g' history', Represents L g' front (off + L.size) 0 ys off' d' zs →
      returns history' = out →
      Ends L maxThreads t
        (Answered L p (ys ++ zs).tail (out ++ [.queue (.retDeq t (answer (ys ++ zs)))])) g'
        (.queue (.deqProtect none)) history') :
    Ends L maxThreads t
      (Answered L p (xs ++ ys ++ zs).tail (out ++ [.queue (.retDeq t (answer (xs ++ ys ++ zs)))])) g
      (.queue (.deqFetchAdd g.head)) history := by
  have hne : ∀ q ∈ front ++ [g.tail], q ≠ g.head := fun q hq heq =>
    (List.nodup_cons.mp hs.nodup).1 (heq ▸ hq)
  have hothers : ∀ {g' : Shared} {node : Node}, Becomes g g' g.head node →
      Path L g'.nodes front m (off + L.size) 0 ys g'.tail off' d'
        ∧ Last L (g'.nodes g'.tail) off' d' zs := fun {g' node} hb => by
    rw [hb.tail]
    refine ⟨hpath.congr fun q hq => hb.others q (hne q (by simp [hq])), ?_⟩
    rw [hb.others g.tail (hne g.tail (by simp))]
    exact hlast
  cases xs with
  | cons x xs =>
      refine take_ends hfirst hout fun g' hb => ?_
      obtain ⟨hpath', hlast'⟩ := hothers hb
      have hd' := hfirst.lt_size
      refine ⟨g.head :: front, off, d + 1, xs ++ ys, off', d', zs, rfl, hd, hoff, ?_, hlast', ?_⟩
      · rw [hb.head]
        have hlink : (g'.nodes g.head).next = some m := by
          rw [hb.node]
          exact hnext
        refine .cons ?_ ?_ hlink hpath'
        · rw [hb.node]
          exact hfirst.take hwrap
        · rw [List.length_cons] at hfull
          omega
      · exact ⟨by rw [hb.tail]; exact hs.nodup, by rw [hb.status, hb.tail]; exact hs.used,
          by rw [hb.status]; exact hs.free⟩
  | nil =>
      have hge : L.size ≤ d := by
        rw [List.length_nil] at hfull
        omega
      refine drained_ends hfirst hge fun g' hb => ?_
      obtain ⟨hpath', hlast'⟩ := hothers hb
      have hload : ∀ i : SizedInput, step L maxThreads t i.queue g' (.deqLoadNext g.head)
          = some (g', .deqCasHead g.head m, []) := fun i => by
        have hnext' : (g'.nodes g.head).next = some m := by
          rw [hb.node]
          exact hnext
        simp only [step, hnext']
      have hcas : ∀ i : SizedInput, step L maxThreads t i.queue g' (.deqCasHead g.head m)
          = some ({ g' with head := m }, .deqRetire g.head, []) := fun i => by
        simp only [step, if_pos hb.head]
      refine ends_next trivial hload (ends_next trivial hcas (ends_next trivial (fun i => rfl) ?_))
      have hs' : Store g' (front ++ [g'.tail]) := by
        refine ⟨?_, fun q hq => ?_, by rw [hb.status]; exact hs.free⟩
        · rw [hb.tail]
          exact (List.nodup_cons.mp hs.nodup).2
        · rw [hb.status]
          rw [hb.tail] at hq
          exact hs.used q (List.mem_cons_of_mem _ hq)
      let g₂ : Shared := { g' with
        head := m
        hp := g'.hp.setRetired t (g'.hp.retiredList t ++ [g.head]) }
      have hs₂ : Store g₂ (front ++ [g'.tail]) := ⟨hs'.nodup, hs'.used, hs'.free⟩
      simp only [List.map_nil, List.append_nil]
      refine scan_ends hs₂ _ fun g'' hnodes hhead htail hs'' => hmore g'' _ ⟨?_, ?_, ?_⟩ hout
      · rw [hnodes, hhead, htail]
        exact hpath'
      · rw [hnodes, htail]
        exact hlast'
      · rw [htail]
        exact hs''

/-- **A dequeue takes the oldest item**, and removes the drained nodes on its way. -/
theorem dequeue_ends (hr : Represents L g front off d ys off' d' zs) (hwrap : d + 1 < 2 ^ 31)
    (hd : d + 1 ≤ p) (hoff : off' ≤ p * L.size) (hout : returns history = out) :
    Ends L maxThreads t
      (Answered L p (ys ++ zs).tail (out ++ [.queue (.retDeq t (answer (ys ++ zs)))])) g
      (.queue (.deqProtect none)) history := by
  induction front generalizing g off d ys history with
  | nil =>
      refine protectHead_ends ?_
      obtain ⟨hpath, hlast, hs⟩ := hr.setSlot kHpHead (some g.head) (t := t)
      generalize hg : g.setSlot t kHpHead (some g.head) = g' at *
      have hhead : g.head = g'.head := hg ▸ rfl
      rw [hhead]
      generalize hn : g'.head = n at hpath
      cases hpath
      exact dequeue_last hlast hn hs hwrap hd hoff hout
  | cons n front ih =>
      refine protectHead_ends ?_
      obtain ⟨hpath, hlast, hs⟩ := hr.setSlot kHpHead (some g.head) (t := t)
      generalize hg : g.setSlot t kHpHead (some g.head) = g' at *
      have hhead : g.head = g'.head := hg ▸ rfl
      rw [hhead]
      generalize hn : g'.head = n' at hpath
      cases hpath with
      | cons hfirst hfull hnext hpath =>
          subst hn
          exact dequeue_first hfirst hfull hnext hpath hlast hs hwrap hd hoff hout
            fun g' history' hr hout => ih hr (by omega) (by omega) hout

/-! ### Sizes -/

/-- What `estimateSize` computes for a node is an index of the queue. -/
theorem index_eq {node : Node} (hoffset : node.startIndexOffset = .ofNat off) (k : Nat)
    (hk : k < 2 ^ 64) (hsize : L.size < 2 ^ 64) : node.index L k = .ofNat (off + min k L.size) := by
  have hofInt : UInt64.ofInt (k : Int) = .ofNat k := by
    have hmod : ((k : Int) % 2 ^ 64).toNat = k := by omega
    rw [UInt64.ofInt, hmod]
  have hmin : min (UInt64.ofNat L.size) (.ofNat k) = .ofNat (min k L.size) := by
    have hle : UInt64.ofNat L.size ≤ .ofNat k ↔ L.size ≤ k := UInt64.ofNat_le_iff_le hsize hk
    change (if UInt64.ofNat L.size ≤ .ofNat k then UInt64.ofNat L.size else .ofNat k) = _
    simp only [hle]
    split
    · rw [Nat.min_eq_right ‹_›]
    · rw [Nat.min_eq_left (by omega)]
  rw [Node.index, hofInt, hmin, hoffset, Nat.add_comm, UInt64.ofNat_add]

/-- The first node. -/
theorem Represents.head (hr : Represents L g front off d ys off' d' zs) :
    ∃ xs, Holds L (g.nodes g.head) off d xs := by
  obtain ⟨hpath, hlast, -⟩ := hr
  generalize g.head = n at hpath ⊢
  cases hpath with
  | nil => exact ⟨zs, hlast.toHolds⟩
  | cons hfirst => exact ⟨_, hfirst⟩

/-- A step of `estimateSize`. -/
theorem ends_size {l l' : SizeLocal} (hstep : sizeStep L t g l = (g', .inl l'))
    (hends : Ends L maxThreads t Q g' (.size l') history) :
    Ends L maxThreads t Q g (.size l) history := by
  refine .next (by simp [sizedProgram]) ⟨{}, fun item ltail heq => by simp at heq⟩ fun i _ => ?_
  refine ⟨g', .size l', [], ?_, by simpa using hends⟩
  simp [sizedProgram, sizedStep, hstep]

theorem Represents.contains (hr : Represents L g front off d ys off' d' zs) (hd : d ≤ p)
    (hoff : off' ≤ p * L.size) : Contains L p g (ys ++ zs) :=
  ⟨front, off, d, ys, off', d', zs, rfl, hd, hoff, hr⟩

/-- **`estimateSize` tells the number of items.** -/
theorem estimateSize_ends (hr : Represents L g front off d ys off' d' zs) (hsize : L.size < 2 ^ 31)
    (hwrap : d < 2 ^ 31) (hlast : off' + L.size < 2 ^ 63) (hd : d ≤ p) (hoff : off' ≤ p * L.size)
    (hout : returns history = out) :
    Ends L maxThreads t
      (Answered L p (ys ++ zs) (out ++ [.retSize t (.ofNat (ys ++ zs).length)])) g
      (.size (.protectHead none)) history := by
  let g₁ := g.setSlot t kHpHead (some g.head)
  let g₂ := g₁.setSlot t kHpTail (some g.tail)
  let first := off + min d L.size
  let size := (ys ++ zs).length
  have hr₂ : Represents L g₂ front off d ys off' d' zs := (hr.setSlot kHpHead _).setSlot kHpTail _
  have hagain : sizeStep L t g₁ (.protectHead (some g.head))
      = (g₁, .inl (.protectTail g.head none)) := by
    simp [sizeStep, g₁, Shared.setSlot]
  have htailAgain : sizeStep L t g₂ (.protectTail g.head (some g.tail))
      = (g₂, .inl (.loadEnqidx g.head g.tail)) := by
    simp [sizeStep, g₂, g₁, Shared.setSlot]
  have hloadTail : sizeStep L t g₂ (.loadEnqidx g.head g.tail)
      = (g₂, .inl (.loadDeqidx g.head (.ofNat (first + size)))) := by
    have hindex := hr.path.index
    have hroom := hr.last.room
    have htotal : off' + min (min d' L.size + zs.length) L.size = first + size := by
      simp only [first, size, List.length_append]
      omega
    have henq : (g₂.nodes g.tail).enqidx = (min d' L.size + zs.length : Nat) := hr₂.last.enqidx
    have hnode : (g₂.nodes g.tail).index L (g₂.nodes g.tail).enqidx = .ofNat (first + size) := by
      rw [henq, ← htotal]
      exact index_eq hr₂.last.offset _ (by omega) (by omega)
    simp only [sizeStep, hnode]
  have hloadHead : sizeStep L t g₂ (.loadDeqidx g.head (.ofNat (first + size)))
      = (g₂, .inl (.clear 0 (.ofNat size))) := by
    obtain ⟨xs, hfirst⟩ := hr₂.head
    have hnode : (g₂.nodes g.head).index L (g₂.nodes g.head).deqidx = .ofNat first := by
      have hdeq : (g₂.nodes g.head).deqidx = d := hfirst.deqidx
      rw [hdeq]
      exact index_eq hfirst.offset d (by omega) (by omega)
    have hlt : first + size < 2 ^ 64 := by
      have hindex := hr.path.index
      have hroom := hr.last.room
      simp only [first, size, List.length_append]
      omega
    have hgt : UInt64.ofNat (first + size) > .ofNat first ↔ first < first + size :=
      UInt64.ofNat_lt_iff_lt (by exact Nat.lt_of_le_of_lt (Nat.le_add_right ..) hlt) hlt
    have hsub : UInt64.ofNat (first + size) - .ofNat first = .ofNat size := by
      rw [← UInt64.ofNat_sub (Nat.le_add_right ..), Nat.add_sub_cancel_left]
    simp only [sizeStep, hnode, hgt, hsub]
    split
    · rfl
    · have hzero : size = 0 := by omega
      rw [hzero]
      rfl
  refine ends_size rfl (ends_size rfl (ends_size hagain (ends_size rfl (ends_size rfl ?_))))
  refine ends_size htailAgain (ends_size hloadTail (ends_size hloadHead (ends_size rfl ?_)))
  refine .next (by simp [sizedProgram]) ⟨{}, fun item ltail heq => by simp at heq⟩ fun i _ => ?_
  refine ⟨_, _, _, rfl, answered_idle ?_ rfl hout⟩
  exact Represents.contains ((hr₂.setSlot _ _).setSlot _ _) hd hoff

/-! ### The calls -/

/-- **A call is answered as a list would answer it.** -/
theorem call_ends (maxThreads : Nat) (t : Tid) (hsize : L.size < 2 ^ 31) (hp : p + 1 < 2 ^ 31)
    (hc : Contains L p g xs) (hout : returns history = out) (call : Call) :
    ∃ g' l' e, (∀ i : SizedInput, i.call = some call →
        sizedStep L maxThreads t i g (.queue .idle) = some (g', l', [e])) ∧
      ∃ xs' a, (∀ calls, answers xs ((t, call) :: calls) = a :: answers xs' calls) ∧
        Ends L maxThreads t (Answered L (p + 1) xs' (out ++ [a])) g' l' (history ++ [e]) := by
  have hcall : ∀ e : SizedEvent, isReturn e = false → returns (history ++ [e]) = out :=
    fun e he => by
    simp [returns, he, ← hout]
  obtain ⟨front, off, d, ys, off', d', zs, rfl, hd, hoff, hr⟩ := id hc
  have hmul : (p + 1) * L.size = p * L.size + L.size := Nat.succ_mul ..
  have hmax : (p + 1) * L.size ≤ 2 ^ 31 * 2 ^ 31 :=
    Nat.mul_le_mul (Nat.le_of_lt hp) (Nat.le_of_lt hsize)
  cases call with
  | enqueue a =>
      refine ⟨g, .queue (.enqProtect a none), .queue (.call t (.enqueue a)), fun i hi => ?_, _, _,
        fun calls => rfl, enqueue_ends hc hsize (hcall _ rfl)⟩
      simp [sizedStep, step, SizedInput.queue, hi, Call.op]
  | dequeue =>
      refine ⟨g, .queue (.deqProtect none), .queue (.call t .dequeue), fun i hi => ?_, _, _,
        fun calls => rfl, dequeue_ends hr (by omega) (by omega) (by omega) (hcall _ rfl)⟩
      simp [sizedStep, step, SizedInput.queue, hi, Call.op]
  | estimateSize =>
      refine ⟨g, .size (.protectHead none), .callSize t, fun i hi => by simp [sizedStep, hi], _, _,
        fun calls => rfl, estimateSize_ends hr hsize (by omega) (by omega) (by omega) (by omega)
          (hcall _ rfl)⟩

/-- **Calls made one after another all end, and are answered as a list would answer them.** -/
theorem serves (hsize : L.size < 2 ^ 31) {c : Config Shared SizedLocal SizedEvent}
    (calls : List (Tid × Call)) (hp : p + calls.length < 2 ^ 31) (hc : Answered L p xs out c) :
    (sizedProgram L maxThreads).Serves FreeAddress
      (calls.map fun (t, call) => (t, { call := some call }))
      (fun c => returns c.history = out ++ answers xs calls) c := by
  induction calls generalizing p xs out c with
  | nil => simpa [Program.Serves, answers] using hc.2.2
  | cons head calls ih =>
      obtain ⟨t, call⟩ := head
      obtain ⟨hidle, hcontains, hout⟩ := hc
      rw [List.length_cons] at hp
      obtain ⟨g', l', e, hstep, xs', a, hanswers, hends⟩ :=
        call_ends maxThreads t hsize (by omega) hcontains hout call
      have hlocals : c.locals = fun _ => .queue .idle := funext hidle
      refine ⟨⟨g', Function.update (fun _ => .queue .idle) t l', c.history ++ [e]⟩, ?_, ?_⟩
      · rw [Program.next, hlocals]
        exact congrArg (Option.map _) (hstep { call := some call } rfl)
      · refine hends.mono fun d hd => ?_
        rw [hanswers, List.append_cons]
        exact ih (by omega) hd

/-- Enqueues made one after another all end, and the items are there. -/
theorem serves_enqueues (hsize : L.size < 2 ^ 31) {c : Config Shared SizedLocal SizedEvent}
    (hc : Answered L p xs out c) (k : Nat) :
    (sizedProgram L maxThreads).Serves FreeAddress
      (List.replicate k (t, { call := some (.enqueue a) }))
      (fun c => Contains L (p + k) c.shared (xs ++ List.replicate k a)) c := by
  induction k generalizing p xs out c with
  | zero => simpa [Program.Serves] using hc.2.1
  | succ k ih =>
      obtain ⟨hidle, hcontains, hout⟩ := hc
      have hlocals : c.locals = fun _ => .queue .idle := funext hidle
      have hcall : returns (c.history ++ [.queue (.call t (.enqueue a))]) = out := by
        simp [returns, isReturn, ← hout]
      have hends : Ends L maxThreads t _ c.shared (.queue (.enqProtect a none)) _ :=
        enqueue_ends hcontains hsize hcall
      refine ⟨⟨c.shared, Function.update (fun _ => .queue .idle) t (.queue (.enqProtect a none)),
        c.history ++ [.queue (.call t (.enqueue a))]⟩, ?_, hends.mono fun d hd => ?_⟩
      · rw [Program.next, hlocals]
        rfl
      · have hrest := ih hd
        rwa [List.append_assoc, List.singleton_append, ← List.replicate_succ, Nat.add_assoc,
          Nat.add_comm 1] at hrest

end Calls

/-- The queue is empty at first. -/
theorem answered_init (L : Layout) (maxThreads : Nat) :
    Answered L 0 [] [] (sizedProgram L maxThreads).init := by
  refine
    ⟨fun _ => rfl, ⟨[], 0, 0, [], 0, 0, [], rfl, Nat.le_refl _, Nat.zero_le _, .nil, ?_, ?_⟩, rfl⟩
  · refine ⟨⟨rfl, rfl, ?_, fun i hi => absurd hi (Nat.not_lt_zero i)⟩, ?_, fun i _ hi => ?_, rfl⟩
    · simp
    · simp [sizedProgram, Program.init, program]
    · simp [sizedProgram, Program.init, program, newNode]
  · refine ⟨List.nodup_singleton _, fun n hn => ?_, 1, fun n hn => ?_⟩
    · obtain rfl : n = sentinelNode := by simpa [sizedProgram, program, Program.init] using hn
      exact Status.noConfusion
    · have hne : n ≠ sentinelNode := by
        simp only [sentinelNode]
        omega
      simp [sizedProgram, program, Program.init, hne]

/-! ### The queue without its size -/

section Queue

variable {maxThreads : Nat} {t : Tid} {i : SizedInput} {d : Config Shared Local Event}
  {Q : Config Shared SizedLocal SizedEvent → Prop}

/-- `new` returns an address that was not used before. -/
def NewAddress (d : Config Shared Local Event) (t : Tid) (i : Input) : Prop :=
  ∀ item ltail, d.locals t = .enqNewNode item ltail → d.shared.status i.addr = .unallocated

/-- Where the queue is when `estimateSize` is never called. -/
def sized (d : Config Shared Local Event) : Config Shared SizedLocal SizedEvent :=
  ⟨d.shared, fun u => .queue (d.locals u), d.history.map .queue⟩

/-- What the queue is asked. -/
def callOf : AtomicQueue.Op Nat → Call
  | .enqueue item => .enqueue item
  | .dequeue => .dequeue

def sizedInput (i : Input) : SizedInput := ⟨i.op.map callOf, i.ts, i.addr⟩

theorem call_sizedInput (i : Input) : (sizedInput i).call ≠ some .estimateSize := by
  obtain ⟨op, ts, addr⟩ := i
  rcases op with _ | ⟨_ | _⟩ <;> simp [sizedInput, callOf]

theorem queue_sizedInput (i : Input) : (sizedInput i).queue = i := by
  obtain ⟨op, ts, addr⟩ := i
  rcases op with _ | ⟨_ | _⟩ <;> rfl

theorem next_sized (hi : i.call ≠ some .estimateSize ∨ d.locals t ≠ .idle) :
    (sizedProgram L maxThreads).next (sized d) t i
      = ((program L maxThreads).next d t i.queue).map sized := by
  have hnot : ¬ (d.locals t = .idle ∧ i.call = some .estimateSize) := fun ⟨hidle, hcall⟩ =>
    hi.elim (· hcall) (· hidle)
  simp only [Program.next, sized.eq_def d, sizedProgram, sizedStep, program, if_neg hnot]
  cases step L maxThreads t i.queue d.shared (d.locals t) with
  | none => rfl
  | some r =>
      have hlocals : Function.update (fun u => SizedLocal.queue (d.locals u)) t (.queue r.2.1)
          = fun u => .queue (Function.update d.locals t r.2.1 u) :=
        funext fun u => (Function.apply_update (fun _ => SizedLocal.queue) d.locals t r.2.1 u).symm
      simp only [Option.map_some, hlocals, sized, List.map_append]

theorem free_sized {j : Input} : FreeAddress (sized d) t (sizedInput j) ↔ NewAddress d t j := by
  simp only [FreeAddress, NewAddress, sized, sizedInput, SizedLocal.queue.injEq]

theorem finishes_queue {c : Config Shared SizedLocal SizedEvent}
    (h : (sizedProgram L maxThreads).Finishes FreeAddress t Q c) (hc : c = sized d) :
    (program L maxThreads).Finishes NewAddress t (fun d => Q (sized d)) d := by
  induction h generalizing d with
  | idle hidle hQ =>
      subst hc
      exact .idle (SizedLocal.queue.inj hidle) hQ
  | step hbusy hsome hdefined _ ih =>
      subst hc
      have hbusy : d.locals t ≠ .idle := fun heq => hbusy (congrArg SizedLocal.queue heq)
      have hnext : ∀ j, (sizedProgram L maxThreads).next (sized d) t (sizedInput j)
          = ((program L maxThreads).next d t j).map sized := fun j => by
        rw [next_sized (.inr hbusy), queue_sizedInput]
      refine .step hbusy ?_ (fun j hj => ?_) fun j d' hj hd' => ?_
      · obtain ⟨i, hi⟩ := hsome
        exact ⟨i.queue, fun item ltail hl => hi item ltail (congrArg SizedLocal.queue hl)⟩
      · simpa [hnext] using hdefined (sizedInput j) (free_sized.mpr hj)
      · exact ih (sizedInput j) _ (free_sized.mpr hj) (by rw [hnext, hd', Option.map_some]) rfl

/-- Calls that are made one after another all end when the queue is not asked for its size
either. -/
theorem serves_queue {calls : List (Tid × Input)}
    (h : (sizedProgram L maxThreads).Serves FreeAddress
      (calls.map fun (t, j) => (t, sizedInput j)) Q (sized d)) :
    (program L maxThreads).Serves NewAddress calls (fun d => Q (sized d)) d := by
  induction calls generalizing d with
  | nil => exact h
  | cons head calls ih =>
      obtain ⟨t, j⟩ := head
      obtain ⟨c, hnext, hfinishes⟩ := h
      rw [next_sized (.inl (call_sizedInput j)), queue_sizedInput] at hnext
      obtain ⟨d', hd', rfl⟩ := Option.map_eq_some_iff.mp hnext
      exact ⟨d', hd', (finishes_queue hfinishes rfl).mono fun _ hQ => ih hQ⟩

end Queue

/-- **Used by one thread at a time, FAAArrayQueue is a FIFO list.** Whatever the layout of the
nodes, the calls and the threads that make them, every call comes to its end, every dequeue returns
the oldest item that is there or `nullptr` when there is none, and `estimateSize` returns how many
there are. -/
theorem serves_items (hsize : L.size < 2 ^ 31) (maxThreads : Nat) (calls : List (Tid × Call))
    (hcalls : calls.length < 2 ^ 31) :
    (sizedProgram L maxThreads).Serves FreeAddress
      (calls.map fun (t, call) => (t, { call := some call }))
      (fun c => returns c.history = answers [] calls) (sizedProgram L maxThreads).init :=
  serves hsize calls (by omega) (answered_init L maxThreads)

/-- Two threads and two nodes of one cell each. -/
theorem serves_items_two :
    (sizedProgram (.identity 1 (by decide)) 2).Serves FreeAddress
      ([(0, .enqueue 7), (1, .enqueue 8), (0, .estimateSize), (1, .dequeue), (0, .dequeue),
        (0, .dequeue)].map fun (t, call) => (t, { call := some call }))
      (fun c => returns c.history = [.queue (.retEnq 0 7), .queue (.retEnq 1 8), .retSize 0 2,
        .queue (.retDeq 1 (.item 7)), .queue (.retDeq 0 (.item 8)), .queue (.retDeq 0 .empty)])
      (sizedProgram (.identity 1 (by decide)) 2).init :=
  serves_items (by decide) 2 [(0, .enqueue 7), (1, .enqueue 8), (0, .estimateSize), (1, .dequeue),
    (0, .dequeue), (0, .dequeue)] (by decide)

end QueueFairness.FAAArrayQueue.Sequential
