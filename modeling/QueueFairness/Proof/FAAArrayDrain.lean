import QueueFairness.BenchmarkDriver
import QueueFairness.Proof.FAAArraySequential
import QueueFairness.Proof.HazardTables

/-!
# The destructor of the array queue

`while (dequeue(0) != nullptr);`, when nobody is inside a call. It retires the nodes that it has
drained. The first of them is still published when it is retired, and so the scan stops in the first
row; when the second is retired the first is not published any more, and the scan goes through all
rows. On a queue that was never filled it comes to no scan at all.
-/

namespace QueueFairness.FAAArrayQueue

open Interleaving HazardPointers FAAArrayQueue.Sequential
open BenchmarkDriver (arrayCaller)

variable {L : Layout} {maxThreads : Nat} {t : Tid} {i : Input} {g g' : Shared} {l l' : Local}
  {es : List Event} {off d off' d' n m x row obj : Nat} {xs ys zs front : List Nat}

/-! ### A queue that was never filled -/

/-- The control states of a dequeue that retires nothing. -/
def Local.Draws : Local → Prop
  | .idle | .deqProtect _ | .deqPublish _ | .deqFetchAdd _ | .deqLoadNext _ | .deqLoadCell _ _
  | .deqLoadEnqidx _ _ | .deqSpin _ _ _ | .deqExchange _ _ | .deqNowLin _ | .deqStampLin _ _
  | .deqReloadEnqidx _ _ | .deqCheckNext _ _ _ | .deqCasEnqidx _ _ _ | .deqClear _ => True
  | _ => False

/-- A dequeue that finds no next node retires nothing. -/
theorem draws_step (hnext : ∀ n, (g.nodes n).next = none) (hl : l.Draws)
    (hop : l = .idle → ∀ op, i.op = some op → op = .dequeue)
    (hstep : step L maxThreads t i g l = some (g', l', es)) :
    l'.Draws ∧ ∀ n, (g'.nodes n).next = none := by
  have hset : ∀ {n : Nat} {node : Node}, node.next = none →
      ∀ q, ((g.setNode n node).nodes q).next = none := fun {n node} hnode q => by
    by_cases hq : q = n
    · simp [hq, hnode]
    · simp [hq, hnext]
  cases l with
  | idle =>
      obtain ⟨op, hi, heq⟩ := Option.map_eq_some_iff.mp hstep
      obtain rfl := hop rfl op hi
      cases heq
      exact ⟨trivial, hnext⟩
  | deqFetchAdd lhead =>
      simp only [step] at hstep
      split at hstep <;> cases hstep <;> exact ⟨trivial, hset (hnext lhead)⟩
  | deqLoadNext lhead =>
      simp only [step, hnext] at hstep
      cases hstep
      exact ⟨trivial, hnext⟩
  | deqExchange lhead idx =>
      simp only [step] at hstep
      split at hstep <;> cases hstep <;> exact ⟨trivial, hset (hnext lhead)⟩
  | deqCasEnqidx lhead idx enqidx =>
      cases hstep
      refine ⟨trivial, ?_⟩
      split
      · exact hset (hnext lhead)
      · exact hnext
  | deqProtect | deqLoadEnqidx | deqSpin | deqReloadEnqidx | deqCheckNext =>
      simp only [step] at hstep
      split at hstep <;> cases hstep <;> exact ⟨trivial, hnext⟩
  | deqLoadCell =>
      simp only [step] at hstep
      split at hstep
      · cases hstep
      split at hstep <;> cases hstep <;> exact ⟨trivial, hnext⟩
  | deqPublish | deqNowLin | deqStampLin | deqClear =>
      cases hstep
      exact ⟨trivial, hnext⟩
  | _ => exact hl.elim

/-- When only the first thread makes calls, all of them dequeues, it comes to no scan. -/
theorem Reach.draws {ok : Config Shared Local Event → Tid → Input → Prop}
    (hok : ∀ {c t i op}, ok c t i → c.locals t = .idle → i.op = some op → t = 0 ∧ op = .dequeue)
    {c : Config Shared Local Event} (h : (program L maxThreads).Reach ok c) :
    (c.locals 0).Draws := by
  suffices hall : (∀ u, (c.locals u).Draws ∧ (u ≠ 0 → c.locals u = .idle))
      ∧ ∀ n, (c.shared.nodes n).next = none from (hall.1 0).1
  induction h with
  | init => exact ⟨fun _ => ⟨trivial, fun _ => rfl⟩, fun _ => rfl⟩
  | @step c _ t i _ hi hnext ih =>
      obtain ⟨hlocals, hnone⟩ := ih
      obtain ⟨g, l, es, hstep, rfl⟩ := Program.next_eq_some hnext
      have ht : t = 0 := by
        by_contra hne
        have hidle := (hlocals t).2 hne
        rw [hidle] at hstep
        obtain ⟨op, hop, -⟩ := Option.map_eq_some_iff.mp hstep
        exact hne (hok hi hidle hop).1
      subst ht
      obtain ⟨hl, hnone'⟩ := draws_step hnone (hlocals 0).1
        (fun hidle op hop => (hok hi hidle hop).2) hstep
      refine ⟨fun u => ?_, hnone'⟩
      by_cases hu : u = 0
      · subst hu
        exact ⟨by simpa using hl, fun h => absurd rfl h⟩
      · simpa [hu] using (hlocals u)

theorem Local.Draws.inBounds (hl : l.Draws) : ∀ a ∈ l.tableAccesses 0, a.InBounds := by
  have hown : (slotOf 0 kHpHead).InBounds := inBounds_own (by decide) (by decide)
  cases l with
  | deqPublish | deqClear => exact List.forall_mem_singleton.mpr hown
  | enqPublish | enqClear | deqRetire | deqScan => exact hl.elim
  | _ => exact fun _ ha => absurd ha (List.not_mem_nil)

/-! ### A queue that is being filled -/

/-- The control states of an enqueue. -/
def Local.Fills : Local → Prop
  | .idle | .enqProtect _ _ | .enqPublish _ _ | .enqFetchAdd _ _ | .enqCheckTail _ _
  | .enqLoadNext _ _ | .enqHelpTail _ _ _ | .enqNewNode _ _ | .enqCasNext _ _ _
  | .enqNowLinked _ _ _ | .enqStampLinked _ _ _ _ | .enqCasTail _ _ _ | .enqCasCell _ _ _
  | .enqNowCell _ | .enqStampCell _ _ | .enqClear _ => True
  | _ => False

/-- Only the first thread is inside a call, an enqueue: the table has nothing but what it has
published. -/
structure Filling (g : Shared) (l : Local) : Prop where
  fills : l.Fills
  clear : ∀ u k, u ≠ 0 ∨ k ≠ kHpTail → g.hp.hp u k = none
  idle : l = .idle → g.hp.hp 0 kHpTail = none
  retired : g.hp.retiredList 0 = []

theorem Filling.all_clear (h : Filling g .idle) (u k : Nat) : g.hp.hp u k = none := by
  by_cases hown : u = 0 ∧ k = kHpTail
  · obtain ⟨rfl, rfl⟩ := hown
    exact h.idle rfl
  · exact h.clear u k (Classical.not_and_iff_not_or_not.mp hown)

theorem filling_step (h : Filling g l) (hop : l = .idle → ∃ a, i.op = some (.enqueue a))
    (hstep : step L maxThreads 0 i g l = some (g', l', es)) : Filling g' l' := by
  obtain ⟨hl, hclear, hidle, hretired⟩ := h
  have hset : ∀ {p : Option Nat} {u k}, u ≠ 0 ∨ k ≠ kHpTail →
      (g.hp.setSlot 0 kHpTail p).hp u k = none := fun {p u k} hother => by
    rcases hother with hu | hk
    · simpa [HazardPointers.setSlot, hu] using hclear u k (.inl hu)
    · by_cases hu : u = 0 <;> simpa [HazardPointers.setSlot, hu, hk] using hclear u k (.inr hk)
  cases l with
  | idle =>
      obtain ⟨a, hi⟩ := hop rfl
      simp only [step, hi] at hstep
      cases hstep
      exact ⟨trivial, hclear, Local.noConfusion, hretired⟩
  | enqPublish item ret =>
      cases hstep
      exact ⟨trivial, fun u k => hset, Local.noConfusion, hretired⟩
  | enqClear item =>
      cases hstep
      refine ⟨trivial, fun u k => hset, fun _ => ?_, hretired⟩
      simp [Shared.setSlot, HazardPointers.setSlot]
  | enqProtect | enqFetchAdd | enqCheckTail | enqLoadNext | enqNewNode | enqCasNext =>
      simp only [step] at hstep
      split at hstep <;> cases hstep <;> exact ⟨trivial, hclear, Local.noConfusion, hretired⟩
  | enqHelpTail | enqCasTail =>
      cases hstep
      refine ⟨trivial, ?_, Local.noConfusion, ?_⟩ <;> split <;> assumption
  | enqCasCell =>
      simp only [step] at hstep
      split at hstep
      · cases hstep
      split at hstep <;> cases hstep <;> exact ⟨trivial, hclear, Local.noConfusion, hretired⟩
  | enqNowLinked | enqStampLinked | enqNowCell | enqStampCell =>
      cases hstep
      exact ⟨trivial, hclear, Local.noConfusion, hretired⟩
  | _ => exact hl.elim

/-! ### The stretches of a dequeue -/

/-- The queue when the first item of the first node is taken. -/
def Shared.take (L : Layout) (g : Shared) (d : Nat) : Shared :=
  (g.setNode g.head { g.nodes g.head with deqidx := succ32 (g.nodes g.head).deqidx }).setCell L
    g.head d .taken

/-- The queue when the first node, which is drained and published, is removed. -/
def Shared.skip (g : Shared) (t : Tid) (m : Nat) : Shared :=
  let g' := g.setSlot t kHpHead (some g.head)
  { g'.setNode g.head { g.nodes g.head with deqidx := succ32 (g.nodes g.head).deqidx } with
    head := m }

theorem protect_steps (h : (program L maxThreads).Steps t {} (g.setSlot t kHpHead (some g.head))
      (.deqFetchAdd g.head) es g' l') :
    (program L maxThreads).Steps t {} g (.deqProtect none) es g' l' := by
  have hagain : step L maxThreads t {} (g.setSlot t kHpHead (some g.head))
      (.deqProtect (some g.head))
        = some (g.setSlot t kHpHead (some g.head), .deqFetchAdd g.head, []) := by
    simp [step, Shared.setSlot]
  exact .silent rfl (.silent rfl (.silent hagain h))

/-- A dequeue that finds an item in the first node. -/
theorem take_steps (hholds : Holds L (g.nodes g.head) off d (x :: xs)) :
    (program L maxThreads).Steps t {} g (.deqProtect none)
      ([.claim t g.head d, .take t g.head d (.item x), .stampDeq t (.item x) 0]
        ++ [.retDeq t (.item x)]) ((g.take L d).setSlot t kHpHead none) .idle := by
  let g₀ := g.setSlot t kHpHead (some g.head)
  let g₁ := g₀.setNode g.head { g.nodes g.head with deqidx := succ32 (g.nodes g.head).deqidx }
  let g₂ := g₁.setCell L g.head d .taken
  have hd := hholds.lt_size
  have hidx := hholds.deqidx
  have hcell : g₁.cell L g.head d = .item x := by simpa [g₁, Shared.cell] using hholds.head
  have hfetch : step L maxThreads t {} g₀ (.deqFetchAdd g.head)
      = some (g₁, .deqLoadCell g.head d, [.claim t g.head d]) := by
    have hk : ¬ (g.nodes g.head).deqidx > (L.size : Int) - 1 := by omega
    simp only [step, g₁, g₀, Shared.setSlot, if_neg hk, ← hidx]
  have hload : step L maxThreads t {} g₁ (.deqLoadCell g.head d)
      = some (g₁, .deqExchange g.head d, []) := by
    have hpos : ¬ (d : Int) < 0 := by omega
    simp [step, hpos, hcell]
  have hexchange : step L maxThreads t {} g₁ (.deqExchange g.head d)
      = some (g₂, .deqNowLin (.item x), [.take t g.head d (.item x)]) := by
    simp [step, hcell, g₂]
  have hclear : g₂.setSlot t kHpHead none = (g.take L d).setSlot t kHpHead none := by
    simp [g₂, g₁, g₀, Shared.take, Shared.setSlot, Shared.setCell, Shared.setNode,
      HazardPointers.setSlot]
  refine protect_steps (.emit hfetch (.silent hload (.emit hexchange ?_)))
  refine .silent rfl (.emit rfl (.emit ?_ .refl))
  exact hclear ▸ rfl

/-- A dequeue that finds the first node drained removes it. -/
theorem skip_steps (hholds : Holds L (g.nodes g.head) off d []) (hd : L.size ≤ d)
    (hnext : (g.nodes g.head).next = some m) :
    (program L maxThreads).Steps t {} g (.deqProtect none) [] (g.skip t m) (.deqRetire g.head) := by
  let g₀ := g.setSlot t kHpHead (some g.head)
  let g₁ := g₀.setNode g.head { g.nodes g.head with deqidx := succ32 (g.nodes g.head).deqidx }
  have hidx := hholds.deqidx
  have hfetch : step L maxThreads t {} g₀ (.deqFetchAdd g.head)
      = some (g₁, .deqLoadNext g.head, []) := by
    have hk : (g.nodes g.head).deqidx > (L.size : Int) - 1 := by omega
    simp only [step, g₁, g₀, Shared.setSlot, if_pos hk]
  have hload : step L maxThreads t {} g₁ (.deqLoadNext g.head)
      = some (g₁, .deqCasHead g.head m, []) := by
    have hnext' : (g₁.nodes g.head).next = some m := by simpa [g₁] using hnext
    simp only [step, hnext']
  have hcas : step L maxThreads t {} g₁ (.deqCasHead g.head m)
      = some (g.skip t m, .deqRetire g.head, []) := by
    have hhead : g₁.head = g.head := rfl
    simp only [step, if_pos hhead]
    rfl
  exact protect_steps (.silent hfetch (.silent hload (.silent hcas .refl)))

/-- The only node on the list is published, and the scan stops at once. -/
theorem retire_steps (hlist : g.hp.retiredList 0 = []) (hslot : g.hp.hp 0 kHpHead = some n)
    (hpos : 0 < maxThreads) : (program L maxThreads).Steps 0 {} g (.deqRetire n) []
      { g with hp := g.hp.setRetired 0 [n] } (.deqProtect none) := by
  let g₁ : Shared := { g with hp := g.hp.setRetired 0 [n] }
  have hretire : step L maxThreads 0 {} g (.deqRetire n)
      = some (g₁, .deqScan (.load 0 n 0 kHpHead), []) := by
    simp [step, hlist, scanFrom, hpos, afterScan, g₁, kHpHead, maxHPs]
  have hscan : step L maxThreads 0 {} g₁ (.deqScan (.load 0 n 0 kHpHead))
      = some (g₁, .deqProtect none, []) := by
    have hfound : (g₁.hp.hp 0 kHpHead == some n) = true := by simp [g₁, setRetired, hslot]
    simp only [step, scanStep, afterLoad, hfound, if_true]
    simp [scanFrom, g₁, setRetired, afterScan]
  exact .silent hretire (.silent hscan .refl)

/-- **An object that nobody has published is looked for in all rows.** -/
theorem scan_steps (hnone : ∀ u j, g.hp.hp u j ≠ some obj) (hrow : row < maxThreads) :
    (program L maxThreads).Steps 0 {} g (.deqScan (.load 0 obj 0 kHpHead)) [] g
      (.deqScan (.load 0 obj row kHpHead)) := by
  induction row with
  | zero => exact .refl
  | succ row ih =>
      have hhead : step L maxThreads 0 {} g (.deqScan (.load 0 obj row kHpHead))
          = some (g, .deqScan (.load 0 obj row kHpTail), []) := by
        simp [step, scanStep, afterLoad, hnone, kHpHead, kHpTail, afterScan]
      have htail : step L maxThreads 0 {} g (.deqScan (.load 0 obj row kHpTail))
          = some (g, .deqScan (.load 0 obj (row + 1) kHpHead), []) := by
        simp [step, scanStep, afterLoad, hnone, kHpHead, kHpTail, afterScan, hrow, maxHPs]
      exact (ih (by omega)).trans (.silent hhead (.silent htail .refl))

/-! ### The loop of the destructor -/

/-- The first two nodes, when there is another one behind. -/
theorem path_two {nodes : Nat → Node} {h : Nat}
    (hp : Path L nodes (n :: m :: front) h off d ys x off' d') :
    h = n ∧ ∃ xs xs' m', Holds L (nodes n) off d xs ∧ min d L.size + xs.length = L.size
      ∧ (nodes n).next = some m ∧ Holds L (nodes m) (off + L.size) 0 xs' ∧ xs'.length = L.size
      ∧ (nodes m).next = some m' := by
  cases hp with
  | cons hholds hfull hnext hp =>
      cases hp with
      | cons hholds' hfull' hnext' =>
          rw [Nat.zero_min, Nat.zero_add] at hfull'
          exact ⟨rfl, _, _, _, hholds, hfull, hnext, hholds', hfull', hnext'⟩

theorem path_length_le {nodes : Nat → Node} {h : Nat}
    (hp : Path L nodes front h off d ys x off' d') : ys.length ≤ front.length * L.size := by
  induction hp with
  | nil => exact Nat.zero_le _
  | cons hholds _ _ _ ih =>
      have hroom := hholds.room
      rw [List.length_append, List.length_cons, Nat.succ_mul]
      omega

/-- More items than two nodes hold are in three nodes at least. -/
theorem exists_two (hr : Represents L g front off d ys off' d' zs)
    (hmany : 2 * L.size < (ys ++ zs).length) : ∃ n m front', front = n :: m :: front' := by
  have hfront := path_length_le hr.path
  have hroom := hr.last.room
  rw [List.length_append] at hmany
  match front, hfront with
  | [], hfront | [_], hfront =>
      simp only [List.length_nil, List.length_singleton] at hfront
      omega
  | n :: m :: front', _ => exact ⟨n, m, front', rfl⟩

section Loop

variable {ok : Config Shared Local Event → Tid → Input → Prop} {N : Nat}
  {c : Config Shared Local Event}

/-- The first thread is between two calls of the destructor, which come after `N` others, and the
next one is to be made. -/
structure Draining (L : Layout) (maxThreads : Nat)
    (ok : Config Shared Local Event → Tid → Input → Prop) (N : Nat)
    (c : Config Shared Local Event) : Prop where
  alone : ∃ j, N ≤ j ∧ (program L maxThreads).Alone ok arrayCaller j c
    ∧ (j = N ∨ ∃ v, v ≠ .empty ∧ c.history.getLast? = some (.retDeq 0 v))
  idle : c.locals 0 = .idle
  clear : ∀ u k, c.shared.hp.hp u k = none

variable (hcall : ∀ {c}, Draining L maxThreads ok N c → ok c 0 { op := some .dequeue })
  (hbusy : ∀ d, ok d 0 {})

include hcall hbusy

/-- A call, as far as some steps of it lead. -/
theorem Draining.call (h : Draining L maxThreads ok N c)
    (hsteps : (program L maxThreads).Steps 0 {} c.shared (.deqProtect none) es g' l')
    (hquiet : ∀ e ∈ es, arrayCaller e = none) :
    ∃ c' j, N < j ∧ (program L maxThreads).Alone ok arrayCaller j c' ∧ c'.shared = g'
      ∧ c'.locals 0 = l' ∧ c'.history = c.history ++ [.call 0 .dequeue] ++ es := by
  obtain ⟨j, hj, halone, -⟩ := h.alone
  have hstep : (program L maxThreads).step 0 { op := some .dequeue } c.shared (c.locals 0)
      = some (c.shared, .deqProtect none, [.call 0 .dequeue]) := by
    rw [h.idle]
    rfl
  have hcalled := halone.snoc (k := 1) (hcall h) hstep fun u => by simp [arrayCaller, eq_comm]
  have hinside := hcalled.steps hbusy (by simp) hsteps hquiet
  exact ⟨_, j + 1, Nat.lt_succ_of_le hj, hinside, rfl, by simp, rfl⟩

/-- A call that finds an item. -/
theorem Draining.found (h : Draining L maxThreads ok N c)
    (hsteps : (program L maxThreads).Steps 0 {} c.shared (.deqProtect none)
      (es ++ [.retDeq 0 (.item x)]) g' .idle)
    (hquiet : ∀ e ∈ es, arrayCaller e = none) (hclear : ∀ u k, g'.hp.hp u k = none) :
    ∃ c', Draining L maxThreads ok N c' ∧ c'.shared = g' := by
  obtain ⟨c', j, hj, halone, rfl, hidle, hhistory⟩ :=
    h.call hcall hbusy hsteps (List.forall_mem_append.mpr ⟨hquiet, by simp [arrayCaller]⟩)
  refine ⟨c', ⟨⟨j, Nat.le_of_lt hj, halone, .inr ⟨.item x, by simp, ?_⟩⟩, hidle, hclear⟩, rfl⟩
  rw [hhistory, ← List.append_assoc, List.getLast?_concat]

/-- What draining the first node leaves alone. -/
structure Behind (g g' : Shared) : Prop where
  head : g'.head = g.head
  next : (g'.nodes g'.head).next = (g.nodes g.head).next
  nodes : ∀ n, n ≠ g.head → g'.nodes n = g.nodes n
  retired : g'.hp.retiredList = g.hp.retiredList

omit hcall hbusy in
theorem Behind.trans {g₁ : Shared} (h : Behind g g₁) (h' : Behind g₁ g') : Behind g g' where
  head := h'.head.trans h.head
  next := h'.next.trans h.next
  nodes n hn := (h'.nodes n (h.head ▸ hn)).trans (h.nodes n hn)
  retired := h'.retired.trans h.retired

omit hcall hbusy in
theorem behind_take (g : Shared) (t : Tid) (d : Nat) :
    Behind g ((g.take L d).setSlot t kHpHead none) := by
  refine ⟨rfl, ?_, fun n hn => ?_, rfl⟩
  · simp [Shared.take, Shared.setSlot, Shared.setCell]
  · simp [Shared.take, Shared.setSlot, hn]

omit hcall hbusy in
theorem clear_setSlot (hclear : ∀ u k, u ≠ t ∨ k ≠ kHpHead → g.hp.hp u k = none) :
    ∀ u k, (g.setSlot t kHpHead none).hp.hp u k = none := by
  intro u k
  by_cases hu : u = t
  · subst hu
    by_cases hk : k = kHpHead
    · simp [Shared.setSlot, HazardPointers.setSlot, hk]
    · simpa [Shared.setSlot, HazardPointers.setSlot, hk] using hclear u k (.inr hk)
  · simpa [Shared.setSlot, HazardPointers.setSlot, hu] using hclear u k (.inl hu)

/-- The first node is drained. -/
theorem Draining.node (h : Draining L maxThreads ok N c)
    (hholds : Holds L (c.shared.nodes c.shared.head) off d xs) (hwrap : d + xs.length < 2 ^ 31) :
    ∃ c', Draining L maxThreads ok N c' ∧ Behind c.shared c'.shared
      ∧ Holds L (c'.shared.nodes c'.shared.head) off (d + xs.length) [] := by
  induction xs generalizing c d with
  | nil => exact ⟨c, h, ⟨rfl, rfl, fun _ _ => rfl, rfl⟩, hholds⟩
  | cons x xs ih =>
      rw [List.length_cons] at hwrap ⊢
      have hquiet : ∀ e ∈ [Event.claim 0 c.shared.head d, .take 0 c.shared.head d (.item x),
          .stampDeq 0 (.item x) 0], arrayCaller e = none := by
        simp [arrayCaller]
      obtain ⟨c₁, h₁, heq⟩ := h.found hcall hbusy (take_steps hholds) hquiet
        (clear_setSlot (g := c.shared.take L d) fun u k _ => h.clear u k)
      have hbehind : Behind c.shared c₁.shared := heq ▸ behind_take c.shared 0 d
      have hholds₁ : Holds L (c₁.shared.nodes c₁.shared.head) off (d + 1) xs := by
        rw [heq]
        simpa [Shared.take, Shared.setSlot, Shared.setCell] using hholds.take (by omega)
      obtain ⟨c₂, h₂, hbehind₂, hholds₂⟩ := ih h₁ hholds₁ (by omega)
      refine ⟨c₂, h₂, hbehind.trans hbehind₂, ?_⟩
      rwa [Nat.add_assoc, Nat.add_comm 1] at hholds₂

/-- The first node is drained: the next call retires it, and finds an item in the one behind. -/
theorem Draining.retire_first (h : Draining L maxThreads ok N c)
    (hholds : Holds L (c.shared.nodes c.shared.head) off d []) (hd : L.size ≤ d)
    (hnext : (c.shared.nodes c.shared.head).next = some m) (hne : m ≠ c.shared.head)
    (hbehind : Holds L (c.shared.nodes m) off' 0 (x :: xs)) (hlist : c.shared.hp.retiredList 0 = [])
    (hpos : 0 < maxThreads) :
    ∃ c', Draining L maxThreads ok N c' ∧ c'.shared.head = m
      ∧ (c'.shared.nodes m).next = (c.shared.nodes m).next
      ∧ Holds L (c'.shared.nodes m) off' 1 xs
      ∧ c'.shared.hp.retiredList 0 = [c.shared.head] := by
  let g₁ := c.shared.skip 0 m
  let g₂ : Shared := { g₁ with hp := g₁.hp.setRetired 0 [c.shared.head] }
  have hnode : g₂.nodes m = c.shared.nodes m := by simp [g₂, g₁, Shared.skip, Shared.setSlot, hne]
  have hslot : g₁.hp.hp 0 kHpHead = some c.shared.head := by
    simp [g₁, Shared.skip, Shared.setNode, Shared.setSlot, HazardPointers.setSlot]
  have hbehind₂ : Holds L (g₂.nodes g₂.head) off' 0 (x :: xs) := hnode.symm ▸ hbehind
  have hskip : (program L maxThreads).Steps 0 {} c.shared (.deqProtect none) [] g₁
      (.deqRetire c.shared.head) := skip_steps hholds hd hnext
  have hretire : (program L maxThreads).Steps 0 {} g₁ (.deqRetire c.shared.head) [] g₂
      (.deqProtect none) := retire_steps hlist hslot hpos
  have htaken := hskip.trans (hretire.trans (take_steps hbehind₂))
  rw [List.nil_append, List.nil_append] at htaken
  have hclear : ∀ u k, ((g₂.take L 0).setSlot 0 kHpHead none).hp.hp u k = none := by
    refine clear_setSlot fun u k hother => ?_
    have hkeep : g₂.hp.hp u k = c.shared.hp.hp u k := by
      rcases hother with hu | hk
      · simp [g₂, g₁, Shared.skip, Shared.setNode, Shared.setSlot, HazardPointers.setSlot,
          setRetired, hu]
      · by_cases hu : u = 0 <;> simp [g₂, g₁, Shared.skip, Shared.setNode, Shared.setSlot,
          HazardPointers.setSlot, setRetired, hu, hk]
    exact hkeep.trans (h.clear u k)
  obtain ⟨c', h', heq⟩ := h.found hcall hbusy htaken (by simp [arrayCaller]) hclear
  have htake : Behind g₂ c'.shared := heq ▸ behind_take g₂ 0 0
  refine ⟨c', h', htake.head, ?_, ?_, ?_⟩
  · have hkeep := htake.next
    rw [htake.head] at hkeep
    exact hkeep.trans (congrArg Node.next hnode)
  · rw [heq]
    simpa [Shared.take, Shared.setSlot, Shared.setCell, g₂, g₁, Shared.skip] using
      hbehind₂.take (by decide)
  · rw [htake.retired]
    simp [g₂, setRetired]

/-- The first node is drained and another one was retired before: the next call looks for that one
in every row. -/
theorem Draining.retire_second (h : Draining L maxThreads ok N c)
    (hholds : Holds L (c.shared.nodes c.shared.head) off d []) (hd : L.size ≤ d)
    (hnext : (c.shared.nodes c.shared.head).next = some m) (hne : c.shared.head ≠ n)
    (hlist : c.shared.hp.retiredList 0 = [n]) (hrow : row < maxThreads) :
    ∃ c', (program L maxThreads).Reach ok c' ∧ c'.locals 0 = .deqScan (.load 0 n row kHpHead) := by
  let g₁ := c.shared.skip 0 m
  let g₂ : Shared := { g₁ with hp := g₁.hp.setRetired 0 [n, c.shared.head] }
  have hskip : (program L maxThreads).Steps 0 {} c.shared (.deqProtect none) [] g₁
      (.deqRetire c.shared.head) := skip_steps hholds hd hnext
  have hretire : step L maxThreads 0 {} g₁ (.deqRetire c.shared.head)
      = some (g₂, .deqScan (.load 0 n 0 kHpHead), []) := by
    have hpos : 0 < maxThreads := Nat.zero_lt_of_lt hrow
    have hlist₁ : g₁.hp.retiredList 0 = [n] := hlist
    simp [step, hlist₁, scanFrom, hpos, afterScan, g₂, kHpHead, maxHPs]
  have hnone : ∀ u k, g₂.hp.hp u k ≠ some n := by
    intro u k
    have hslot : g₂.hp.hp u k = if u = 0 ∧ k = kHpHead then some c.shared.head else none := by
      by_cases hu : u = 0 <;> by_cases hk : k = kHpHead <;> simp [g₂, g₁, Shared.skip,
        Shared.setNode, Shared.setSlot, HazardPointers.setSlot, setRetired, hu, hk, h.clear]
    rw [hslot]
    split
    · exact fun heq => hne (Option.some.inj heq)
    · exact Option.some_ne_none _ ∘ Eq.symm
  obtain ⟨c', j, -, halone, -, hl, -⟩ := h.call hcall hbusy
    (hskip.trans (.silent hretire (scan_steps hnone hrow))) (by simp)
  exact ⟨c', halone.reach, hl⟩

/-- **The destructor of a queue that fills more than two nodes looks at every row of the table.** -/
theorem Draining.exists_scan (h : Draining L maxThreads ok N c)
    (hr : Represents L c.shared (n :: m :: front) off d ys off' d' zs)
    (hlist : c.shared.hp.retiredList 0 = []) (hwrap : d + L.size < 2 ^ 31)
    (hrow : row < maxThreads) :
    ∃ c', (program L maxThreads).Reach ok c' ∧ c'.locals 0 = .deqScan (.load 0 n row kHpHead) := by
  obtain ⟨hpath, -, hstore⟩ := hr
  have hne : m ≠ n := fun heq => by
    have hnodup := hstore.nodup
    simp [heq] at hnodup
  obtain ⟨rfl, xs, xs', m', hfirst, hfull, hnext, hsecond, hfull', hnext'⟩ := path_two hpath
  obtain ⟨x, xs', rfl⟩ := List.exists_cons_of_length_pos (hfull' ▸ L.size_pos)
  rw [List.length_cons] at hfull'
  have hroom := hfirst.room
  obtain ⟨c₁, h₁, hb₁, hdrained₁⟩ := h.node hcall hbusy hfirst (by omega)
  have hnode₁ : c₁.shared.nodes m = c.shared.nodes m := hb₁.nodes m hne
  obtain ⟨c₂, h₂, hhead₂, hnext₂, hholds₂, hlist₂⟩ := h₁.retire_first hcall hbusy hdrained₁
    (by omega) (hb₁.next.trans hnext) (hb₁.head ▸ hne) (hnode₁ ▸ hsecond)
    ((congrFun hb₁.retired 0).trans hlist) (Nat.zero_lt_of_lt hrow)
  subst hhead₂
  obtain ⟨c₃, h₃, hb₃, hdrained₃⟩ := h₂.node hcall hbusy hholds₂ (by omega)
  have hnext₃ : (c₃.shared.nodes c₃.shared.head).next = some m' := by
    rw [hb₃.next, hnext₂, hnode₁]
    exact hnext'
  have hlist₃ : c₃.shared.hp.retiredList 0 = [c.shared.head] := by
    rw [hb₃.retired, hlist₂, hb₁.head]
  exact h₃.retire_second hcall hbusy hdrained₃ (by omega) hnext₃ (hb₃.head ▸ hne) hlist₃ hrow

end Loop

end QueueFairness.FAAArrayQueue
