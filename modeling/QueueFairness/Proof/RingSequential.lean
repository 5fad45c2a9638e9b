import QueueFairness.Lib.TicketWindow
import QueueFairness.Proof.LinkedRingSequential

/-!
# A ring segment used by one thread at a time

A ring holds the items between its head and its tail, each in the cell of its ticket; the other
cells are empty and wait for the tickets that come next. An enqueue that finds the ring full has
drawn a ticket of the next round and closes the segment with that; a dequeue that finds it empty
leaves the cell to the next round and moves the tail on, so that the ring is as it was. What a
segment type has to say of its cells is a structure, and that such a ring is a bounded list is
proved once.
-/

namespace QueueFairness.LinkedRingQueue

open Interleaving TicketWindow

variable {σ κe κd β : Type}

/-- What one thread finds in the cells of a segment. `full k a` is the cell of ticket `k` with item
`a` in it, `empty k` the cell that waits for the ticket. The control states are those of an enqueue
that has ticket `k`, found the cell taken, or is about to close the segment, and those of a dequeue
that has ticket `k`, gave it up, or repairs the segment. -/
structure RingCells (S : SegmentType σ κe κd) (β : Type) where
  size : Nat
  size_pos : 0 < size
  cell : σ → Nat → β
  full : Nat → Nat → β
  empty : Nat → β
  setBase : σ → SegmentBase → σ
  enqHas : Nat → κe
  enqFound : Nat → κe
  enqCloses : Nat → κe
  deqHas : Nat → κd
  deqLeft : Nat → κd
  deqFixes : SegmentBase.Fix → κd
  cell_mod : ∀ {s j k}, j % size = k % size → cell s j = cell s k
  base_set : ∀ s b, S.base (setBase s b) = b
  cell_set : ∀ s b, cell (setBase s b) = cell s
  set_base : ∀ s, setBase s (S.base s) = s
  new_base : ∀ start, S.base (S.new start) = ⟨start, ⟨false, start⟩⟩
  new_cell : ∀ start k, ∃ i, start ≤ i ∧ i < start + size ∧ i % size = k % size
    ∧ cell (S.new start) k = empty i
  enqueue_draw : ∀ {t now item s}, (S.base s).tail.flag = false →
    S.enqueueStep t now item s S.enqueue = (setBase s (S.base s).drawTail,
      .inl (enqHas (S.base s).tail.index), [.drawTail t (S.base s).tail.index])
  enqueue_room : ∀ {t item s k}, cell s k = empty k →
    Completes (fun now => S.enqueueStep t now item) (fun s' ok => ok = true
      ∧ S.base s' = S.base s ∧ Sets size (cell s) (cell s') k (full k item)) s (enqHas k)
  enqueue_found : ∀ {t item s k j a Q}, cell s k = full j a →
    Completes (fun now => S.enqueueStep t now item) Q s (enqFound k) →
    Completes (fun now => S.enqueueStep t now item) Q s (enqHas k)
  enqueue_behind : ∀ {t now item s k}, (S.base s).head + size ≤ k →
    S.enqueueStep t now item s (enqFound k) = (s, .inl (enqCloses k), [])
  enqueue_close : ∀ {t now item s k}, ((S.base s).closeSegment k false).2 = true →
    S.enqueueStep t now item s (enqCloses k)
      = (setBase s ((S.base s).closeSegment k false).1, .inr false, [])
  dequeue_draw : ∀ t now s, S.dequeueStep t now s S.dequeue = (setBase s (S.base s).drawHead,
    .inl (deqHas (S.base s).head), [.drawHead t (S.base s).head])
  dequeue_item : ∀ {t s k a}, cell s k = full k a →
    Completes (S.dequeueStep t) (fun s' r => r = some a ∧ S.base s' = S.base s
      ∧ Sets size (cell s) (cell s') k (empty (k + size))) s (deqHas k)
  dequeue_leave : ∀ {t s k Q}, cell s k = empty k →
    (S.base s).tail.index < k + 1 ∨ (S.base s).tail.flag = true →
    (∀ s', S.base s' = S.base s → Sets size (cell s) (cell s') k (empty (k + size)) →
      Completes (S.dequeueStep t) Q s' (deqLeft k)) →
    Completes (S.dequeueStep t) Q s (deqHas k)
  dequeue_last : ∀ {t now s k}, (S.base s).tail.index ≤ k + 1 →
    S.dequeueStep t now s (deqLeft k) = (s, .inl (deqFixes .loadTail), [])
  dequeue_fix : ∀ t now s l, S.dequeueStep t now s (deqFixes l)
    = (setBase s ((S.base s).fixStep l).1,
      ((S.base s).fixStep l).2.elim (.inr none) (.inl ∘ deqFixes), [])

namespace RingCells

variable {S : SegmentType σ κe κd} (C : RingCells S β)

/-- The cells of the segment hold `xs` from ticket `h` on. -/
abbrev Filled (s : σ) : Nat → List Nat → Prop := Window C.size C.full C.empty (C.cell s)

/-- The ring holds `xs`, from ticket `h` on. -/
structure Ring (s : σ) (closed : Bool) (h : Nat) (xs : List Nat) : Prop where
  head : (S.base s).head = h
  tail : (S.base s).tail = ⟨closed, h + xs.length + closed.toNat⟩
  cells : C.Filled s h xs

/-- A closed ring that was found empty. -/
structure Spent (s : σ) : Prop where
  closed : (S.base s).tail.flag = true
  tail : (S.base s).tail.index ≤ (S.base s).head + 1
  cells : C.Filled s (S.base s).head []

variable {C} {s : σ} {closed : Bool} {h k j a x item : Nat} {xs : List Nat}

/-! ### Enqueues -/

/-- The ticket of an enqueue, when the ring is full. -/
theorem enqueue_full (t : Tid) (hcell : C.cell s k = C.full j a)
    (hhead : (S.base s).head + C.size ≤ k) (htail : (S.base s).tail = ⟨false, k + 1⟩) :
    Completes (fun now => S.enqueueStep t now item) (fun s' ok => ok = false
      ∧ s' = C.setBase s { S.base s with tail := ⟨true, k + 1⟩ }) s (C.enqHas k) := by
  have hclose : (S.base s).closeSegment k false
      = ({ S.base s with tail := ⟨true, k + 1⟩ }, true) := by
    simp [SegmentBase.closeSegment, htail]
  refine C.enqueue_found hcell (.next (fun _ => C.enqueue_behind hhead) ?_)
  refine .last (fun _ => C.enqueue_close (congrArg Prod.snd hclose)) ⟨rfl, ?_⟩
  rw [hclose]

theorem Ring.enqueue (t : Tid) (item : Nat) (hr : C.Ring s false h xs) :
    Completes (fun now => S.enqueueStep t now item) (fun s' ok =>
      if ok then C.Ring s' false h (xs ++ [item]) else xs ≠ [] ∧ C.Ring s' true h xs) s
      S.enqueue := by
  obtain ⟨hhead, htail, hcells⟩ := hr
  let s₁ := C.setBase s (S.base s).drawTail
  have hbase₁ : S.base s₁ = (S.base s).drawTail := C.base_set _ _
  have hhead₁ : (S.base s₁).head = h := by rw [hbase₁, ← hhead, SegmentBase.drawTail]
  have htail₁ : (S.base s₁).tail = ⟨false, h + xs.length + 1⟩ := by
    simp [hbase₁, SegmentBase.drawTail, htail]
  have hcells₁ : C.Filled s₁ h xs := by rwa [Filled, C.cell_set]
  have hindex : (S.base s).tail.index = h + xs.length := by rw [htail]; rfl
  refine .next (fun _ => C.enqueue_draw (by rw [htail])) ?_
  rw [hindex]
  rcases Nat.lt_or_ge xs.length C.size with hroom | hfull
  · refine (C.enqueue_room (hcells₁.next hroom)).mono ?_
    rintro s' ok ⟨rfl, hbase, hset⟩
    refine ⟨hbase ▸ hhead₁, ?_, hcells₁.push hroom hset⟩
    rw [hbase, htail₁, List.length_append]
    rfl
  · -- The ticket names the cell of the first item.
    cases xs with
    | nil => exact absurd hfull (Nat.not_le.mpr C.size_pos)
    | cons x xs =>
        have hsize : (x :: xs).length = C.size := Nat.le_antisymm hcells.length hfull
        have hcell : C.cell s₁ (h + (x :: xs).length) = C.full h x := by
          rw [hsize, C.cell_mod (Nat.add_mod_right h C.size)]
          exact hcells₁.head
        have hbehind : (S.base s₁).head + C.size ≤ h + (x :: xs).length := by
          rw [hsize, hhead₁]
        refine (enqueue_full t hcell hbehind htail₁).mono ?_
        rintro s' ok ⟨rfl, rfl⟩
        refine ⟨List.cons_ne_nil _ _, ?_, ?_, ?_⟩
        · rw [C.base_set]
          exact hhead₁
        · rw [C.base_set]
          rfl
        · rwa [Filled, C.cell_set]

/-! ### Dequeues -/

/-- `fixState` after a dequeue that found the ring empty. -/
theorem fixState_completes (t : Tid)
    (hhead : (S.base s).tail.flag = false → (S.base s).tail.index < (S.base s).head) :
    Completes (S.dequeueStep t) (fun s' r => r = none ∧ s' = C.setBase s { S.base s with
      tail := if (S.base s).tail.flag then (S.base s).tail else ⟨false, (S.base s).head⟩ }) s
      (C.deqFixes .loadTail) := by
  have hloads : ∀ {l l'}, (S.base s).fixStep l = (S.base s, some l') → ∀ now,
      S.dequeueStep t now s (C.deqFixes l) = (s, .inl (C.deqFixes l'), []) := fun heq now => by
    rw [C.dequeue_fix, heq, C.set_base]
    rfl
  refine .next (hloads rfl) (.next (hloads rfl) ?_)
  cases hflag : (S.base s).tail.flag with
  | true =>
      have hreload : ∀ now,
          S.dequeueStep t now s (C.deqFixes (.reload (S.base s).tail (S.base s).head))
            = (s, .inr none, []) := fun now => by
        rw [C.dequeue_fix]
        simp [SegmentBase.fixStep, hflag, C.set_base]
      refine .last hreload ⟨rfl, ?_⟩
      rw [if_pos rfl, C.set_base]
  | false =>
      have hreload : (S.base s).fixStep (.reload (S.base s).tail (S.base s).head)
          = (S.base s, some (.cas (S.base s).tail (S.base s).head)) := by
        simp [SegmentBase.fixStep, hflag, hhead hflag]
      have hcas : ∀ now,
          S.dequeueStep t now s (C.deqFixes (.cas (S.base s).tail (S.base s).head))
            = (C.setBase s { S.base s with tail := ⟨false, (S.base s).head⟩ }, .inr none, []) :=
        fun now => by
          rw [C.dequeue_fix]
          simp [SegmentBase.fixStep]
      exact .next (hloads hreload) (.last hcas ⟨rfl, by simp⟩)

/-- The ticket of a dequeue, when the ring is empty. -/
theorem dequeue_empty (t : Tid) (hcell : C.cell s k = C.empty k)
    (htail : (S.base s).tail.index ≤ k + 1)
    (hclosed : (S.base s).tail.flag = false → (S.base s).tail.index ≤ k)
    (hhead : (S.base s).head = k + 1) :
    Completes (S.dequeueStep t) (fun s' r => r = none ∧ S.base s' = { S.base s with
        tail := if (S.base s).tail.flag then (S.base s).tail else ⟨false, k + 1⟩ }
      ∧ Sets C.size (C.cell s) (C.cell s') k (C.empty (k + C.size))) s (C.deqHas k) := by
  have hgiveUp : (S.base s).tail.index < k + 1 ∨ (S.base s).tail.flag = true := by
    cases hflag : (S.base s).tail.flag with
    | true => exact .inr rfl
    | false => exact .inl (Nat.lt_succ_of_le (hclosed hflag))
  refine C.dequeue_leave hcell hgiveUp fun s₁ hbase hset => ?_
  have hless : (S.base s₁).tail.flag = false → (S.base s₁).tail.index < (S.base s₁).head := by
    rw [hbase, hhead]
    exact fun hflag => Nat.lt_succ_of_le (hclosed hflag)
  refine .next (fun _ => C.dequeue_last (by rwa [hbase])) ((fixState_completes t hless).mono ?_)
  rintro s' r ⟨rfl, rfl⟩
  refine ⟨rfl, ?_, ?_⟩
  · rw [C.base_set, hbase, hhead]
  · rwa [C.cell_set]

theorem Ring.dequeue_cons (t : Tid) (hr : C.Ring s closed h (x :: xs)) :
    Completes (S.dequeueStep t) (fun s' r => r = some x ∧ C.Ring s' closed (h + 1) xs) s
      S.dequeue := by
  obtain ⟨rfl, htail, hcells⟩ := hr
  let s₁ := C.setBase s (S.base s).drawHead
  have hbase₁ : S.base s₁ = (S.base s).drawHead := C.base_set _ _
  have hcells₁ : C.Filled s₁ (S.base s).head (x :: xs) := by rwa [Filled, C.cell_set]
  refine .next (fun now => C.dequeue_draw t now s) ((C.dequeue_item hcells₁.head).mono ?_)
  rintro s' r ⟨rfl, hbase, hset⟩
  refine ⟨rfl, ?_, ?_, hcells₁.advance hset⟩
  · rw [hbase, hbase₁]
    rfl
  · have hindex : (S.base s).head + (x :: xs).length = (S.base s).head + 1 + xs.length := by
      rw [List.length_cons]
      omega
    rw [hbase, hbase₁, ← hindex]
    exact htail

/-- An empty ring is as it was when a dequeue has found it empty. -/
theorem dequeue_nil (t : Tid) (hcells : C.Filled s (S.base s).head [])
    (htail : (S.base s).tail.index ≤ (S.base s).head + 1)
    (hclosed : (S.base s).tail.flag = false → (S.base s).tail.index ≤ (S.base s).head) :
    Completes (S.dequeueStep t) (fun s' r => r = none ∧ (S.base s').head = (S.base s).head + 1
      ∧ (S.base s').tail = (if (S.base s).tail.flag then (S.base s).tail
        else ⟨false, (S.base s).head + 1⟩)
      ∧ C.Filled s' ((S.base s).head + 1) []) s S.dequeue := by
  let s₁ := C.setBase s (S.base s).drawHead
  have hbase₁ : S.base s₁ = (S.base s).drawHead := C.base_set _ _
  have hcells₁ : C.Filled s₁ (S.base s).head [] := by rwa [Filled, C.cell_set]
  have htail₁ : (S.base s₁).tail = (S.base s).tail := by rw [hbase₁, SegmentBase.drawHead]
  have hhead₁ : (S.base s₁).head = (S.base s).head + 1 := by rw [hbase₁, SegmentBase.drawHead]
  refine .next (fun now => C.dequeue_draw t now s) ((dequeue_empty t (hcells₁.next C.size_pos)
    (by rwa [htail₁]) (by rwa [htail₁]) hhead₁).mono ?_)
  rintro s' r ⟨rfl, hbase, hset⟩
  refine ⟨rfl, ?_, ?_, hcells₁.advance hset⟩
  · rw [hbase]
    exact hhead₁
  · rw [hbase, ← htail₁]
    rfl

theorem Ring.dequeue_nil (t : Tid) (hr : C.Ring s false h []) :
    Completes (S.dequeueStep t) (fun s' r => r = none ∧ C.Ring s' false (h + 1) []) s
      S.dequeue := by
  obtain ⟨rfl, htail, hcells⟩ := hr
  have htail' : (S.base s).tail = ⟨false, (S.base s).head⟩ := htail
  refine (RingCells.dequeue_nil t hcells ?_ fun _ => ?_).mono ?_
  · rw [htail']
    exact Nat.le_succ _
  · rw [htail']
  · rintro s' r ⟨rfl, hhead', htail₁, hcells'⟩
    rw [htail'] at htail₁
    exact ⟨rfl, hhead', htail₁, hcells'⟩

theorem Ring.closed_nil (hr : C.Ring s true h []) : C.Spent s := by
  obtain ⟨hhead, htail, hcells⟩ := hr
  refine ⟨by rw [htail], ?_, hhead ▸ hcells⟩
  rw [htail, hhead]
  exact Nat.le_refl _

theorem Spent.dequeue (t : Tid) (hs : C.Spent s) :
    Completes (S.dequeueStep t) (fun s' r => r = none ∧ C.Spent s') s S.dequeue := by
  obtain ⟨hclosed, htail, hcells⟩ := hs
  have hopen : (S.base s).tail.flag = false → (S.base s).tail.index ≤ (S.base s).head := by
    rw [hclosed]
    exact fun hflag => by cases hflag
  refine (RingCells.dequeue_nil t hcells htail hopen).mono ?_
  rintro s' r ⟨rfl, hhead', htail', hcells'⟩
  rw [hclosed, if_pos rfl] at htail'
  refine ⟨rfl, htail' ▸ hclosed, ?_, hhead' ▸ hcells'⟩
  rw [htail', hhead']
  exact Nat.le_succ_of_le htail

theorem ring_new (start : Nat) : C.Ring (S.new start) false start [] := by
  have hbase := C.new_base start
  refine ⟨by rw [hbase], by rw [hbase]; rfl, Nat.zero_le _,
    fun i hi => absurd hi (Nat.not_lt_zero i), fun k hk hk' => ?_⟩
  obtain ⟨i, hi, hi', hmod, hcell⟩ := C.new_cell start k
  by_cases hik : i = k
  · rwa [hik] at hcell
  · exact absurd hmod (mod_ne hi hi' hk hk' hik)

/-- **A ring is a bounded list.** -/
def sequential (C : RingCells S β) : Sequential S where
  ring := C.Ring
  spent := C.Spent
  new := ring_new
  head hr := hr.head
  tail hr := congrArg Word.index hr.tail
  enqueue t item hr := hr.enqueue t item
  dequeue_cons t hr := hr.dequeue_cons t
  dequeue_nil t hr := hr.dequeue_nil t
  closed_nil hr := hr.closed_nil
  dequeue_spent t hs := hs.dequeue t

end RingCells

end QueueFairness.LinkedRingQueue
