import Mathlib.Algebra.Order.Interval.Finset.Basic
import QueueFairness.Proof.PRQueueCells
import QueueFairness.Proof.SCQueueStep

/-!
# Every run of the scalable circular queue

However the steps of the threads interleave, an index is taken once, under the ticket it was put in,
and none is passed over.
-/

namespace QueueFairness.SCQueue

open Interleaving
open CycleRing (Owns Done Rely)

variable {P : Params}

/-- What a run is asked to keep to: the tickets leave a word its sign, and no client enqueues the
index that says that an entry is empty. -/
structure InRange (c : Config (Ring P) (Local P) (Event P)) (t : Tid) (i : Input P) : Prop where
  head : c.shared.head.toNat < bound P
  tail : c.shared.tail.toNat < bound P
  fits : ∀ {eidx nonempty}, c.locals t = .idle → i.call = .enqueue eidx nonempty →
    eidx.toNat < slots P - 1

/-- What the history says of the tickets. -/
def tickets (h : List (Event P)) : List CycleRing.Event := h.filterMap ringEvent

@[simp] theorem tickets_append (h es : List (Event P)) :
    tickets (h ++ es) = tickets h ++ tickets es :=
  List.filterMap_append

variable {first : Nat} {init : Multiset (Nat × Nat)} {r r' : Ring P} {t u : Tid}

theorem Moves.glob {h es : List CycleRing.Event}
    {K : CycleRing.State → List CycleRing.Event → Prop} (hm : Moves t r r' h es K)
    (hw : Glob first init (view r) h (P := P)) : Glob first init (view r') (h ++ es) (P := P) := by
  refine ⟨hm.step.ring slots_pos hw.ring, hm.head_le, hm.tail_le, fun k => ?_⟩
  -- An entry only moves on.
  have hrank := (hm.step.rely hw.ring (Nat.succ_ne_self t)).rank_le k
  have hlow := hw.low k
  simp only [CycleRing.Entry.rank] at hrank
  split at hrank <;> split at hrank <;> (try split at hrank) <;> (try split at hrank) <;> omega

/-- A step of a thread. -/
theorem step_moves {c : Config (Ring P) (Local P) (Event P)} {i : Input P}
    (hok : InRange c t i) (hw : Glob first init (view c.shared) (tickets c.history) (P := P))
    (hl : Loc (view c.shared) (tickets c.history) t (c.locals t)) :
    let res := step t i c.shared (c.locals t)
    Moves t c.shared res.1 (tickets c.history) (tickets res.2.2) fun s h => Loc s h t res.2.1 := by
  cases hlocal : c.locals t with
  | idle =>
      refine ⟨.quiet, hw.head_le, hw.tail_le, ?_⟩
      cases hcall : i.call with
      | enqueue eidx nonempty =>
          simp only [step, start, hcall]
          refine ⟨?_, trivial⟩
          rw [Fits, flip_flip]
          exact hok.fits hlocal hcall
      | dequeue nonempty =>
          simp only [step, start, hcall]
          cases nonempty <;> trivial
  | enqueue eidx nonempty l =>
      rw [hlocal] at hl
      have hm := enqueue_moves hw hl.1 hl.2 hok.tail i.spurious nonempty
      simp only [step]
      cases hres : (enqueueStep t i.spurious eidx nonempty c.shared l).2.1 with
      | inl l' => exact ⟨hm.step, hm.head_le, hm.tail_le, hl.1, hm.loc l' hres⟩
      | inr _ =>
          refine ⟨?_, hm.head_le, hm.tail_le, trivial⟩
          rw [tickets_append]
          exact (List.append_nil _).symm ▸ hm.step
  | dequeue nonempty l =>
      rw [hlocal] at hl
      have hm := dequeue_moves hw hl hok.head i.spurious nonempty
      simp only [step]
      cases hres : (dequeueStep t i.spurious nonempty c.shared l).2.1 with
      | inl l' => exact ⟨hm.step, hm.head_le, hm.tail_le, hm.loc l' hres⟩
      | inr _ =>
          refine ⟨?_, hm.head_le, hm.tail_le, trivial⟩
          rw [tickets_append]
          exact (List.append_nil _).symm ▸ hm.step

/-- **What holds of a ring in use.** -/
def invariant (r : Ring P) (hr : Glob first init (view r) [] (P := P)) :
    RelyGuarantee (program r) InRange Unit where
  glob w := Glob first init (view w.shared) (tickets w.history) (P := P)
  loc w t l := Loc (view w.shared) (tickets w.history) t l
  rely t w w' := Rely (slots P) t (view w.shared) (view w'.shared) (tickets w.history)
    (tickets w'.history)
  init := ⟨(), hr, fun _ => trivial⟩
  stable hrely hl := hl.mono hrely
  step {x c t i g l es} hok hw hl hstep := by
    have hm := step_moves hok hw (hl t)
    have heq : SCQueue.step t i c.shared (c.locals t) = (g, l, es) := Option.some.inj hstep
    rw [heq] at hm
    simp only [tickets_append]
    exact ⟨(), hm.glob hw, hm.loc, fun u hu => hm.step.rely hw.ring hu⟩

theorem Reach.glob {c : Config (Ring P) (Local P) (Event P)}
    (hr : Glob first init (view r) [] (P := P)) (h : (program r).Reach InRange c) :
    Glob first init (view c.shared) (tickets c.history) (P := P)
      ∧ ∀ t, Loc (view c.shared) (tickets c.history) t (c.locals t) := by
  obtain ⟨_, hc⟩ := (invariant r hr).holds h
  exact hc

/-! ### The initial rings -/

/-- A ring as one of the initialisers leaves it, and the indices it holds, in order. -/
inductive Initial (P : Params) : Ring P → List Nat → Prop
  | empty (array : Nat → P.Atomic) : Initial P (initEmpty array) []
  | full (array : Nat → P.Atomic) : Initial P (initFull array)
      ((List.range (half P).toNat).map fun i => (rawMap P (.ofNat _ i) P.order (half P)).toNat)
  | fill {s e : Nat} (hse : s ≤ e) (he : e < slots P) (array : Nat → P.Atomic) :
      Initial P (initFill s e array) (List.range' s (e - s))

/-- Items under consecutive tickets. -/
def numbered (first : Nat) (xs : List Nat) : List (Nat × Nat) :=
  xs.mapIdx fun i a => (first + i, a)

/-- The entries of a ring that holds the indices `xs` from ticket `first` on, and where no other
ticket has been used. -/
def contentOf (first : Nat) (xs : List Nat) (r : Nat) : CycleRing.Entry :=
  if r < first then ⟨0, true, none⟩
  else if h : r - first < xs.length then ⟨0, true, some xs[r - first]⟩
  else ⟨-1, true, none⟩

/-- A ring with a fresh start. -/
structure Fresh (s : Ring P) (first : Nat) (xs : List Nat) : Prop where
  head : s.head.toNat = first
  tail : s.tail.toNat = first + xs.length
  tail_le : first + xs.length ≤ slots P
  cell : ∀ r, r < slots P → (view s).cell r = contentOf first xs r
  threshold : xs ≠ [] → 0 ≤ s.threshold

theorem slots_lt_bound : slots P ≤ bound P :=
  Nat.pow_le_pow_right (by decide) (by have := P.order_lt; omega)

theorem contentOf_snoc (first : Nat) (xs : List Nat) (a : Nat) :
    contentOf first (xs ++ [a])
      = Function.update (contentOf first xs) (first + xs.length) ⟨0, true, some a⟩ := by
  funext r
  by_cases hr : r = first + xs.length
  · subst hr
    rw [Function.update_self]
    simp [contentOf]
  · rw [Function.update_of_ne hr, contentOf, contentOf]
    by_cases hfirst : r < first
    · rw [if_pos hfirst, if_pos hfirst]
    · by_cases hlength : r - first < xs.length
      · have hlength' : r - first < (xs ++ [a]).length := by simp; omega
        rw [if_neg hfirst, if_neg hfirst, dif_pos hlength, dif_pos hlength',
          List.getElem_append_left hlength]
      · have hlength' : ¬ r - first < (xs ++ [a]).length := by simp; omega
        rw [if_neg hfirst, if_neg hfirst, dif_neg hlength, dif_neg hlength']

theorem stored_contentOf {N : Nat} (hN : 0 < N) (first : Nat) (xs : List Nat)
    (hle : first + xs.length ≤ N) :
    CycleRing.stored N ⟨0, 0, contentOf first xs⟩ = ↑(numbered first xs) := by
  induction xs using List.reverseRecOn with
  | nil =>
      refine Finset.sum_eq_zero fun r _ => ?_
      by_cases hfirst : r < first <;> simp [contentOf, hfirst, CycleRing.held]
  | append_singleton xs a ih =>
      have hlength : (xs ++ [a]).length = xs.length + 1 := by simp
      have hlt : first + xs.length < N := by omega
      have hmod := Nat.mod_eq_of_lt hlt
      have hcycle : CycleRing.cycleOf N (first + xs.length) = 0 := by
        rw [CycleRing.cycleOf, Nat.div_eq_of_lt hlt]
        rfl
      have hset := CycleRing.stored_set hN ⟨0, 0, contentOf first xs⟩ (first + xs.length)
        ⟨CycleRing.cycleOf N (first + xs.length), true, some a⟩
      have hnone : CycleRing.held N ((first + xs.length) % N)
          (CycleRing.State.entry N ⟨0, 0, contentOf first xs⟩ (first + xs.length)) = 0 := by
        simp [CycleRing.State.entry, hmod, contentOf, CycleRing.held]
      rw [CycleRing.held_ticket, hnone, add_zero, ih (by omega), CycleRing.State.set, hmod, hcycle]
        at hset
      have hlast : [a].mapIdx (fun i a => (first + (i + xs.length), a))
          = [(first + xs.length, a)] := by simp
      rw [contentOf_snoc, hset, numbered, numbered, List.mapIdx_append, hlast, ← Multiset.coe_add]
      rfl

theorem stored_fresh {s : Ring P} {xs : List Nat} (hs : Fresh s first xs) :
    CycleRing.stored (slots P) (view s) = ↑(numbered first xs) := by
  rw [← stored_contentOf slots_pos first xs hs.tail_le]
  refine Finset.sum_congr rfl fun r hr => ?_
  rw [hs.cell r (Finset.mem_range.mp hr)]

theorem Fresh.glob {s : Ring P} {xs : List Nat} (hs : Fresh s first xs) :
    Glob first ↑(numbered first xs) (view s) [] (P := P) := by
  have hle := slots_lt_bound (P := P)
  have hentry : ∀ k, (view s).entry (slots P) k = contentOf first xs (k % slots P) := fun k =>
    hs.cell _ (Nat.mod_lt _ slots_pos)
  refine ⟨⟨⟨by simp, by simp, fun {k} hnone hcycle hk => ?_, fun {k} hsome => ?_⟩, ?_, ?_⟩, ?_, ?_,
    fun k => ?_⟩
  · -- An empty entry at the cycle of its ticket comes before the first ticket.
    exfalso
    rw [hentry, contentOf] at hnone hcycle
    by_cases hfirst : k % slots P < first
    · rw [if_pos hfirst] at hcycle
      have hdiv : k / slots P = 0 := (Int.ofNat_inj.mp hcycle).symm
      have hmod := Nat.div_add_mod k (slots P)
      rw [hdiv, Nat.mul_zero, Nat.zero_add] at hmod
      omega
    · rw [if_neg hfirst] at hnone hcycle
      split at hnone
      · cases hnone
      · rename_i hlength
        rw [dif_neg hlength] at hcycle
        have hnonneg := CycleRing.cycleOf_nonneg (N := slots P) k
        rw [← hcycle] at hnonneg
        exact absurd hnonneg (by decide)
  · rw [hentry, contentOf] at hsome ⊢
    split at hsome <;> rename_i hfirst
    · exact absurd rfl hsome
    · split at hsome <;> rename_i hlength
      · rw [if_neg hfirst, dif_pos hlength]
      · exact absurd rfl hsome
  · refine ⟨le_of_eq hs.head.symm, ?_, by simp, List.nodup_nil, ?_, List.Pairwise.nil, by simp,
      by simp⟩
    · change [] = List.range' first (s.head.toNat - first)
      rw [hs.head, Nat.sub_self, List.range'_zero]
    · change first ≤ s.tail.toNat
      rw [hs.tail]
      exact Nat.le_add_right ..
  · rw [stored_fresh hs]
    simp
  · change s.head.toNat ≤ _
    rw [hs.head]
    exact le_trans (le_trans (Nat.le_add_right ..) hs.tail_le) hle
  · change s.tail.toNat ≤ _
    rw [hs.tail]
    exact le_trans hs.tail_le hle
  · rw [hentry, contentOf]
    split
    · exact (by decide : (-1 : Int) ≤ 0)
    · split
      · exact (by decide : (-1 : Int) ≤ 0)
      · exact le_refl _

theorem store_of_mem {position : Nat → Nat} {entry : Nat → P.Atomic} {is : List Nat} {i : Nat}
    (hi : i ∈ is) (hinj : ∀ j ∈ is, position j = position i → j = i) (array : Nat → P.Atomic) :
    store position entry is array (position i) = entry i :=
  PRQueue.foldl_update position hi hinj array

theorem store_of_notMem {position : Nat → Nat} {entry : Nat → P.Atomic} {is : List Nat} {q : Nat}
    (hq : ∀ j ∈ is, position j ≠ q) (array : Nat → P.Atomic) :
    store position entry is array q = array q := by
  induction is generalizing array with
  | nil => rfl
  | cons j is ih =>
      have hne : q ≠ position j := Ne.symm (hq j List.mem_cons_self)
      rw [store, List.foldl_cons, ← store, ih fun m hm => hq m (List.mem_cons_of_mem _ hm),
        Function.update_of_ne hne]

theorem place_inj {i j : Nat} (hi : i < slots P) (hj : j < slots P) (h : place P i = place P j) :
    i = j := by
  rw [place_eq_iff, Nat.mod_eq_of_lt hi, Nat.mod_eq_of_lt hj] at h
  exact h

/-- The loops of `lfring_init_full` and `lfring_init_fill`: three ranges of the tickets of the first
round, one after another. -/
theorem store_three (used filled : Nat → P.Atomic) {s e : Nat} (hse : s ≤ e) (he : e ≤ slots P)
    (array : Nat → P.Atomic) {i : Nat} (hi : i < slots P) :
    store (place P) (fun _ => -1) (List.range' e ((n P).toNat - e))
      (store (place P) filled (List.range' s (e - s))
        (store (place P) used (List.range s) array)) (place P i)
      = if i < s then used i else if i < e then filled i else -1 := by
  have hmem : ∀ {a l j : Nat}, j ∈ List.range' a l ↔ a ≤ j ∧ j < a + l := List.mem_range'_1
  have hne : ∀ {j : Nat}, j < slots P → j ≠ i → place P j ≠ place P i := fun hj hne heq =>
    hne (place_inj hj hi heq)
  rw [toNat_n]
  by_cases his : i < s
  · rw [if_pos his, store_of_notMem, store_of_notMem, store_of_mem (List.mem_range.mpr his)]
    · exact fun j hj heq => place_inj (by have := List.mem_range.mp hj; omega) hi heq
    · exact fun j hj => hne (by have := hmem.mp hj; omega) (by have := hmem.mp hj; omega)
    · exact fun j hj => hne (by have := hmem.mp hj; omega) (by have := hmem.mp hj; omega)
  · rw [if_neg his]
    by_cases hie : i < e
    · rw [if_pos hie, store_of_notMem, store_of_mem (hmem.mpr (by omega))]
      · exact fun j hj heq => place_inj (by have := hmem.mp hj; omega) hi heq
      · exact fun j hj => hne (by have := hmem.mp hj; omega) (by have := hmem.mp hj; omega)
    · rw [if_neg hie, store_of_mem (hmem.mpr (by omega))]
      exact fun j hj heq => place_inj (by have := hmem.mp hj; omega) hi heq

theorem toNat_half : (half P).toNat = 2 ^ P.order :=
  toNat_pow2 (by have := P.order_lt; omega)

theorem threshold3_nonneg : 0 ≤ threshold3 P := Int.natCast_nonneg _

theorem toNat_ofNat {i : Nat} (hi : i ≤ slots P) : (BitVec.ofNat P.width i).toNat = i := by
  have hlt : bound P < 2 ^ P.width :=
    Nat.pow_lt_pow_right (by decide) (by have := P.order_lt; omega)
  exact Nat.mod_eq_of_lt (lt_of_le_of_lt (le_trans hi slots_lt_bound) hlt)

/-- Every initialiser makes a fresh start. -/
theorem Initial.fresh {s : Ring P} {xs : List Nat} (h : Initial P s xs) :
    Fresh s s.head.toNat xs := by
  have hhalf : 2 ^ P.order + 2 ^ P.order = slots P := by rw [slots, Nat.pow_succ, Nat.mul_two]
  have hpos : 0 < 2 ^ P.order := Nat.two_pow_pos _
  have hzero : (0 : P.Atomic).toNat = 0 := by simp
  cases h with
  | empty array =>
      refine ⟨rfl, ?_, ?_, fun r hr => ?_, by simp⟩
      · simp [initEmpty]
      · simp [initEmpty]
      · have hmem : place P r ∈ List.range (n P).toNat := by
          rw [toNat_n, List.mem_range]
          exact map_lt _
        have hcell : (initEmpty array).array (place P r) = -1 :=
          @store_of_mem P id _ _ _ hmem (fun _ _ h => h) array
        rw [view_cell _ hr, hcell, decode_neg_one]
        simp [initEmpty, contentOf]
  | full array =>
      refine ⟨rfl, ?_, ?_, fun r hr => ?_, fun _ => threshold3_nonneg⟩
      · simp [initFull]
      · simp [initFull, toNat_half]
        omega
      · have hcell := store_three (fun _ => 0)
          (fun i => n P + rawMap P (.ofNat _ i) P.order (half P)) (Nat.zero_le _)
          (e := (half P).toNat) (by rw [toNat_half]; omega) array hr
        have harray : (initFull array).array (place P r)
            = if r < (half P).toNat then n P + rawMap P (.ofNat _ r) P.order (half P) else -1 := by
          rw [Nat.sub_zero, if_neg (Nat.not_lt_zero r)] at hcell
          rw [initFull, List.range_eq_range']
          exact hcell
        rw [view_cell _ hr, harray]
        by_cases hrh : r < (half P).toNat
        · have hraw : (rawMap P (.ofNat _ r) P.order (half P)).toNat < slots P - 1 := by
            have hlt := rawMap_lt (BitVec.ofNat P.width r) P.min_le
              (by have := P.order_lt; omega)
            change _ < 2 ^ P.order at hlt
            rw [half]
            omega
          rw [if_pos hrh, decode_add hraw]
          simp [initFull, contentOf, hrh]
        · rw [if_neg hrh, decode_neg_one]
          simp [initFull, contentOf, hrh]
  | @fill a e hae he array =>
      have hhead : (initFill a e array).head.toNat = a := toNat_ofNat (le_trans hae (le_of_lt he))
      rw [hhead]
      refine ⟨hhead, ?_, ?_, fun r hr => ?_, fun _ => threshold3_nonneg⟩
      · change (BitVec.ofNat P.width e).toNat = _
        rw [toNat_ofNat (le_of_lt he), List.length_range']
        omega
      · rw [List.length_range']
        omega
      · have harray := store_three (fun _ => 2 * n P - 1)
          (fun i => n P + .ofNat _ i) hae (le_of_lt he) array hr
        rw [view_cell _ hr]
        change decode (store _ _ _ _ (place P r)) = _
        rw [harray, contentOf]
        by_cases hra : r < a
        · rw [if_pos hra, if_pos hra, decode_low]
        · rw [if_neg hra, if_neg hra]
          by_cases hre : r < e
          · have hlength : r - a < (List.range' a (e - a)).length := by
              rw [List.length_range']
              omega
            have hidx : (BitVec.ofNat P.width r).toNat = r := toNat_ofNat (le_of_lt hr)
            rw [if_pos hre, dif_pos hlength, decode_add (by rw [hidx]; omega), hidx,
              List.getElem_range', Nat.one_mul, Nat.add_sub_cancel' (Nat.not_lt.mp hra)]
          · have hlength : ¬ r - a < (List.range' a (e - a)).length := by
              rw [List.length_range']
              omega
            rw [if_neg hre, dif_neg hlength, decode_neg_one]

/-! ### What a run does with the indices -/

/-- The ticket and the index of a deposit. -/
def depositOf : Event P → Option (Nat × Nat)
  | .deposit _ a k => some (k.toNat, a.toNat)
  | _ => none

def takeOf : Event P → Option (Nat × Nat)
  | .take _ a k => some (k.toNat, a.toNat)
  | _ => none

/-- The indices in the ring, each with the ticket it was put in under. -/
def contents (s : Ring P) : Multiset (Nat × Nat) := CycleRing.stored (slots P) (view s)

theorem deposits_eq (h : List (Event P)) :
    (tickets h).filterMap CycleRing.depositOf = h.filterMap depositOf := by
  rw [tickets, List.filterMap_filterMap]
  refine List.filterMap_congr fun e _ => ?_
  cases e <;> rfl

theorem takes_eq (h : List (Event P)) :
    (tickets h).filterMap CycleRing.takeOf = h.filterMap takeOf := by
  rw [tickets, List.filterMap_filterMap]
  refine List.filterMap_congr fun e _ => ?_
  cases e <;> rfl

theorem Initial.glob {xs : List Nat} (h : Initial P r xs) :
    Glob r.head.toNat ↑(numbered r.head.toNat xs) (view r) [] (P := P) :=
  h.fresh.glob

variable {xs : List Nat} {c : Config (Ring P) (Local P) (Event P)}

theorem Reach.account (hr : Initial P r xs) (h : (program r).Reach InRange c) :
    ↑(numbered r.head.toNat xs) + ↑(c.history.filterMap depositOf)
      = (↑(c.history.filterMap takeOf) + contents c.shared : Multiset (Nat × Nat)) := by
  have haccount := (Reach.glob hr.glob h).1.ring.account
  rwa [takes_eq, deposits_eq] at haccount

/-- **No index is lost and none is taken twice.** In every run from a ring as an initialiser leaves
it, what was in the ring at first and what was put in since is what was taken, under the same
tickets, and what is in the ring; and no ticket serves for two takes. -/
theorem conservation (hr : Initial P r xs) (h : (program r).Reach InRange c) :
    ↑(numbered r.head.toNat xs) + ↑(c.history.filterMap depositOf)
        = (↑(c.history.filterMap takeOf) + contents c.shared : Multiset (Nat × Nat))
      ∧ ((c.history.filterMap takeOf).map Prod.fst).Nodup := by
  have hnodup := (Reach.glob hr.glob h).1.ring.takes_nodup
  rw [takes_eq] at hnodup
  exact ⟨Reach.account hr h, hnodup⟩

/-- A ring of four entries of 32 bits. -/
def tiny : Params where
  width := 32
  min := 0
  order := 1
  min_le := by decide
  order_lt := by decide

def inRange (c : Config (Ring tiny) (Local tiny) (Event tiny)) (_ : Tid) (i : Input tiny) : Bool :=
  decide (c.shared.head.toNat < bound tiny) && decide (c.shared.tail.toNat < bound tiny)
    && match i.call with
      | .enqueue eidx _ => decide (eidx.toNat < slots tiny - 1)
      | .dequeue _ => true

theorem InRange.of_check {c : Config (Ring tiny) (Local tiny) (Event tiny)} {i : Input tiny}
    (h : inRange c t i = true) : InRange c t i := by
  rw [inRange, Bool.and_eq_true, Bool.and_eq_true, decide_eq_true_iff, decide_eq_true_iff] at h
  refine ⟨h.1.1, h.1.2, fun _ hcall => ?_⟩
  have hfits := h.2
  rw [hcall] at hfits
  exact of_decide_eq_true hfits

theorem reach_of_check {r : Ring tiny} {sched : List (Tid × Input tiny)}
    {c : Config (Ring tiny) (Local tiny) (Event tiny)}
    (h : (program r).execIf 2 inRange (program r).init sched = some c) :
    (program r).Reach InRange c :=
  Program.Reach.execIf (fun _ _ _ _ hcheck => .of_check hcheck) .init (fun _ _ => rfl) h

/-- Thread 1 takes an index from a full ring, and thread 0 puts another one in. -/
def exchange : List (Tid × Input tiny) :=
  List.replicate 5 (1, { call := .dequeue false })
    ++ List.replicate 4 (0, { call := .enqueue 2 true })

theorem conservation_exchange : ∃ c,
    (program (initFull (P := tiny) fun _ => 0)).Reach InRange c
      ∧ c.history.filterMap depositOf = [(2, 2)] ∧ c.history.filterMap takeOf = [(0, 0)]
      ∧ ↑(numbered 0 [0, 1]) + ↑(c.history.filterMap depositOf)
        = (↑(c.history.filterMap takeOf) + contents c.shared : Multiset (Nat × Nat)) := by
  have hrun : ((program (initFull (P := tiny) fun _ => 0)).execIf 2 inRange
      (program (initFull (P := tiny) fun _ => 0)).init exchange).map
      (fun c => (c.history.filterMap depositOf, c.history.filterMap takeOf))
        = some ([(2, 2)], [(0, 0)]) := by
    decide +kernel
  obtain ⟨c, hexec, heq⟩ := Option.map_eq_some_iff.mp hrun
  obtain ⟨hdeposits, htakes⟩ := Prod.mk.inj heq
  exact ⟨c, reach_of_check hexec, hdeposits, htakes,
    (conservation (.full _) (reach_of_check hexec)).1⟩

theorem mem_tickets {h : List (Event P)} {e : CycleRing.Event} (he : e ∈ tickets h) :
    ∃ e' ∈ h, ringEvent e' = some e :=
  List.mem_filterMap.mp he

theorem drawTail_mem {h : List (Event P)} {k : P.Atomic}
    (hk : .drawTail t k.toNat ∈ tickets h) : .drawTail t k ∈ h := by
  obtain ⟨e, he, hring⟩ := mem_tickets hk
  cases e with
  | drawTail u j =>
      obtain ⟨rfl, hj⟩ := CycleRing.Event.drawTail.inj (Option.some.inj hring)
      rwa [← BitVec.eq_of_toNat_eq hj]
  | _ => cases hring

theorem drawHead_mem {h : List (Event P)} {k : P.Atomic}
    (hk : .drawHead t k.toNat ∈ tickets h) : .drawHead t k ∈ h := by
  obtain ⟨e, he, hring⟩ := mem_tickets hk
  cases e with
  | drawHead u j =>
      obtain ⟨rfl, hj⟩ := CycleRing.Event.drawHead.inj (Option.some.inj hring)
      rwa [← BitVec.eq_of_toNat_eq hj]
  | _ => cases hring

/-- A dequeue of this ticket is done with the entry. -/
def Left (h : List (Event P)) (k : P.Atomic) : Prop :=
  ∃ t, .leave t k ∈ h ∨ ∃ a, .take t a k ∈ h

theorem Left.done {h : List (Event P)} {k : P.Atomic} (hk : Left h k) :
    Done (tickets h) k.toNat := by
  rw [Done, tickets, List.filterMap_filterMap, List.mem_filterMap]
  obtain ⟨t, ht | ⟨a, ht⟩⟩ := hk
  · exact ⟨_, ht, rfl⟩
  · exact ⟨_, ht, rfl⟩

theorem Reach.deposit (hr : Initial P r xs) (h : (program r).Reach InRange c)
    {before after : List (Event P)} {a k : P.Atomic}
    (heq : c.history = before ++ .deposit t a k :: after) :
    .drawTail t k ∈ before ∧ ¬ Done (tickets before) k.toNat := by
  obtain ⟨d, u, i, s, l, es, fs, hreach, hok, hstep, rfl⟩ := h.emitted heq
  obtain ⟨hw, hl⟩ := Reach.glob hr.glob hreach
  have hm := step_moves hok hw (hl u)
  have hres : SCQueue.step u i d.shared (d.locals u) = (s, l, es ++ .deposit t a k :: fs) :=
    Option.some.inj hstep
  rw [hres] at hm
  have htickets : tickets (es ++ .deposit t a k :: fs)
      = tickets es ++ .deposit t a.toNat k.toNat :: tickets fs := tickets_append ..
  obtain ⟨hes, hdrawn, hdone⟩ := hm.step.in_time hw.ring.entries
    (htickets ▸ List.mem_append_right _ List.mem_cons_self)
  rw [htickets, List.append_eq_singleton_iff] at hes
  have hnil : tickets es = [] := hes.elim (fun h => h.1) fun h => by simp at h
  refine ⟨List.mem_append_left _ (drawTail_mem hdrawn), fun hleft => hdone ?_⟩
  rwa [tickets_append, hnil, List.append_nil] at hleft

/-- **No index is put in behind its dequeue.** An enqueue puts its index into the entry of its
ticket only while the dequeue of that ticket, if there is one yet, is not done with the entry. -/
theorem deposit_before_leave (hr : Initial P r xs) (h : (program r).Reach InRange c)
    {before after : List (Event P)} {a k : P.Atomic}
    (heq : c.history = before ++ .deposit t a k :: after) :
    .drawTail t k ∈ before ∧ ¬ Left before k :=
  (Reach.deposit hr h heq).imp_right fun hdone hleft => hdone hleft.done

/-- Thread 0 puts the indices 1 and 0 in, and thread 1 takes both. -/
def passing : List (Tid × Input tiny) :=
  List.replicate 6 (0, { call := .enqueue 1 false })
    ++ List.replicate 5 (0, { call := .enqueue 0 false })
    ++ List.replicate 5 (1, { call := .dequeue false })
    ++ List.replicate 4 (1, { call := .dequeue true })

theorem passing_runs : ∃ c before after,
    (program (initEmpty (P := tiny) fun _ => 0)).Reach InRange c
      ∧ c.history = before ++ .drawTail 0 1 :: after
      ∧ (∃ b₁ b₂, before = b₁ ++ .deposit 0 1 0 :: b₂) ∧ .take 1 0 1 ∈ c.history := by
  have hrun : ((program (initEmpty (P := tiny) fun _ => 0)).execIf 2 inRange
      (program (initEmpty (P := tiny) fun _ => 0)).init passing).map Config.history
      = some ([.call 0 (.enqueue 1 false), .drawTail 0 0] ++ .deposit 0 1 0 ::
          [.setThreshold 0, .enqueued 0, .call 0 (.enqueue 0 false)]
        ++ .drawTail 0 1 :: [.deposit 0 0 1, .enqueued 0, .call 1 (.dequeue false),
          .drawHead 1 0, .take 1 1 0, .dequeued 1 (some 1), .call 1 (.dequeue true),
          .drawHead 1 1, .take 1 0 1, .dequeued 1 (some 0)]) := by
    decide +kernel
  obtain ⟨c, hexec, heq⟩ := Option.map_eq_some_iff.mp hrun
  refine ⟨c, _, _, reach_of_check hexec, heq, ⟨_, _, rfl⟩, ?_⟩
  rw [heq]
  decide

theorem deposit_before_leave_passing : ∃ c before after,
    (program (initEmpty (P := tiny) fun _ => 0)).Reach InRange c
      ∧ c.history = before ++ .deposit 0 1 0 :: after
      ∧ .drawTail 0 0 ∈ before ∧ ¬ Left before 0 := by
  obtain ⟨c, before, after, hreach, heq, ⟨b₁, b₂, rfl⟩, -⟩ := passing_runs
  have hall : c.history = b₁ ++ .deposit 0 1 0 :: (b₂ ++ .drawTail 0 1 :: after) := by
    rw [heq, List.append_assoc, List.cons_append]
  exact ⟨c, _, _, hreach, hall, deposit_before_leave (.empty _) hreach hall⟩

theorem take_mem {h : List (Event P)} {a k : P.Atomic}
    (hk : (k.toNat, a.toNat) ∈ h.filterMap takeOf) : ∃ t, .take t a k ∈ h := by
  obtain ⟨e, he, htake⟩ := List.mem_filterMap.mp hk
  cases e with
  | take t b j =>
      obtain ⟨hj, hb⟩ := Prod.mk.inj (Option.some.inj htake)
      rw [← BitVec.eq_of_toNat_eq hj, ← BitVec.eq_of_toNat_eq hb]
      exact ⟨t, he⟩
  | _ => cases htake

/-- **First in, first out.** When an enqueue draws its ticket only after an index was put in, and
the index of that enqueue has been taken, then the earlier index has been taken as well, or the
dequeue that has drawn its ticket is at work on it. -/
theorem indices_fifo (hr : Initial P r xs) (h : (program r).Reach InRange c) {a b j k : P.Atomic}
    {v : Tid} {before after : List (Event P)} (heq : c.history = before ++ .drawTail u j :: after)
    (hput : .deposit t a k ∈ before) (htake : .take v b j ∈ c.history) :
    (∃ w, .take w a k ∈ c.history) ∨ ∃ w, .drawHead w k ∈ c.history ∧ ¬ Left c.history k := by
  obtain ⟨hw, -⟩ := Reach.glob hr.glob h
  obtain ⟨b₁, b₂, hsplit⟩ := List.append_of_mem hput
  -- The enqueue of the earlier index drew its ticket before that.
  have hdrawn : .drawTail t k ∈ before := by
    have hall : c.history = b₁ ++ .deposit t a k :: (b₂ ++ .drawTail u j :: after) := by
      rw [heq, hsplit, List.append_assoc, List.cons_append]
    rw [hsplit]
    exact List.mem_append_left _ (Reach.deposit hr h hall).1
  have hbefore : tickets c.history
      = tickets before ++ .drawTail u j.toNat :: tickets after := by
    rw [heq]
    exact tickets_append ..
  have hdrawn' : .drawTail t k.toNat ∈ tickets before := List.mem_filterMap.mpr ⟨_, hdrawn, rfl⟩
  have hlt := hw.ring.tickets.lt_of_before hbefore hdrawn'
  have hfirst := (hw.ring.tickets.tail_lt k.toNat (List.mem_filterMap.mpr
    ⟨_, hbefore ▸ List.mem_append_left _ hdrawn', rfl⟩)).1
  have hput' : (k.toNat, a.toNat) ∈ (↑(numbered r.head.toNat xs)
      + ↑((tickets c.history).filterMap CycleRing.depositOf) : Multiset (Nat × Nat)) := by
    rw [deposits_eq, Multiset.mem_add]
    exact .inr (List.mem_filterMap.mpr ⟨_, heq ▸ List.mem_append_left _ hput, rfl⟩)
  have hleft : Left c.history j := ⟨v, .inr ⟨b, htake⟩⟩
  rcases hw.ring.in_order slots_pos hput' hfirst hlt hleft.done with htaken | ⟨w, hown, hdone⟩
  · rw [takes_eq] at htaken
    exact .inl (take_mem htaken)
  · exact .inr ⟨w, drawHead_mem hown, fun hleft => hdone hleft.done⟩

theorem indices_fifo_passing : ∃ c, (program (initEmpty (P := tiny) fun _ => 0)).Reach InRange c
    ∧ .take 1 0 1 ∈ c.history ∧ ((∃ w, .take w 1 0 ∈ c.history)
      ∨ ∃ w, .drawHead w 0 ∈ c.history ∧ ¬ Left c.history 0) := by
  obtain ⟨c, before, after, hreach, heq, ⟨b₁, b₂, rfl⟩, htake⟩ := passing_runs
  have hput : .deposit 0 1 0 ∈ b₁ ++ .deposit 0 1 0 :: b₂ :=
    List.mem_append_right _ List.mem_cons_self
  exact ⟨c, hreach, htake, indices_fifo (.empty _) hreach heq hput htake⟩

end QueueFairness.SCQueue
