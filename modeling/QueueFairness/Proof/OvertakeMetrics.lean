import Mathlib.Algebra.Order.BigOperators.Group.List
import QueueFairness.Proof.Fenwick
import QueueFairness.Lib.Overtaking

/-!
# The sweep computes the depths

The pairs are swept from the latest to the earliest, one group of equal first events after the
other, and the tree holds the ranks of the second events of all pairs that were passed. A query then
counts the pairs that come later in the first order and earlier in the second, which are those that
have overtaken the pair at hand.
-/

namespace QueueFairness.FairnessLogger

open Overtaking

/-! ### Sorting and ranking -/

instance : Std.Total fun a b : Nat × Nat => less b a = false where
  total a b := by
    unfold less
    split <;> split <;> simp <;> omega

instance : IsTrans (Nat × Nat) fun a b => less b a = false where
  trans a b c := by
    unfold less
    intro hab hbc
    split at hab <;> split at hbc <;> split <;> simp_all <;> omega

theorem sortPairs_perm (pairs : List (Nat × Nat)) : (sortPairs pairs).Perm pairs :=
  List.perm_insertionSort ..

theorem sortPairs_sorted (pairs : List (Nat × Nat)) :
    (sortPairs pairs).Pairwise fun a b => a.1 ≤ b.1 := by
  refine (List.pairwise_insertionSort _ pairs).imp fun {a b} h => ?_
  unfold less at h
  split at h <;> simp at h <;> omega

theorem uniqueFrom_sublist (v : Nat) (vals : List Nat) :
    (uniqueFrom v vals).Sublist (v :: vals) := by
  induction vals generalizing v with
  | nil => exact .refl _
  | cons u vals ih =>
      rw [uniqueFrom]
      split
      · exact (ih v).trans ((List.sublist_cons_self u vals).cons_cons v)
      · exact (ih u).cons_cons v

theorem mem_uniqueFrom {v x : Nat} {vals : List Nat} (hx : x ∈ v :: vals) :
    x ∈ uniqueFrom v vals := by
  induction vals generalizing v with
  | nil => exact hx
  | cons u vals ih =>
      rw [uniqueFrom]
      split
      · rename_i heq
        subst heq
        exact ih (by simpa using hx)
      · rcases List.mem_cons.mp hx with rfl | hx
        · exact List.mem_cons_self
        · exact List.mem_cons_of_mem _ (ih hx)

/-- The values that ranks are places in: sorted, and all second events are among them. -/
structure Ranks (pairs : List (Nat × Nat)) (vals : List Nat) : Prop where
  sorted : vals.Pairwise (· ≤ ·)
  mem : ∀ p ∈ pairs, p.2 ∈ vals
  length : vals.length ≤ pairs.length

theorem e2Vals_ranks (pairs : List (Nat × Nat)) : Ranks pairs (e2Vals pairs) := by
  unfold e2Vals
  have hsorted := List.pairwise_insertionSort (· ≤ ·) (pairs.map Prod.snd)
  have hperm := List.perm_insertionSort (· ≤ ·) (pairs.map Prod.snd)
  have hlength : ((pairs.map Prod.snd).insertionSort (· ≤ ·)).length = pairs.length := by
    rw [hperm.length_eq, List.length_map]
  have hmem : ∀ p ∈ pairs, p.2 ∈ (pairs.map Prod.snd).insertionSort (· ≤ ·) := fun p hp =>
    hperm.mem_iff.mpr (List.mem_map_of_mem hp)
  cases hvals : (pairs.map Prod.snd).insertionSort (· ≤ ·) with
  | nil =>
      rw [hvals] at hmem hlength
      exact ⟨.nil, hmem, Nat.le_of_eq hlength⟩
  | cons v vals =>
      rw [hvals] at hmem hlength hsorted
      have hsub := uniqueFrom_sublist v vals
      exact ⟨hsorted.sublist hsub, fun p hp => mem_uniqueFrom (hmem p hp),
        Nat.le_trans hsub.length_le (Nat.le_of_eq hlength)⟩

/-- The place of a value among the sorted ones. -/
theorem lowerBound_lt_iff {vals : List Nat} (hsorted : vals.Pairwise (· ≤ ·)) {u v : Nat}
    (hu : u ∈ vals) : lowerBound vals u < lowerBound vals v ↔ u < v := by
  unfold lowerBound
  constructor
  · intro hlt
    by_contra hge
    exact Nat.not_le.mpr hlt (List.findIdx_le_findIdx fun x _ hx => by
      have hx : u ≤ x := by simpa using hx
      simpa using by omega)
  · intro huv
    have hlt : vals.findIdx (u ≤ ·) < vals.length :=
      List.findIdx_lt_length_of_exists ⟨u, hu, by simp⟩
    refine List.lt_findIdx_of_not hlt fun j hj => ?_
    -- Nothing up to the place of `u` is greater than `u`.
    obtain ⟨m, hm, rfl⟩ := List.getElem_of_mem hu
    have hle : j ≤ m := by
      by_contra hgt
      have hm := List.not_of_lt_findIdx (Nat.lt_of_lt_of_le (Nat.not_le.mp hgt) hj)
      simp at hm
    have hsmall : vals[j] ≤ vals[m] := by
      rcases Nat.eq_or_lt_of_le hle with rfl | hjm
      · exact Nat.le_refl _
      · exact List.pairwise_iff_getElem.mp hsorted j m _ hm hjm
    simpa using Nat.lt_of_le_of_lt hsmall huv

/-- The rank of a second event. -/
def rank (vals : List Nat) (v : Nat) : Nat := lowerBound vals v + 1

/-- What a pair adds to the tree. -/
def entry (vals : List Nat) (p : Nat × Nat) : Nat × Int := (rank vals p.2, 1)

section Sweep

variable {pairs back : List (Nat × Nat)} {vals : List Nat} {bit : Fenwick} {p : Nat × Nat}
  {i j k m : Nat}

theorem rankE2_eq (hlength : vals.length < 2 ^ 30) (v : Nat) :
    rankE2 vals v = some (rank vals v : Int) := by
  have hle : lowerBound vals v ≤ vals.length := List.findIdx_le_length
  rw [rankE2, toInt_eq (by omega), int_eq (by omega) (by omega)]
  rfl

theorem Ranks.rank_le (hv : Ranks pairs vals) (hp : p ∈ pairs) : rank vals p.2 ≤ vals.length :=
  List.findIdx_lt_length_of_exists ⟨p.2, hv.mem p hp, by simp⟩

theorem total_entry (q : Nat → Prop) [DecidablePred q] :
    Fenwick.total (back.map (entry vals)) q = back.countP fun p => q (rank vals p.2) := by
  induction back with
  | nil => rfl
  | cons p back ih =>
      rw [List.map_cons, entry, Fenwick.total_cons, ih, List.countP_cons]
      by_cases hq : q (rank vals p.2)
      · simp [hq, Int.add_comm]
      · simp [hq]

theorem weight_entry : Fenwick.weight (back.map (entry vals)) = back.length := by
  induction back with
  | nil => rfl
  | cons p back ih =>
      rw [List.map_cons, List.length_cons, ← ih]
      exact Nat.add_comm 1 _

/-- The depth that is read off the tree when it holds the pairs of `back`. -/
theorem query_eq (hv : Ranks pairs vals) (hlength : vals.length < 2 ^ 30)
    (hbit : bit.Holds vals.length (back.map (entry vals))) (hback : ∀ q ∈ back, q ∈ pairs)
    (hsize : back.length < 2 ^ 31) (hp : p ∈ pairs) :
    depthAt bit (rank vals p.2) = some (back.countP fun q => q.2 < p.2) := by
  have hcount : (back.countP fun q => rank vals q.2 ≤ rank vals p.2 - 1)
      = back.countP fun q => q.2 < p.2 := by
    refine List.countP_congr fun q hq => ?_
    have hlt := lowerBound_lt_iff hv.sorted (hv.mem q (hback q hq)) (v := p.2)
    rw [decide_eq_true_iff, decide_eq_true_iff, ← hlt, rank, rank]
    omega
  have hrank := hv.rank_le hp
  unfold depthAt
  split
  · have hsub : (rank vals p.2 : Int) - 1 = (rank vals p.2 - 1 : Nat) := by omega
    rw [hsub, hbit.sumPrefix hlength (by rw [weight_entry]; omega) (by omega), total_entry, hcount]
    have hle : (back.countP fun q => q.2 < p.2) ≤ back.length := List.countP_le_length
    exact congrArg some (toSize_eq (by omega))
  · have hfirst : rank vals p.2 - 1 = 0 := by omega
    rw [← hcount, hfirst, List.countP_eq_zero.mpr fun q _ => by simp [rank]]

theorem bind_eq {α γ : Type} {x : Option α} {a : α} (hx : x = some a) (f : α → Option γ) :
    (x >>= f) = f a := by
  rw [hx]
  rfl

/-- The pairs from `j` on go into the tree, one after the other. -/
theorem insert_holds (hv : Ranks pairs vals) (hlength : vals.length < 2 ^ 30)
    {entries : List (Nat × Int)} (hbit : bit.Holds vals.length entries)
    (hweight : Fenwick.weight entries + m < 2 ^ 31) (hend : j + m ≤ pairs.length) :
    ∃ bit' entries', (List.range' j m).foldlM (fun bit k => do
        let r ← rankE2 vals (← pairs[k]?).2
        bit.add r 1) bit = some bit'
      ∧ bit'.Holds vals.length entries'
      ∧ entries'.Perm (((pairs.drop j).take m).map (entry vals) ++ entries) := by
  induction m generalizing j bit entries with
  | zero => exact ⟨bit, entries, rfl, hbit, .refl _⟩
  | succ m ih =>
      have hj : j < pairs.length := by omega
      have hmem : pairs[j] ∈ pairs := List.getElem_mem hj
      have hrank : 0 < rank vals pairs[j].2 := Nat.succ_pos _
      have hweight' : Fenwick.weight (entry vals pairs[j] :: entries)
          = 1 + Fenwick.weight entries := Fenwick.weight_cons
      obtain ⟨bit₁, hadd, hbit₁⟩ := hbit.add hlength hrank (hv.rank_le hmem)
        (Nat.lt_of_le_of_lt (Nat.le_of_eq hweight') (by omega))
      obtain ⟨bit', entries', hfold, hbit', hperm⟩ := ih (j := j + 1) hbit₁ (by
        rw [Fenwick.weight_cons, Int.natAbs_one]
        omega) (by omega)
      refine ⟨bit', entries', ?_, hbit', hperm.trans ?_⟩
      · rw [List.range'_succ, List.foldlM_cons]
        refine (bind_eq ?_ _).trans hfold
        exact (bind_eq (List.getElem?_eq_getElem hj) _).trans
          ((bind_eq (rankE2_eq hlength _) _).trans hadd)
      · rw [List.drop_eq_getElem_cons hj, List.take_succ_cons, List.map_cons, List.cons_append]
        exact List.perm_middle

/-- The depths from `j` on are written, one after the other. -/
theorem query_depths {d : Nat → Nat} (depth : List Nat) {body : List Nat → Nat → Option (List Nat)}
    (hbody : ∀ depth k, j ≤ k → k < j + m → body depth k = some (depth.set k (d k)))
    (hend : j + m ≤ depth.length) :
    ∃ depth', (List.range' j m).foldlM body depth = some depth' ∧ depth'.length = depth.length
      ∧ ∀ k : Nat, depth'[k]? = if j ≤ k ∧ k < j + m then some (d k) else depth[k]? := by
  induction m generalizing j depth with
  | zero =>
      refine ⟨depth, rfl, rfl, fun k => ?_⟩
      rw [if_neg (by omega)]
  | succ m ih =>
      obtain ⟨depth', hfold, hlength, hget⟩ := ih (j := j + 1) (depth.set j (d j))
        (fun depth k hk hk' => hbody depth k (by omega) (by omega)) (by simpa using by omega)
      refine ⟨depth', ?_, by simpa using hlength, fun k => ?_⟩
      · rw [List.range'_succ, List.foldlM_cons]
        exact (bind_eq (hbody depth j (Nat.le_refl j) (by omega)) _).trans hfold
      · rw [hget k]
        by_cases hkj : k = j
        · subst hkj
          rw [if_neg (by omega), if_pos (by omega), List.getElem?_set_self (by omega)]
        · rw [List.getElem?_set_ne (Ne.symm hkj)]
          by_cases hk : j ≤ k ∧ k < j + (m + 1)
          · rw [if_pos hk, if_pos (by omega)]
          · rw [if_neg hk, if_neg (by omega)]

/-! ### Groups -/

theorem groupStart_le (e1 : Nat) : groupStart pairs e1 i ≤ i := by
  induction i with
  | zero => exact Nat.le_refl 0
  | succ i ih =>
      rw [groupStart]
      split
      · exact Nat.le_succ_of_le ih
      · exact Nat.le_refl _

theorem groupStart_lt (hi : 0 < i) (hlast : pairs[i - 1]? = some p) :
    groupStart pairs p.1 i < i := by
  cases i with
  | zero => omega
  | succ i =>
      rw [groupStart, if_pos (by rw [Nat.add_sub_cancel] at hlast; rw [hlast]; rfl)]
      exact Nat.lt_succ_of_le (groupStart_le _)

/-- All of the group have the same first event. -/
theorem fst_eq_of_group {e1 : Nat} (hk : groupStart pairs e1 i ≤ k) (hki : k < i)
    (hp : pairs[k]? = some p) : p.1 = e1 := by
  induction i with
  | zero => omega
  | succ i ih =>
      rw [groupStart] at hk
      split at hk
      · rename_i heq
        rcases Nat.lt_succ_iff_lt_or_eq.mp hki with hlt | rfl
        · exact ih hk hlt
        · rw [hp] at heq
          exact Option.some.inj heq
      · omega

/-- The group is complete. -/
theorem fst_ne_of_groupStart {e1 : Nat} (hpos : 0 < groupStart pairs e1 i)
    (hp : pairs[groupStart pairs e1 i - 1]? = some p) : p.1 ≠ e1 := by
  induction i with
  | zero => exact absurd hpos (Nat.lt_irrefl 0)
  | succ i ih =>
      rw [groupStart] at hpos hp
      split at hpos
      · rename_i heq
        rw [if_pos heq] at hp
        exact ih hpos hp
      · rename_i hne
        rw [if_neg hne, Nat.add_sub_cancel] at hp
        rintro rfl
        exact hne (by rw [hp]; rfl)

/-! ### The sweep -/

/-- The pairs from `i` on, which all have later first events than those before, were swept. -/
structure Swept (pairs : List (Nat × Nat)) (vals : List Nat) (i : Nat) (bit : Fenwick)
    (depth : List Nat) : Prop where
  le : i ≤ pairs.length
  boundary : ∀ a b p q, a < i → i ≤ b → pairs[a]? = some p → pairs[b]? = some q → p.1 < q.1
  holds : bit.Holds vals.length ((pairs.drop i).map (entry vals))
  length : depth.length = pairs.length
  depth : ∀ k p, i ≤ k → pairs[k]? = some p → depth[k]? = some (Overtaking.depth pairs p)

theorem fst_le_of_le (hsorted : pairs.Pairwise fun a b => a.1 ≤ b.1) {a b : Nat} {q : Nat × Nat}
    (hab : a ≤ b) (hp : pairs[a]? = some p) (hq : pairs[b]? = some q) : p.1 ≤ q.1 := by
  obtain ⟨ha, rfl⟩ := List.getElem?_eq_some_iff.mp hp
  obtain ⟨hb, rfl⟩ := List.getElem?_eq_some_iff.mp hq
  rcases Nat.eq_or_lt_of_le hab with rfl | hlt
  · exact Nat.le_refl _
  · exact List.pairwise_iff_getElem.mp hsorted a b ha hb hlt

/-- A pair of the group is overtaken by those that were swept before. -/
theorem Swept.depth_eq {bit : Fenwick} {depth : List Nat}
    (hsorted : pairs.Pairwise fun a b => a.1 ≤ b.1) (hs : Swept pairs vals i bit depth)
    {e1 : Nat} (hk : groupStart pairs e1 i ≤ k) (hki : k < i) (hp : pairs[k]? = some p) :
    Overtaking.depth pairs p = (pairs.drop i).countP fun q => q.2 < p.2 := by
  have hfst := fst_eq_of_group hk hki hp
  conv_lhs => rw [← List.take_append_drop i pairs]
  refine depth_append (fun q hq => ?_) fun q hq => ?_
  · obtain ⟨a, ha⟩ := List.mem_iff_getElem?.mp hq
    rw [List.getElem?_take] at ha
    split at ha
    · rename_i hai
      rcases Nat.le_total a k with hak | hka
      · exact fst_le_of_le hsorted hak ha hp
      · rw [fst_eq_of_group (Nat.le_trans hk hka) hai ha, hfst]
    · cases ha
  · obtain ⟨b, hb⟩ := List.mem_iff_getElem?.mp hq
    rw [List.getElem?_drop] at hb
    exact hs.boundary k (i + b) p q hki (Nat.le_add_right i b) hp hb

/-- **One iteration of the sweep.** -/
theorem Swept.step {bit : Fenwick} {depth : List Nat}
    (hsorted : pairs.Pairwise fun a b => a.1 ≤ b.1) (hv : Ranks pairs vals)
    (hsize : pairs.length < 2 ^ 30) (hs : Swept pairs vals i bit depth) (e1 : Nat)
    {j : Nat} (hj : groupStart pairs e1 i = j) :
    ∃ depth' bit', queryGroup pairs vals bit j i depth = some depth'
      ∧ insertGroup pairs vals j i bit = some bit' ∧ Swept pairs vals j bit' depth' := by
  have hlength : vals.length < 2 ^ 30 := Nat.lt_of_le_of_lt hv.length hsize
  have hji : j ≤ i := hj ▸ groupStart_le e1
  have hend : j + (i - j) ≤ pairs.length := by
    have := hs.le
    omega
  have hdrop : (pairs.drop i).length < 2 ^ 30 := by
    rw [List.length_drop]
    omega
  -- The group is queried while the tree holds what comes after it.
  let d : Nat → Nat := fun k => ((pairs[k]?).map (Overtaking.depth pairs)).getD 0
  have hbody : ∀ (depth : List Nat) (k : Nat), j ≤ k → k < j + (i - j) → (do
      let r ← rankE2 vals (← pairs[k]?).2
      let d ← depthAt bit r
      return depth.set k d) = some (depth.set k (d k)) := by
    intro depth k hk hk'
    have hlt : k < pairs.length := by omega
    have hp := List.getElem?_eq_getElem hlt
    have hd : d k = (pairs.drop i).countP fun q => q.2 < pairs[k].2 := by
      simp only [d, hp, Option.map_some, Option.getD_some]
      exact hs.depth_eq hsorted (hj ▸ hk) (by omega) hp
    have hquery := query_eq hv hlength hs.holds (fun q hq => List.mem_of_mem_drop hq)
      (Nat.lt_trans hdrop (by omega)) (List.getElem_mem hlt)
    rw [hd]
    exact (bind_eq hp _).trans ((bind_eq (rankE2_eq hlength _) _).trans (bind_eq hquery _))
  obtain ⟨depth', hquery, hlength', hget⟩ :=
    query_depths depth hbody (by rw [hs.length]; exact hend)
  obtain ⟨bit', entries', hinsert, hholds, hperm⟩ := insert_holds hv hlength hs.holds
    (m := i - j) (j := j) (by rw [weight_entry]; omega) hend
  refine ⟨depth', bit', hquery, hinsert, Nat.le_trans hji hs.le, ?_, ?_, hlength'.trans hs.length,
    ?_⟩
  · intro a b p q ha hb hp hq
    rcases Nat.lt_or_ge b i with hbi | hib
    · -- The last pair before the group has another first event, and no later one.
      have hprev := List.getElem?_eq_getElem (l := pairs) (i := j - 1) (by omega)
      have hfst := fst_eq_of_group (Nat.le_trans (Nat.le_of_eq hj) hb) hbi hq
      have hne : pairs[j - 1].1 ≠ e1 := by
        subst hj
        exact fst_ne_of_groupStart (Nat.zero_lt_of_lt ha) hprev
      have hle := fst_le_of_le hsorted (Nat.le_sub_one_of_lt ha) hp hprev
      have hle' := fst_le_of_le hsorted (Nat.le_trans (Nat.sub_le j 1) hb) hprev hq
      omega
    · exact hs.boundary a b p q (by omega) hib hp hq
  · refine hholds.perm (hperm.trans ?_)
    rw [← List.map_append]
    have hsplit := List.take_append_drop (i - j) (pairs.drop j)
    rw [List.drop_drop, Nat.add_sub_cancel' hji] at hsplit
    rw [hsplit]
  · intro k p hk hp
    rw [hget k]
    split
    · simp [d, hp]
    · exact hs.depth k p (by omega) hp

/-- **The sweep computes the depth of every pair.** -/
theorem sweep_eq {bit : Fenwick} {depth : List Nat} (hsorted : pairs.Pairwise fun a b => a.1 ≤ b.1)
    (hv : Ranks pairs vals) (hsize : pairs.length < 2 ^ 30) (hs : Swept pairs vals i bit depth)
    {fuel : Nat} (hfuel : i < fuel) : sweep pairs vals fuel i bit depth = some (depths pairs) := by
  induction fuel generalizing i bit depth with
  | zero => omega
  | succ fuel ih =>
      rw [sweep]
      split
      · rename_i hi
        have hlt : i - 1 < pairs.length := by
          have := hs.le
          omega
        have hlast := List.getElem?_eq_getElem hlt
        obtain ⟨depth', bit', hquery, hinsert, hs'⟩ := hs.step hsorted hv hsize pairs[i - 1].1 rfl
        have hj := groupStart_lt hi hlast
        refine (bind_eq hlast _).trans ((bind_eq hquery _).trans ((bind_eq hinsert _).trans ?_))
        exact ih hs' (by omega)
      · rename_i hi
        obtain rfl : i = 0 := by omega
        refine congrArg some (List.ext_getElem? fun k => ?_)
        rw [depths, List.getElem?_map]
        cases hp : pairs[k]? with
        | none =>
            rw [List.getElem?_eq_none_iff] at hp
            exact List.getElem?_eq_none (hs.length ▸ hp)
        | some p => exact hs.depth k p k.zero_le hp

theorem swept_start (hlength : pairs.length < 2 ^ 30) (hv : Ranks pairs vals) :
    ∃ bit, Fenwick.new (toInt vals.length) = some bit
      ∧ Swept pairs vals pairs.length bit (List.replicate pairs.length 0) := by
  have hvals : vals.length < 2 ^ 30 := Nat.lt_of_le_of_lt hv.length hlength
  obtain ⟨bit, hnew, hbit⟩ := Fenwick.new_holds hvals
  refine ⟨bit, by rw [toInt_eq (by omega), hnew], Nat.le_refl _, ?_, ?_, List.length_replicate, ?_⟩
  · intro a b p q _ hb _ hq
    obtain ⟨hlt, -⟩ := List.getElem?_eq_some_iff.mp hq
    omega
  · rw [List.drop_length]
    exact hbit
  · intro k p hk hp
    obtain ⟨hlt, -⟩ := List.getElem?_eq_some_iff.mp hp
    omega

end Sweep

/-! ### The figures -/

/-- The figures, from how deep every pair is overtaken. -/
def figures (depths : List Nat) : OvertakeMetrics where
  meanAllElements := depths.sum / depths.length
  meanOvertakenElements := depths.sum / (depths.countP (0 < ·) : ℕ)
  maxDepth := depths.foldr max 0
  count := depths.countP (0 < ·)
  pct := 100 * (depths.countP (0 < ·) : ℕ) / depths.length

theorem foldl_aggregate {depth : List Nat} {sum maxDepth count : Nat}
    (hsum : sum + depth.sum < 2 ^ 64) :
    depth.foldl (fun (sum, maxDepth, count) d =>
      ((sum + d) % 2 ^ 64, if d > maxDepth then d else maxDepth,
        if d > 0 then count + 1 else count)) (sum, maxDepth, count)
      = (sum + depth.sum, max maxDepth (depth.foldr max 0), count + depth.countP (0 < ·)) := by
  induction depth generalizing sum maxDepth count with
  | nil => simp
  | cons d depth ih =>
      rw [List.sum_cons] at hsum ⊢
      have hmod : (sum + d) % 2 ^ 64 = sum + d := Nat.mod_eq_of_lt (by omega)
      have hmax : (if d > maxDepth then d else maxDepth) = max maxDepth d := by
        split <;> omega
      simp only [List.foldl_cons, hmod, hmax]
      rw [ih (by omega), List.foldr_cons, List.countP_cons]
      refine Prod.ext (Nat.add_assoc ..) (Prod.ext (Nat.max_assoc ..) ?_)
      by_cases hd : d > 0
      · simp [hd]
        omega
      · simp [hd]

theorem aggregate_eq {depth : List Nat} (hsum : depth.sum < 2 ^ 64) :
    aggregate depth = (depth.sum, depth.foldr max 0, depth.countP (0 < ·)) := by
  rw [aggregate, foldl_aggregate (by omega), Nat.zero_add, Nat.zero_add, Nat.zero_max]

/-- The aggregation loop and the divisions that follow it. -/
theorem metricsOf_eq {depth : List Nat} (hsum : depth.sum < 2 ^ 64) :
    metricsOf depth = figures depth := by
  have hdiv : ∀ (x : ℚ) (n : ℕ), (if (n : ℚ) > 0 then x / n else 0) = x / n := by
    intro x n
    rcases Nat.eq_zero_or_pos n with rfl | hn
    · simp
    · rw [if_pos (by exact_mod_cast hn)]
  have hcount : ∀ (x : ℚ) (n : ℕ), (if n > 0 then x / (n : ℚ) else 0) = x / n := by
    intro x n
    simpa using hdiv x n
  simp only [metricsOf, aggregate_eq hsum, figures, hdiv, hcount]

theorem figures_perm {depths depths' : List Nat} (h : depths.Perm depths') :
    figures depths = figures depths' := by
  rw [figures, figures, h.sum_eq, h.length_eq, h.countP_eq, h.foldr_eq]

theorem sum_depths_le (pairs : List (Nat × Nat)) :
    (depths pairs).sum ≤ pairs.length * pairs.length := by
  have hle : ∀ d ∈ depths pairs, d ≤ pairs.length := fun d hd => by
    obtain ⟨p, -, rfl⟩ := List.mem_map.mp hd
    exact depth_le
  simpa [depths] using List.sum_le_card_nsmul (depths pairs) pairs.length hle

theorem metricsOf_depths {pairs : List (Nat × Nat)} (hlength : pairs.length < 2 ^ 30) :
    metricsOf (depths pairs) = figures (depths pairs) := by
  refine metricsOf_eq (Nat.lt_of_le_of_lt (sum_depths_le pairs) ?_)
  calc pairs.length * pairs.length ≤ 2 ^ 30 * 2 ^ 30 :=
        Nat.mul_le_mul (Nat.le_of_lt hlength) (Nat.le_of_lt hlength)
    _ < 2 ^ 64 := by decide

/-- The figures are those of the pairs, as long as these are not too many to be counted. -/
theorem compute_eq {records : List LogRecord} {event1 event2 : EventTimestamp}
    (hlength : (tsPairs records event1 event2).length < 2 ^ 30) :
    computeOvertakeMetrics records event1 event2
      = some (figures (depths (tsPairs records event1 event2))) := by
  have hempty : some ({} : OvertakeMetrics) = some (figures (depths ([] : List (Nat × Nat)))) := by
    simp [figures, depths]
  rw [computeOvertakeMetrics]
  split
  · rename_i hnil
    rw [hnil]
    exact hempty
  split
  · rename_i hnil
    rw [hnil]
    exact hempty
  have hperm := sortPairs_perm (tsPairs records event1 event2)
  have hsize : (sortPairs (tsPairs records event1 event2)).length < 2 ^ 30 := by
    rw [hperm.length_eq]
    exact hlength
  have hv := e2Vals_ranks (sortPairs (tsPairs records event1 event2))
  obtain ⟨bit, hnew, hswept⟩ := swept_start hsize hv
  have hsweep := sweep_eq (sortPairs_sorted _) hv hsize hswept (Nat.lt_succ_self _)
  refine (bind_eq hnew _).trans ((bind_eq hsweep _).trans (congrArg some ?_))
  rw [metricsOf_depths hsize]
  exact figures_perm (depths_perm hperm)

/-- The pairs of the records whose first event is not zero. -/
def eventPairs (records : List LogRecord) (event1 event2 : EventTimestamp) : List (Nat × Nat) :=
  (records.map fun r => (getField r event1, getField r event2)).filter fun p => p.1 ≠ 0

theorem tsPairs_eq (records : List LogRecord) (event1 event2 : EventTimestamp) :
    tsPairs records event1 event2 = eventPairs records event1 event2 := by
  induction records with
  | nil => rfl
  | cons r records ih =>
      rw [tsPairs, eventPairs, List.filterMap_cons, List.map_cons, List.filter_cons]
      rw [tsPairs, eventPairs] at ih
      by_cases hzero : getField r event1 = 0
      · simp [hzero, ih]
      · simp [hzero, ih]

/-- **`compute_overtake_metrics` computes the figures of the direct definition.** A pair is as deep
overtaken as there are pairs with a later first and an earlier second event. -/
theorem computes_overtaking (records : List LogRecord) (event1 event2 : EventTimestamp)
    (hlength : records.length < 2 ^ 30) :
    computeOvertakeMetrics records event1 event2
      = some (figures (depths (eventPairs records event1 event2))) := by
  have hfilter : (tsPairs records event1 event2).length ≤ records.length :=
    List.length_filterMap_le ..
  rw [compute_eq (Nat.lt_of_le_of_lt hfilter hlength), tsPairs_eq]

/-- Ties in the first event and in both, and a record that has no first event. -/
theorem computes_overtaking_ties :
    computeOvertakeMetrics [⟨3, 1, 0, 0⟩, ⟨2, 5, 0, 0⟩, ⟨0, 1, 0, 0⟩, ⟨3, 2, 0, 0⟩, ⟨2, 5, 0, 0⟩]
        .enqueueInv .enqueueLin
      = some { meanAllElements := 1, meanOvertakenElements := 2, maxDepth := 2, count := 2,
               pct := 50 } :=
  (computes_overtaking _ _ _ (by decide)).trans (by decide +kernel)

end QueueFairness.FairnessLogger
