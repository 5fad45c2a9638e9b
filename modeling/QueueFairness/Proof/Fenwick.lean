import Mathlib.Algebra.BigOperators.Group.List.Basic
import QueueFairness.FairnessLogger
import QueueFairness.Lib.BinaryIndexed

/-!
# The Fenwick tree

The vector of a tree holds, at every node, the sum of what was added at the indices the node covers.
As long as nothing overflows, `add` keeps that and `sum_prefix` sums it up over the intervals that
make a prefix.
-/

namespace QueueFairness.FairnessLogger

open BinaryIndexed

theorem int_eq {x : Int} (hlo : -2 ^ 31 ≤ x) (hhi : x < 2 ^ 31) : int x = some x :=
  if_pos ⟨hlo, hhi⟩

theorem eq_of_int {x y : Int} (h : int x = some y) : y = x := by
  unfold int at h
  split at h
  · exact (Option.some.inj h).symm
  · cases h

theorem toInt_eq {n : Nat} (hn : n < 2 ^ 31) : toInt n = n := by
  unfold toInt
  rw [Int.bmod_eq_of_le] <;> omega

theorem toSize_eq {n : Nat} (hn : n < 2 ^ 64) : toSize n = n := by
  unfold toSize
  omega

namespace Fenwick

theorem lowest_eq {k : Nat} (hk : 0 < k) (hlt : k < 2 ^ 31) : lowest k = some (lowBit k : Int) := by
  have hneg : int (-k) = some (-k : Int) := int_eq (by omega) (by omega)
  have hle := lowBit_le k
  have hself : (BitVec.ofInt 32 k).toNat = k := by
    rw [BitVec.toNat_ofInt]
    omega
  have hcomplement : (BitVec.ofInt 32 (-k)).toNat = 2 ^ 32 - k := by
    rw [BitVec.toNat_ofInt]
    omega
  have hand : (BitVec.ofInt 32 k &&& BitVec.ofInt 32 (-k)).toNat = lowBit k := by
    rw [BitVec.toNat_and, hself, hcomplement, land_neg hk (by omega)]
  rw [lowest, hneg]
  refine congrArg some ?_
  rw [BitVec.toInt_eq_toNat_of_lt (by omega), hand]

/-- What was added at the indices `p` admits. -/
def total (entries : List (Nat × Int)) (p : Nat → Prop) [DecidablePred p] : Int :=
  ((entries.filter fun e => p e.1).map Prod.snd).sum

/-- The sum of the absolute values of what was added. -/
def weight (entries : List (Nat × Int)) : Nat := (entries.map fun e => e.2.natAbs).sum

section Total

variable {entries : List (Nat × Int)} {p q r : Nat → Prop} [DecidablePred p] [DecidablePred q]
  [DecidablePred r] {k : Nat} {v : Int}

@[simp]
theorem total_nil : total [] p = 0 := rfl

theorem total_cons : total ((k, v) :: entries) p = (if p k then v else 0) + total entries p := by
  by_cases hk : p k
  · simp [total, hk]
  · simp [total, hk]

theorem weight_cons : weight ((k, v) :: entries) = v.natAbs + weight entries := rfl

theorem natAbs_total_le (entries : List (Nat × Int)) (p : Nat → Prop) [DecidablePred p] :
    (total entries p).natAbs ≤ weight entries := by
  induction entries with
  | nil => exact Nat.zero_le _
  | cons e entries ih =>
      obtain ⟨k, v⟩ := e
      rw [total_cons, weight_cons]
      split <;> omega

theorem total_congr (h : ∀ e ∈ entries, p e.1 ↔ q e.1) : total entries p = total entries q := by
  unfold total
  rw [List.filter_congr fun e he => decide_eq_decide.mpr (h e he)]

theorem total_eq_zero (h : ∀ e ∈ entries, ¬ p e.1) : total entries p = 0 := by
  rw [total, List.filter_eq_nil_iff.mpr fun e he => by simpa using h e he]
  rfl

theorem total_perm {entries' : List (Nat × Int)} (h : entries.Perm entries') :
    total entries p = total entries' p :=
  ((h.filter _).map _).sum_eq

/-- What was added at the indices of two disjoint sets. -/
theorem total_add (h : ∀ k, r k ↔ p k ∨ q k) (hdisjoint : ∀ k, p k → ¬ q k) :
    total entries p + total entries q = total entries r := by
  induction entries with
  | nil => rfl
  | cons e entries ih =>
      obtain ⟨k, v⟩ := e
      rw [total_cons, total_cons, total_cons, ← ih]
      have hr := h k
      have hd := hdisjoint k
      by_cases hp : p k
      · rw [if_pos hp, if_neg (hd hp), if_pos (hr.mpr (.inl hp))]
        omega
      · by_cases hq : q k
        · rw [if_neg hp, if_pos hq, if_pos (hr.mpr (.inr hq))]
          omega
        · rw [if_neg hp, if_neg hq, if_neg fun h => (hr.mp h).elim hp hq]
          omega

end Total

/-- The tree over the indices from 1 to `n` holds what was added. -/
structure Holds (b : Fenwick) (n : Nat) (entries : List (Nat × Int)) : Prop where
  length : b.bit.length = n + 1
  cell : ∀ i, 0 < i → i ≤ n → b.bit[i]? = some (total entries (Covers i))
  pos : ∀ e ∈ entries, 0 < e.1

variable {b : Fenwick} {n k q : Nat} {val : Int} {entries : List (Nat × Int)}

theorem Holds.perm {entries' : List (Nat × Int)} (hb : Holds b n entries)
    (h : entries.Perm entries') : Holds b n entries' where
  length := hb.length
  cell i hi hin := (hb.cell i hi hin).trans (congrArg some (total_perm h))
  pos e he := hb.pos e (h.mem_iff.mpr he)

theorem get_eq {i : Nat} : b.get i = b.bit[i]? := by
  rw [get, if_neg (by omega), Int.toNat_natCast]

theorem new_holds (hn : n < 2 ^ 30) : ∃ b, new n = some b ∧ Holds b n [] := by
  have hsize : int ((n : Int) + 1) = some ((n + 1 : Nat) : Int) := int_eq (by omega) (by omega)
  refine ⟨⟨List.replicate (n + 1) 0⟩, ?_, List.length_replicate, fun i hi hin => ?_, by simp⟩
  · rw [new, hsize]
    refine congrArg (fun size => some (Fenwick.mk (List.replicate size 0))) ?_
    exact toSize_eq (by omega)
  · exact List.getElem?_replicate_of_lt (by omega)

theorem addLoop_next {idx x sum low next : Int} {fuel : Nat} (hlt : idx < toInt b.bit.length)
    (hget : b.get idx = some x) (hsum : int (x + val) = some sum) (hlow : lowest idx = some low)
    (hnext : int (idx + low) = some next) :
    addLoop val (fuel + 1) idx b = addLoop val fuel next ⟨b.bit.set idx.toNat sum⟩ := by
  simp only [addLoop, if_pos hlt, hget, hlow, hsum, hnext, Option.bind_eq_bind, Option.bind_some]

theorem sumLoop_next {idx s x sum low next : Int} {fuel : Nat} (hpos : 0 < idx)
    (hget : b.get idx = some x) (hsum : int (s + x) = some sum) (hlow : lowest idx = some low)
    (hnext : int (idx - low) = some next) :
    b.sumLoop (fuel + 1) idx s = b.sumLoop fuel next sum := by
  simp only [sumLoop, if_pos hpos, hget, hlow, hsum, hnext, Option.bind_eq_bind, Option.bind_some]

theorem addLoop_spec (hn : n < 2 ^ 30) {fuel : Nat} {f : Nat → Int} (hk : 0 < k)
    (hfuel : n + 1 - k < fuel) (hlength : b.bit.length = n + 1)
    (hcell : ∀ i, 0 < i → i ≤ n → b.bit[i]? = some (f i))
    (hfits : ∀ i, 0 < i → i ≤ n → Covers i k → -2 ^ 31 ≤ f i + val ∧ f i + val < 2 ^ 31) :
    ∃ b', addLoop val fuel k b = some b' ∧ b'.bit.length = n + 1
      ∧ ∀ i, 0 < i → i ≤ n → b'.bit[i]? = some (f i + if Covers i k then val else 0) := by
  induction fuel generalizing k b f with
  | zero => omega
  | succ fuel ih =>
      have hpos := lowBit_pos hk
      have hle := lowBit_le k
      have hsize : toInt b.bit.length = n + 1 := by
        rw [hlength, toInt_eq (by omega)]
        rfl
      by_cases hkn : k ≤ n
      · have hself := hfits k hk hkn (covers_self hk)
        let f' : Nat → Int := Function.update f k (f k + val)
        have hget : b.get k = some (f k) := get_eq.trans (hcell k hk hkn)
        have hsum : int (f k + val) = some (f k + val) := int_eq hself.1 hself.2
        have hnext : int ((k : Int) + lowBit k) = some ((k + lowBit k : Nat) : Int) :=
          int_eq (by omega) (by omega)
        have hf' : ∀ i, 0 < i → i ≤ n → (b.bit.set k (f k + val))[i]? = some (f' i) := by
          intro i hi hin
          by_cases hik : i = k
          · subst hik
            rw [List.getElem?_set_self (by omega)]
            simp [f']
          · rw [List.getElem?_set_ne (Ne.symm hik), hcell i hi hin]
            simp [f', hik]
        have hfits' : ∀ i, 0 < i → i ≤ n → Covers i (k + lowBit k) →
            -2 ^ 31 ≤ f' i + val ∧ f' i + val < 2 ^ 31 := by
          intro i hi hin hcovers
          have hik : i ≠ k := fun heq => not_covers_next hk (heq ▸ hcovers)
          simpa [f', hik] using hfits i hi hin ((covers_next hk hik).mpr hcovers)
        obtain ⟨b', hadd, hlength', hcell'⟩ :=
          ih (k := k + lowBit k) (b := ⟨b.bit.set k (f k + val)⟩)
          (f := f') (by omega) (by omega) (by simpa using hlength) hf' hfits'
        refine ⟨b', ?_, hlength', fun i hi hin => ?_⟩
        · rw [addLoop_next (by omega) hget hsum (lowest_eq hk (by omega)) hnext]
          exact hadd
        · rw [hcell' i hi hin]
          by_cases hik : i = k
          · subst hik
            simp [f', not_covers_next hk, covers_self hk]
          · simp [f', hik, covers_next hk hik]
      · refine ⟨b, by rw [addLoop, if_neg (by omega)], hlength, fun i hi hin => ?_⟩
        rw [hcell i hi hin, if_neg fun h => hkn (Nat.le_trans h.2 hin), Int.add_zero]

/-- **`add` adds.** -/
theorem Holds.add (hb : Holds b n entries) (hn : n < 2 ^ 30) (hk : 0 < k) (hkn : k ≤ n)
    (hweight : weight ((k, val) :: entries) < 2 ^ 31) :
    ∃ b', b.add k val = some b' ∧ Holds b' n ((k, val) :: entries) := by
  rw [weight_cons] at hweight
  have hfits : ∀ i, 0 < i → i ≤ n → Covers i k →
      -2 ^ 31 ≤ total entries (Covers i) + val ∧ total entries (Covers i) + val < 2 ^ 31 := by
    intro i _ _ _
    have := natAbs_total_le entries (Covers i)
    omega
  have hfuel : n + 1 - k < b.bit.length + 1 := by
    rw [hb.length]
    omega
  obtain ⟨b', hadd, hlength, hcell⟩ :=
    addLoop_spec hn hk hfuel hb.length hb.cell hfits
  refine ⟨b', hadd, hlength, fun i hi hin => ?_, ?_⟩
  · rw [hcell i hi hin, total_cons, Int.add_comm]
  · exact List.forall_mem_cons.mpr ⟨hk, hb.pos⟩

theorem Holds.sumLoop (hb : Holds b n entries) (hn : n < 2 ^ 30) (hweight : weight entries < 2 ^ 31)
    {q₀ fuel : Nat} {s : Int} (hle : q ≤ q₀) (hqn : q ≤ n) (hfuel : q < fuel)
    (hs : s = total entries fun k => q < k ∧ k ≤ q₀) :
    b.sumLoop fuel q s = some (total entries (· ≤ q₀)) := by
  induction fuel generalizing q s with
  | zero => omega
  | succ fuel ih =>
      rcases Nat.eq_zero_or_pos q with rfl | hq
      · rw [sumLoop, if_neg (by omega), hs]
        refine congrArg some (total_congr fun e he => ?_)
        have := hb.pos e he
        omega
      · have hpos := lowBit_pos hq
        have hlow := lowBit_le q
        -- What the node covers comes on top of what has been summed up.
        have hsum : s + total entries (Covers q)
            = total entries fun k => q - lowBit q < k ∧ k ≤ q₀ := by
          rw [hs]
          refine total_add (fun k => ?_) fun k => ?_ <;> unfold Covers <;> omega
        have hfits := natAbs_total_le entries fun k => q - lowBit q < k ∧ k ≤ q₀
        have hnext : int ((q : Int) - lowBit q) = some ((q - lowBit q : Nat) : Int) := by
          rw [int_eq (by omega) (by omega)]
          refine congrArg some ?_
          omega
        rw [sumLoop_next (by omega) (get_eq.trans (hb.cell q hq hqn))
          (int_eq (by omega) (by omega)) (lowest_eq hq (by omega)) hnext]
        exact ih (by omega) (by omega) (by omega) hsum

/-- **`sum_prefix` sums up a prefix.** -/
theorem Holds.sumPrefix (hb : Holds b n entries) (hn : n < 2 ^ 30)
    (hweight : weight entries < 2 ^ 31) (hqn : q ≤ n) :
    b.sumPrefix q = some (total entries (· ≤ q)) := by
  have hfuel : q < b.bit.length + 1 := by
    rw [hb.length]
    omega
  refine hb.sumLoop hn hweight (Nat.le_refl q) hqn hfuel (total_eq_zero fun e _ => ?_).symm
  omega

/-! ### The indices -/

theorem getElem?_of_get {idx x : Int} (h : b.get idx = some x) : b.bit[idx.toNat]? = some x := by
  unfold get at h
  split at h
  · cases h
  · exact h

theorem addIndices_congr {b' : Fenwick} (h : b'.bit.length = b.bit.length) (fuel : Nat)
    (idx : Int) : b'.addIndices fuel idx = b.addIndices fuel idx := by
  induction fuel generalizing idx with
  | zero => rfl
  | succ fuel ih => simp only [addIndices, h, ih]

/-- The vector after `val` has been added at the indices, as far as these are in it. -/
def addAt (b : Fenwick) (indices : List Int) (val : Int) : List Int :=
  (indices.filter (· < toInt b.bit.length)).foldl
    (fun bit i => bit.modify i.toNat (· + val)) b.bit

/-- The sum of what is at the positive indices. -/
def sumAt (b : Fenwick) (indices : List Int) : Int :=
  ((indices.filter (0 < ·)).map fun i => (b.get i).getD 0).sum

/-- The loop of `add` adds at the indices that it goes through. -/
theorem addLoop_indices {fuel : Nat} {idx : Int} {b' : Fenwick}
    (h : addLoop val fuel idx b = some b') : b'.bit = b.addAt (b.addIndices fuel idx) val := by
  induction fuel generalizing idx b with
  | zero => cases h
  | succ fuel ih =>
      rw [addLoop] at h
      rw [addIndices]
      split at h
      · rename_i hlt
        simp only [Option.bind_eq_bind, Option.bind_eq_some_iff] at h
        obtain ⟨x, hget, sum, hsum, low, hlow, next, hnext, h⟩ := h
        obtain rfl := eq_of_int hsum
        obtain rfl := eq_of_int hnext
        have hset : b.bit.set idx.toNat (x + val) = b.bit.modify idx.toNat (· + val) := by
          rw [List.modify_eq_set, getElem?_of_get hget]
          rfl
        rw [ih h, addAt, addAt, addIndices_congr (b := b) (List.length_set ..), List.length_set,
          if_pos hlt, hlow, List.filter_cons_of_pos (by simpa using hlt), List.foldl_cons, ← hset]
        rfl
      · rename_i hge
        obtain rfl := Option.some.inj h
        simp [addAt, hge]

/-- The loop of `sum_prefix` sums up what is at the indices that it goes through. -/
theorem sumLoop_indices {fuel : Nat} {idx s r : Int} (h : b.sumLoop fuel idx s = some r) :
    r = s + b.sumAt (sumIndices fuel idx) := by
  induction fuel generalizing idx s with
  | zero => cases h
  | succ fuel ih =>
      rw [sumLoop] at h
      rw [sumIndices]
      split at h
      · rename_i hpos
        simp only [Option.bind_eq_bind, Option.bind_eq_some_iff] at h
        obtain ⟨x, hget, sum, hsum, low, hlow, next, hnext, h⟩ := h
        obtain rfl := eq_of_int hsum
        obtain rfl := eq_of_int hnext
        rw [ih h, sumAt, sumAt, if_pos hpos, hlow, List.filter_cons_of_pos (by simpa using hpos),
          List.map_cons, List.sum_cons, hget, ← Int.add_assoc]
        rfl
      · rename_i hle
        obtain rfl := Option.some.inj h
        simp [sumAt, hle]

theorem addIndices_le (hn : n < 2 ^ 30) (hlength : b.bit.length = n + 1) (hk : 0 < k)
    (hkw : k ≤ 2 ^ 30) (fuel : Nat) : ∀ i ∈ b.addIndices fuel k, 0 ≤ i ∧ i ≤ 2 ^ 30 := by
  induction fuel generalizing k with
  | zero => simp [addIndices]
  | succ fuel ih =>
      have hsize : toInt b.bit.length = n + 1 := by
        rw [hlength, toInt_eq (by omega)]
        rfl
      rw [addIndices, hsize]
      refine List.forall_mem_cons.mpr ⟨by omega, ?_⟩
      split
      · have hle := add_lowBit_le (w := 30) (n := k) (by omega)
        rw [lowest_eq hk (by omega)]
        exact ih (k := k + lowBit k) (by omega) hle
      · simp

theorem sumIndices_le (hq : q < 2 ^ 30) (fuel : Nat) :
    ∀ i ∈ sumIndices fuel q, 0 ≤ i ∧ i ≤ 2 ^ 30 := by
  induction fuel generalizing q with
  | zero => simp [sumIndices]
  | succ fuel ih =>
      rw [sumIndices]
      refine List.forall_mem_cons.mpr ⟨by omega, ?_⟩
      split
      · have hle := lowBit_le q
        rw [lowest_eq (by omega) (by omega)]
        have hnext : (q : Int) - lowBit q = (q - lowBit q : Nat) := by omega
        rw [Option.map_some, hnext]
        exact ih (by omega)
      · simp

/-- The tree after these calls of `add`. -/
def adds (calls : List (Nat × Int)) (b : Fenwick) : Option Fenwick :=
  calls.foldlM (fun b e => b.add e.1 e.2) b

theorem weight_append (front back : List (Nat × Int)) :
    weight (front ++ back) = weight front + weight back := by
  simp [weight]

theorem Holds.adds {calls : List (Nat × Int)} (hb : Holds b n entries) (hn : n < 2 ^ 30)
    (hcalls : ∀ e ∈ calls, 1 ≤ e.1 ∧ e.1 ≤ n) (hweight : weight calls + weight entries < 2 ^ 31) :
    ∃ b', adds calls b = some b' ∧ Holds b' n (calls.reverse ++ entries) := by
  induction calls generalizing b entries with
  | nil => exact ⟨b, rfl, hb⟩
  | cons e calls ih =>
      obtain ⟨k, v⟩ := e
      obtain ⟨⟨hk, hkn⟩, hcalls⟩ := List.forall_mem_cons.mp hcalls
      rw [weight_cons] at hweight
      have hfits : weight ((k, v) :: entries) < 2 ^ 31 := by
        rw [weight_cons]
        omega
      obtain ⟨b₁, hadd, hb₁⟩ := hb.add hn hk hkn hfits
      obtain ⟨b', hadds, hb'⟩ := ih hb₁ hcalls (by rw [weight_cons]; omega)
      refine ⟨b', ?_, by simpa using hb'⟩
      rw [Fenwick.adds, List.foldlM_cons, hadd]
      exact hadds

/-- **The tree counts prefixes.** Whatever is added in which order, every call of `add` ends, and
has added at the indices it computes, which are in range. `sum_prefix` then ends with what was added
up to its index, which is the sum of what is at the indices that it computes. -/
theorem counts_prefixes {calls : List (Nat × Int)} (hn : n < 2 ^ 30)
    (hcalls : ∀ e ∈ calls, 1 ≤ e.1 ∧ e.1 ≤ n) (hweight : weight calls < 2 ^ 31) (hq : q ≤ n) :
    ∃ b₀, new n = some b₀
      ∧ (∀ front e back, calls = front ++ e :: back → ∃ b b', adds front b₀ = some b
        ∧ b.add e.1 e.2 = some b'
        ∧ b'.bit = b.addAt (b.addIndices (b.bit.length + 1) e.1) e.2
        ∧ ∀ fuel, ∀ i ∈ b.addIndices fuel e.1, 0 ≤ i ∧ i ≤ 2 ^ 30)
      ∧ ∃ b, adds calls b₀ = some b ∧ b.sumPrefix q = some (total calls (· ≤ q))
        ∧ total calls (· ≤ q) = b.sumAt (sumIndices (b.bit.length + 1) q)
        ∧ ∀ fuel, ∀ i ∈ sumIndices fuel q, 0 ≤ i ∧ i ≤ 2 ^ 30 := by
  obtain ⟨b₀, hnew, hb₀⟩ := new_holds hn
  refine ⟨b₀, hnew, fun front e back heq => ?_, ?_⟩
  · subst heq
    rw [weight_append] at hweight
    obtain ⟨hfront, he⟩ := List.forall_mem_append.mp hcalls
    obtain ⟨⟨hk, hkn⟩, -⟩ := List.forall_mem_cons.mp he
    have hcons : weight (e :: back) = e.2.natAbs + weight back := weight_cons
    obtain ⟨b, hadds, hb⟩ := hb₀.adds hn hfront (by simp [weight] at hweight ⊢; omega)
    have hfits : weight ((e.1, e.2) :: (front.reverse ++ [])) < 2 ^ 31 := by
      have : weight front.reverse = weight front := by simp [weight]
      rw [weight_cons, List.append_nil]
      omega
    obtain ⟨b', hadd, -⟩ := hb.add hn hk hkn hfits
    exact ⟨b, b', hadds, hadd, addLoop_indices hadd, addIndices_le hn hb.length hk (by omega)⟩
  · obtain ⟨b, hadds, hb⟩ := hb₀.adds hn hcalls (by simpa [weight] using hweight)
    have hb : Holds b n calls := hb.perm (by simp)
    have hsum := hb.sumPrefix hn hweight hq
    have hindices := (sumLoop_indices hsum).trans (Int.zero_add _)
    exact ⟨b, hadds, hsum, hindices, sumIndices_le (by omega)⟩

theorem counts_prefixes_five : weight [(3, 2), (5, -1), (2, 4)] < 2 ^ 31
    ∧ ∃ b₀, new (5 : Nat) = some b₀
      ∧ (∀ front e back, [(3, 2), (5, -1), (2, 4)] = front ++ e :: back → ∃ b b',
        adds front b₀ = some b ∧ b.add e.1 e.2 = some b'
          ∧ b'.bit = b.addAt (b.addIndices (b.bit.length + 1) e.1) e.2
          ∧ ∀ fuel, ∀ i ∈ b.addIndices fuel e.1, 0 ≤ i ∧ i ≤ 2 ^ 30)
      ∧ ∃ b, adds [(3, 2), (5, -1), (2, 4)] b₀ = some b ∧ b.sumPrefix (3 : Nat) = some 6
        ∧ 6 = b.sumAt (sumIndices (b.bit.length + 1) (3 : Nat))
        ∧ ∀ fuel, ∀ i ∈ sumIndices fuel (3 : Nat), 0 ≤ i ∧ i ≤ 2 ^ 30 :=
  ⟨by decide, counts_prefixes (n := 5) (q := 3) (by decide) (by decide) (by decide) (by decide)⟩

end Fenwick

end QueueFairness.FairnessLogger
