import Mathlib.Algebra.Order.Ring.Int
import QueueFairness.Lib.CycleRing
import QueueFairness.SCQueue

/-!
# The words of the scalable circular queue

What the word operations of `lfring_enqueue` and `lfring_dequeue` do to the three parts of an entry:
its cycle, its safe bit and its index.
-/

namespace QueueFairness.SCQueue

variable {P : Params}

/-- The entries of a ring. -/
def slots (P : Params) : Nat := 2 ^ (P.order + 1)

def cycle (e : P.Atomic) : Int := (e.sshiftRight (P.order + 2)).toInt

def safe (e : P.Atomic) : Bool := e.getLsbD (P.order + 1)

def index (e : P.Atomic) : P.Atomic := e &&& (n P - 1)

/-- An entry without an index. -/
def Vacant (e : P.Atomic) : Prop := index e = n P - 1

instance (e : P.Atomic) : Decidable (Vacant e) := inferInstanceAs (Decidable (_ = _))

def item (e : P.Atomic) : Option Nat := if Vacant e then none else some (index e).toNat

/-- What an entry says. -/
def decode (e : P.Atomic) : CycleRing.Entry := ⟨cycle e, safe e, item e⟩

/-! ### Bits -/

theorem getLsbD_mask {w j : Nat} (hj : j < w) (i : Nat) :
    ((1#w <<< j) - 1#w).getLsbD i = decide (i < j) := by
  rw [← BitVec.not_neg, ← BitVec.shiftLeft_neg]
  simp only [BitVec.getLsbD_not, BitVec.getLsbD_shiftLeft, BitVec.neg_one_eq_allOnes,
    BitVec.getLsbD_allOnes]
  by_cases hi : i < w <;> simp [hi] <;> omega

theorem getLsbD_n (i : Nat) : (n P).getLsbD i = decide (i = P.order + 1) := by
  have hlt := P.order_lt
  have hone : n P = 1#P.width <<< (P.order + 1) := rfl
  rw [hone, BitVec.getLsbD_shiftLeft, BitVec.getLsbD_one]
  by_cases hi : i = P.order + 1
  · subst hi
    simp
    omega
  · simp [hi]
    omega

theorem getLsbD_n_sub_one (i : Nat) : (n P - 1).getLsbD i = decide (i < P.order + 1) :=
  getLsbD_mask (by have := P.order_lt; omega) i

theorem two_mul_n : 2 * n P = 1#P.width <<< (P.order + 2) := by
  have hlt := P.order_lt
  have hone : n P = 1#P.width <<< (P.order + 1) := rfl
  have htwo : 2 < 2 ^ P.width :=
    lt_of_lt_of_le (by decide : 2 < 2 ^ 3) (Nat.pow_le_pow_right (by decide) (by omega))
  rw [hone]
  apply BitVec.eq_of_toNat_eq
  simp [BitVec.toNat_mul, BitVec.toNat_shiftLeft, Nat.shiftLeft_eq, Nat.pow_succ,
    Nat.mod_eq_of_lt htwo, Nat.mod_eq_of_lt (lt_trans (by decide : 1 < 2) htwo), Nat.mul_comm]

theorem getLsbD_low (i : Nat) : (2 * n P - 1).getLsbD i = decide (i < P.order + 2) := by
  rw [two_mul_n]
  exact getLsbD_mask (by have := P.order_lt; omega) i

/-! ### The parts of a word -/

theorem getLsbD_shifted (x : P.Atomic) {i : Nat} (hi : P.order + 2 ≤ i) (hw : i < P.width) :
    (x.sshiftRight (P.order + 2)).getLsbD (i - (P.order + 2)) = x.getLsbD i := by
  have hlt : ¬ P.width ≤ i - (P.order + 2) := by omega
  have hsub : P.order + 2 + (i - (P.order + 2)) = i := by omega
  rw [BitVec.getLsbD_sshiftRight, hsub, if_pos hw, decide_eq_false hlt]
  rfl

theorem cycle_congr {x y : P.Atomic} :
    cycle x = cycle y ↔ ∀ i, P.order + 2 ≤ i → x.getLsbD i = y.getLsbD i := by
  have hlt := P.order_lt
  rw [cycle, cycle, BitVec.toInt_inj]
  refine ⟨fun h i hi => ?_, fun h => BitVec.eq_of_getLsbD_eq fun i hi => ?_⟩
  · by_cases hw : i < P.width
    · rw [← getLsbD_shifted x hi hw, h, getLsbD_shifted y hi hw]
    · rw [BitVec.getLsbD_of_ge _ _ (by omega), BitVec.getLsbD_of_ge _ _ (by omega)]
  · rw [BitVec.getLsbD_sshiftRight, BitVec.getLsbD_sshiftRight, BitVec.msb_eq_getLsbD_last,
      BitVec.msb_eq_getLsbD_last, h _ (by omega), h _ (by omega)]

theorem getLsbD_index (x : P.Atomic) (i : Nat) :
    (index x).getLsbD i = (x.getLsbD i && decide (i < P.order + 1)) := by
  rw [index, BitVec.getLsbD_and, getLsbD_n_sub_one]

theorem index_congr {x y : P.Atomic} :
    index x = index y ↔ ∀ i, i < P.order + 1 → x.getLsbD i = y.getLsbD i := by
  refine ⟨fun h i hi => ?_, fun h => BitVec.eq_of_getLsbD_eq fun i _ => ?_⟩
  · have hbit := congrArg (fun z => z.getLsbD i) h
    simpa [getLsbD_index, hi] using hbit
  · rw [getLsbD_index, getLsbD_index]
    by_cases hi : i < P.order + 1
    · rw [h i hi]
    · simp [hi]

theorem vacant_iff {x : P.Atomic} : Vacant x ↔ ∀ i, i < P.order + 1 → x.getLsbD i = true := by
  have hfull : n P - 1 = index (n P - 1) := by
    rw [index, BitVec.and_self]
  rw [Vacant, hfull, index_congr]
  refine forall_congr' fun i => imp_congr_right fun hi => ?_
  rw [getLsbD_n_sub_one, decide_eq_true hi]

/-- The three parts make the word. -/
theorem word_ext {x y : P.Atomic} (hcycle : cycle x = cycle y) (hsafe : safe x = safe y)
    (hindex : index x = index y) : x = y := by
  refine BitVec.eq_of_getLsbD_eq fun i _ => ?_
  rcases Nat.lt_trichotomy i (P.order + 1) with hlt | rfl | hgt
  · exact index_congr.mp hindex i hlt
  · exact hsafe
  · exact cycle_congr.mp hcycle i hgt

theorem decode_inj {x y : P.Atomic} (h : decode x = decode y) : x = y := by
  obtain ⟨hcycle, hsafe, hitem⟩ := CycleRing.Entry.mk.inj h
  refine word_ext hcycle hsafe ?_
  by_cases hx : Vacant x <;> by_cases hy : Vacant y
  · exact Eq.trans hx hy.symm
  · simp [item, hx, hy] at hitem
  · simp [item, hx, hy] at hitem
  · rw [item, item, if_neg hx, if_neg hy] at hitem
    exact BitVec.eq_of_toNat_eq (Option.some.inj hitem)

theorem decode_eq {x : P.Atomic} {c : Int} {b : Bool} {o : Option Nat} (hcycle : cycle x = c)
    (hsafe : safe x = b) (hitem : item x = o) : decode x = ⟨c, b, o⟩ := by
  rw [decode, hcycle, hsafe, hitem]

theorem item_vacant {x : P.Atomic} (h : Vacant x) : item x = none := if_pos h

theorem item_congr {x y : P.Atomic} (h : index x = index y) : item x = item y := by
  have hiff : Vacant x ↔ Vacant y := by rw [Vacant, Vacant, h]
  rw [item, item, h]
  exact if_congr hiff rfl rfl

theorem item_eq_none_iff {x : P.Atomic} : item x = none ↔ Vacant x := by
  simp [item]

/-! ### The operations on an entry -/

variable (x y k : P.Atomic)

theorem getLsbD_ecycle (i : Nat) :
    (ecycle x).getLsbD i = (x.getLsbD i || decide (i < P.order + 2)) := by
  rw [ecycle, BitVec.getLsbD_or, getLsbD_low]

theorem cycle_ecycle : cycle (ecycle x) = cycle x :=
  cycle_congr.mpr fun i hi => by simp [getLsbD_ecycle, Nat.not_lt.mpr hi]

theorem safe_ecycle : safe (ecycle x) = true := by
  simp [safe, getLsbD_ecycle]

theorem vacant_ecycle : Vacant (ecycle x) :=
  vacant_iff.mpr fun i hi => by simp [getLsbD_ecycle, Nat.lt_succ_of_lt hi]

/-- `entry == ecycle`. -/
theorem eq_ecycle_iff : x = ecycle x ↔ safe x = true ∧ Vacant x := by
  refine ⟨fun h => ?_, fun ⟨hsafe, hvacant⟩ => ?_⟩
  · rw [h]
    exact ⟨safe_ecycle x, vacant_ecycle x⟩
  · exact word_ext (cycle_ecycle x).symm (hsafe.trans (safe_ecycle x).symm)
      (Eq.trans hvacant (vacant_ecycle x).symm)

theorem getLsbD_flip (i : Nat) :
    (x ^^^ n P).getLsbD i = (x.getLsbD i ^^ decide (i = P.order + 1)) := by
  rw [BitVec.getLsbD_xor, getLsbD_n]

/-- `entry == (ecycle ^ n)`. -/
theorem eq_flip_iff : x = ecycle x ^^^ n P ↔ safe x = false ∧ Vacant x := by
  have hcycle : cycle (ecycle x ^^^ n P) = cycle x := cycle_congr.mpr fun i hi => by
    have hne : i ≠ P.order + 1 := by omega
    rw [getLsbD_flip, getLsbD_ecycle]
    simp [Nat.not_lt.mpr hi, hne]
  have hsafe : safe (ecycle x ^^^ n P) = false := by
    rw [safe, getLsbD_flip, getLsbD_ecycle]
    simp
  have hvacant : Vacant (ecycle x ^^^ n P) := vacant_iff.mpr fun i hi => by
    rw [getLsbD_flip, getLsbD_ecycle]
    simp [Nat.lt_succ_of_lt hi, Nat.ne_of_lt hi]
  refine ⟨fun h => ?_, fun ⟨hmarked, hvacant'⟩ => ?_⟩
  · rw [h]
    exact ⟨hsafe, hvacant⟩
  · exact word_ext hcycle.symm (hmarked.trans hsafe.symm) (Eq.trans hvacant' hvacant.symm)

/-- `(entry | n) != ecycle`. -/
theorem or_n_eq_iff : x ||| n P = ecycle x ↔ Vacant x := by
  have hbit : ∀ i, (x ||| n P).getLsbD i = (x.getLsbD i || decide (i = P.order + 1)) := fun i => by
    rw [BitVec.getLsbD_or, getLsbD_n]
  rw [vacant_iff]
  refine ⟨fun h i hi => ?_, fun h => BitVec.eq_of_getLsbD_eq fun i _ => ?_⟩
  · have heq := hbit i
    rw [h, getLsbD_ecycle] at heq
    simpa [Nat.lt_succ_of_lt hi, Nat.ne_of_lt hi] using heq.symm
  · rw [hbit, getLsbD_ecycle]
    rcases Nat.lt_trichotomy i (P.order + 1) with hlt | rfl | hgt
    · simp [h i hlt]
    · simp
    · simp [Nat.ne_of_gt hgt, Nat.not_lt.mpr hgt]

/-- `entry & ~n`. -/
theorem decode_clear : decode (x &&& ~~~(n P)) = ⟨cycle x, false, item x⟩ := by
  have hlt := P.order_lt
  have hbit : ∀ i, i < P.width →
      (x &&& ~~~(n P)).getLsbD i = (x.getLsbD i && !decide (i = P.order + 1)) := fun i hi => by
    simp only [BitVec.getLsbD_and, BitVec.getLsbD_not, getLsbD_n, hi, decide_true, Bool.true_and]
  have hindex : index (x &&& ~~~(n P)) = index x := index_congr.mpr fun i hi => by
    simp only [hbit i (by omega), Nat.ne_of_lt hi, decide_false, Bool.not_false, Bool.and_true]
  refine decode_eq (cycle_congr.mpr fun i hi => ?_) ?_ (item_congr hindex)
  · by_cases hw : i < P.width
    · have hne : i ≠ P.order + 1 := by omega
      simp only [hbit i hw, hne, decide_false, Bool.not_false, Bool.and_true]
    · rw [BitVec.getLsbD_of_ge _ _ (by omega), BitVec.getLsbD_of_ge _ _ (by omega)]
  · rw [safe, hbit _ (by omega)]
    simp

/-- `entry == (entry & ~n)`. -/
theorem eq_clear_iff : x = x &&& ~~~(n P) ↔ safe x = false := by
  refine ⟨fun h => ?_, fun hsafe => decode_inj ?_⟩
  · have hclear := congrArg CycleRing.Entry.safe (decode_clear x)
    rw [← h] at hclear
    exact hclear
  · rw [decode_clear, decode, hsafe]

/-- `entry | (n - 1)`. -/
theorem decode_or : decode (x ||| (n P - 1)) = ⟨cycle x, safe x, none⟩ := by
  have hbit : ∀ i, (x ||| (n P - 1)).getLsbD i = (x.getLsbD i || decide (i < P.order + 1)) :=
    fun i => by rw [BitVec.getLsbD_or, getLsbD_n_sub_one]
  have hvacant : Vacant (x ||| (n P - 1)) := vacant_iff.mpr fun i hi => by
    rw [hbit, decide_eq_true hi, Bool.or_true]
  refine decode_eq (cycle_congr.mpr fun i hi => ?_) ?_ (item_vacant hvacant)
  · have hge : ¬ i < P.order + 1 := by omega
    rw [hbit, decide_eq_false hge, Bool.or_false]
  · rw [safe, hbit, decide_eq_false (Nat.lt_irrefl _), Bool.or_false, safe]

/-! ### The cycle of a ticket -/

/-- The tickets that leave a word its sign. -/
def bound (P : Params) : Nat := 2 ^ (P.width - 2)

theorem getLsbD_ticket {k : P.Atomic} (hk : k.toNat < bound P) {i : Nat} (hi : P.width - 2 ≤ i) :
    k.getLsbD i = false := by
  rw [BitVec.getLsbD, Nat.testBit_lt_two_pow]
  exact lt_of_lt_of_le hk (Nat.pow_le_pow_right (by decide) hi)

theorem getLsbD_cycleOf (i : Nat) : (cycleOf k).getLsbD i
    = (decide (i < P.width) &&
      (decide (0 < i) && k.getLsbD (i - 1) || decide (i < P.order + 2))) := by
  have hlt := P.order_lt
  rw [cycleOf, BitVec.getLsbD_or, getLsbD_low, BitVec.getLsbD_shiftLeft]
  by_cases hw : i < P.width
  · cases i <;> simp [hw]
  · have hge : ¬ i < P.order + 2 := by omega
    simp [hw, hge]

theorem safe_cycleOf : safe (cycleOf k) = true := by
  have hlt := P.order_lt
  simp [safe, getLsbD_cycleOf]
  omega

theorem vacant_cycleOf : Vacant (cycleOf k) := vacant_iff.mpr fun i hi => by
  have hlt := P.order_lt
  simp [getLsbD_cycleOf, Nat.lt_succ_of_lt hi]
  omega

theorem cycle_cycleOf {k : P.Atomic} (hk : k.toNat < bound P) :
    cycle (cycleOf k) = CycleRing.cycleOf (slots P) k.toNat := by
  have hlt := P.order_lt
  have hshift : (cycleOf k).sshiftRight (P.order + 2) = k >>> (P.order + 1) := by
    refine BitVec.eq_of_getLsbD_eq fun i hi => ?_
    rw [BitVec.getLsbD_sshiftRight, BitVec.getLsbD_ushiftRight, BitVec.msb_eq_getLsbD_last,
      decide_eq_false (Nat.not_le.mpr hi), Bool.not_false, Bool.true_and]
    by_cases hw : P.order + 2 + i < P.width
    · have hsub : P.order + 2 + i - 1 = P.order + 1 + i := by omega
      have hpos : 0 < P.order + 2 + i := by omega
      have hge : ¬ P.order + 2 + i < P.order + 2 := by omega
      rw [if_pos hw, getLsbD_cycleOf, hsub]
      simp only [hw, hpos, hge, decide_true, decide_false, Bool.true_and, Bool.or_false]
    · have hge : ¬ P.width - 1 < P.order + 2 := by omega
      rw [if_neg hw, getLsbD_cycleOf, getLsbD_ticket hk (i := P.width - 1 - 1) (by omega),
        getLsbD_ticket hk (i := P.order + 1 + i) (by omega), decide_eq_false hge]
      simp
  have hsmall : 2 * (k >>> (P.order + 1)).toNat < 2 ^ P.width := by
    have hpow : 2 ^ P.width = 2 * (2 * bound P) := by
      rw [bound, ← Nat.pow_succ', ← Nat.pow_succ']
      congr 1
      omega
    have hdiv : (k >>> (P.order + 1)).toNat ≤ k.toNat := by
      rw [BitVec.toNat_ushiftRight, Nat.shiftRight_eq_div_pow]
      exact Nat.div_le_self ..
    omega
  rw [cycle, hshift, BitVec.toInt_eq_toNat_of_lt hsmall, BitVec.toNat_ushiftRight,
    Nat.shiftRight_eq_div_pow]
  rfl

/-- `ecycle == hcycle`. -/
theorem ecycle_eq_iff {k : P.Atomic} (hk : k.toNat < bound P) :
    ecycle x = cycleOf k ↔ cycle x = CycleRing.cycleOf (slots P) k.toNat := by
  rw [← cycle_cycleOf hk, ← cycle_ecycle x]
  exact ⟨fun h => congrArg cycle h, fun h => word_ext h
    ((safe_ecycle x).trans (safe_cycleOf k).symm)
    (Eq.trans (vacant_ecycle x) (vacant_cycleOf k).symm)⟩

theorem toNat_pow2 {o : Nat} (ho : o < P.width) : (pow2 P o).toNat = 2 ^ o := by
  have hpow : 2 ^ o < 2 ^ P.width := Nat.pow_lt_pow_right (by decide) ho
  have hone : (1 : P.Atomic).toNat = 1 := Nat.mod_eq_of_lt (Nat.one_lt_two_pow (by omega))
  rw [pow2, BitVec.toNat_shiftLeft, hone, Nat.shiftLeft_eq, Nat.one_mul, Nat.mod_eq_of_lt hpow]

theorem toNat_n : (n P).toNat = slots P :=
  toNat_pow2 (by have := P.order_lt; omega)

theorem toNat_n_sub_one : (n P - 1).toNat = slots P - 1 := by
  have hlt := P.order_lt
  have hone : (1 : P.Atomic).toNat = 1 := Nat.mod_eq_of_lt (Nat.one_lt_two_pow (by omega))
  rw [BitVec.toNat_sub_of_le, toNat_n, hone]
  rw [BitVec.le_def, toNat_n, hone]
  exact Nat.one_le_two_pow

/-- `eidx ^= n - 1` undone. -/
theorem flip_flip : x ^^^ (n P - 1) ^^^ (n P - 1) = x := by
  rw [BitVec.xor_assoc, BitVec.xor_self, BitVec.xor_zero]

/-- `tcycle ^ eidx`, for an index that fits. -/
theorem decode_deposit {k eidx : P.Atomic} (hk : k.toNat < bound P)
    (hidx : (eidx ^^^ (n P - 1)).toNat < slots P - 1) :
    decode (cycleOf k ^^^ eidx)
      = ⟨CycleRing.cycleOf (slots P) k.toNat, true, some (eidx ^^^ (n P - 1)).toNat⟩ := by
  have hlt := P.order_lt
  have hhigh : ∀ i, P.order + 1 ≤ i → (eidx ^^^ (n P - 1)).getLsbD i = false := fun i hi => by
    rw [BitVec.getLsbD, Nat.testBit_lt_two_pow]
    exact lt_of_lt_of_le (lt_of_lt_of_le hidx (Nat.sub_le ..)) (Nat.pow_le_pow_right (by decide) hi)
  have heidx : ∀ i, P.order + 1 ≤ i → eidx.getLsbD i = false := fun i hi => by
    have hbit := hhigh i hi
    rw [BitVec.getLsbD_xor, getLsbD_n_sub_one, decide_eq_false (Nat.not_lt.mpr hi),
      Bool.xor_false] at hbit
    exact hbit
  have hindex : index (cycleOf k ^^^ eidx) = eidx ^^^ (n P - 1) := by
    refine BitVec.eq_of_getLsbD_eq fun i hi => ?_
    rw [getLsbD_index, BitVec.getLsbD_xor, BitVec.getLsbD_xor, getLsbD_n_sub_one, getLsbD_cycleOf]
    by_cases hlow : i < P.order + 1
    · simp [hi, hlow, Nat.lt_succ_of_lt hlow, Bool.xor_comm]
    · simp [hlow, heidx i (Nat.not_lt.mp hlow)]
  have hfilled : ¬ Vacant (cycleOf k ^^^ eidx) := fun hvacant => by
    rw [Vacant, hindex] at hvacant
    rw [hvacant, toNat_n_sub_one] at hidx
    exact lt_irrefl _ hidx
  refine decode_eq ?_ ?_ (by rw [item, if_neg hfilled, hindex])
  · rw [← cycle_cycleOf hk]
    refine cycle_congr.mpr fun i hi => ?_
    rw [BitVec.getLsbD_xor, heidx i (by omega), Bool.xor_false]
  · rw [safe, BitVec.getLsbD_xor, heidx _ (le_refl _), Bool.xor_false]
    exact safe_cycleOf k

/-- `hcycle ^ (~entry & n)`. -/
theorem decode_skip {k : P.Atomic} (hk : k.toNat < bound P) :
    decode (cycleOf k ^^^ (~~~x &&& n P))
      = ⟨CycleRing.cycleOf (slots P) k.toNat, safe x, none⟩ := by
  have hlt := P.order_lt
  have hbit : ∀ i, i ≠ P.order + 1 →
      (cycleOf k ^^^ (~~~x &&& n P)).getLsbD i = (cycleOf k).getLsbD i := fun i hi => by
    rw [BitVec.getLsbD_xor, BitVec.getLsbD_and, getLsbD_n, decide_eq_false hi, Bool.and_false,
      Bool.xor_false]
  have hvacant : Vacant (cycleOf k ^^^ (~~~x &&& n P)) := vacant_iff.mpr fun i hi => by
    rw [hbit i (by omega)]
    exact vacant_iff.mp (vacant_cycleOf k) i hi
  refine decode_eq ?_ ?_ (item_vacant hvacant)
  · rw [← cycle_cycleOf hk]
    exact cycle_congr.mpr fun i hi => hbit i (by omega)
  · have hsafe : (cycleOf k).getLsbD (P.order + 1) = true := safe_cycleOf k
    have hw : P.order + 1 < P.width := by omega
    rw [safe, BitVec.getLsbD_xor, hsafe, BitVec.getLsbD_and, BitVec.getLsbD_not, getLsbD_n, safe,
      decide_eq_true hw]
    simp

/-! ### The words of the initialisers -/

theorem decode_neg_one : decode (-1 : P.Atomic) = ⟨-1, true, none⟩ := by
  have hlt := P.order_lt
  have hall : (-1 : P.Atomic) = BitVec.allOnes P.width := BitVec.neg_one_eq_allOnes
  have hbit : ∀ i, i < P.width → (-1 : P.Atomic).getLsbD i = true := fun i hi => by
    rw [hall, BitVec.getLsbD_allOnes, decide_eq_true hi]
  refine decode_eq ?_ (hbit _ (by omega))
    (item_vacant (vacant_iff.mpr fun i hi => hbit i (by omega)))
  rw [cycle, BitVec.toInt_sshiftRight, hall, BitVec.toInt_allOnes, if_pos (by omega)]
  change Int.negSucc (0 >>> (P.order + 2)) = -1
  rw [Nat.zero_shiftRight]
  rfl

theorem zero_lt_bound : (0 : P.Atomic).toNat < bound P := by
  have hzero : (0 : P.Atomic).toNat = 0 := by simp
  rw [hzero]
  exact Nat.two_pow_pos _

theorem decode_low : decode (2 * n P - 1) = ⟨0, true, none⟩ := by
  have hzero : (2 * n P - 1) = cycleOf (0 : P.Atomic) := by
    refine BitVec.eq_of_getLsbD_eq fun i hi => ?_
    rw [getLsbD_cycleOf, getLsbD_low, decide_eq_true hi]
    simp
  have hbound := zero_lt_bound (P := P)
  rw [hzero]
  refine decode_eq ?_ (safe_cycleOf _) (item_vacant (vacant_cycleOf _))
  rw [cycle_cycleOf hbound]
  simp [CycleRing.cycleOf]

/-- `n + i`, for an index that fits: it is what an enqueue of the first round writes. -/
theorem decode_add {idx : P.Atomic} (hidx : idx.toNat < slots P - 1) :
    decode (n P + idx) = ⟨0, true, some idx.toNat⟩ := by
  have hlt := P.order_lt
  have hbound := zero_lt_bound (P := P)
  have hhigh : ∀ i, P.order + 1 ≤ i → idx.getLsbD i = false := fun i hi => by
    rw [BitVec.getLsbD, Nat.testBit_lt_two_pow]
    exact lt_of_lt_of_le (lt_of_lt_of_le hidx (Nat.sub_le ..)) (Nat.pow_le_pow_right (by decide) hi)
  have hdisjoint : n P &&& idx = 0#P.width := by
    refine BitVec.eq_of_getLsbD_eq fun i _ => ?_
    rw [BitVec.getLsbD_and, getLsbD_n, BitVec.getLsbD_zero]
    by_cases hi : i = P.order + 1
    · rw [hhigh i (le_of_eq hi.symm), Bool.and_false]
    · rw [decide_eq_false hi, Bool.false_and]
  have hword : n P + idx = cycleOf (0 : P.Atomic) ^^^ (idx ^^^ (n P - 1)) := by
    refine BitVec.eq_of_getLsbD_eq fun i hi => ?_
    rw [BitVec.add_eq_or_of_and_eq_zero _ _ hdisjoint, BitVec.getLsbD_or, getLsbD_n,
      BitVec.getLsbD_xor, BitVec.getLsbD_xor, getLsbD_cycleOf, getLsbD_n_sub_one]
    rcases Nat.lt_trichotomy i (P.order + 1) with hlow | rfl | hgt
    · simp [hi, hlow, Nat.ne_of_lt hlow, Nat.lt_succ_of_lt hlow]
    · rw [hhigh _ (le_refl _)]
      simp [hi]
    · have hge : ¬ i < P.order + 2 := by omega
      have hge' : ¬ i < P.order + 1 := by omega
      simp [hhigh i (le_of_lt hgt), Nat.ne_of_gt hgt, hge, hge']
  rw [hword, decode_deposit hbound (by rwa [flip_flip]), flip_flip]
  simp [CycleRing.cycleOf]

/-! ### Comparisons -/

theorem toInt_of_lt {k : P.Atomic} (hk : k.toNat ≤ bound P) : k.toInt = k.toNat := by
  have hlt := P.order_lt
  have hpow : 2 ^ P.width = 2 * (2 * bound P) := by
    rw [bound, ← Nat.pow_succ', ← Nat.pow_succ']
    congr 1
    omega
  have hpos : 0 < bound P := Nat.two_pow_pos _
  exact BitVec.toInt_eq_toNat_of_lt (by omega)

/-- The difference of two words that are not too far apart. -/
theorem cmp_eq {x y : P.Atomic} (hlow : -2 ^ (P.width - 1) ≤ x.toInt - y.toInt)
    (hhigh : x.toInt - y.toInt < 2 ^ (P.width - 1)) : cmp x y = x.toInt - y.toInt := by
  have hlt := P.order_lt
  have hpow : (2 : Int) ^ P.width = 2 * 2 ^ (P.width - 1) := by
    rw [← Int.pow_succ']
    congr 1
    omega
  rw [cmp, BitVec.toInt_sub]
  refine Int.bmod_eq_of_le ?_ ?_ <;> push_cast <;> omega

/-- Tickets are compared as numbers. -/
theorem cmp_tickets {j k : P.Atomic} (hj : j.toNat ≤ bound P) (hk : k.toNat ≤ bound P) :
    cmp j k = (j.toNat : Int) - k.toNat := by
  have hlt := P.order_lt
  have hpow : (2 : Int) ^ (P.width - 1) = 2 * bound P := by
    rw [bound, Nat.cast_pow, Nat.cast_ofNat, ← Int.pow_succ']
    congr 1
    omega
  have hpos : 0 < bound P := Nat.two_pow_pos _
  rw [cmp_eq] <;> rw [toInt_of_lt hj, toInt_of_lt hk] <;> omega

theorem toNat_mod_ecycle : (ecycle x).toNat % 2 ^ (P.order + 2) = 2 ^ (P.order + 2) - 1 := by
  refine Nat.eq_of_testBit_eq fun i => ?_
  have hbit := getLsbD_ecycle x i
  rw [BitVec.getLsbD] at hbit
  rw [Nat.testBit_mod_two_pow, Nat.testBit_two_pow_sub_one, hbit]
  by_cases hi : i < P.order + 2 <;> simp [hi]

/-- The cycle is what counts when two words with all other bits set are compared. -/
theorem toInt_ecycle :
    (ecycle x).toInt = cycle x * 2 ^ (P.order + 2) + (2 ^ (P.order + 2) - 1) := by
  have hlt := P.order_lt
  have hdvd : (2 : Int) ^ (P.order + 2) ∣ 2 ^ P.width := pow_dvd_pow 2 (by omega)
  have hmod : (ecycle x).toInt % 2 ^ (P.order + 2) = 2 ^ (P.order + 2) - 1 := by
    have hnat : ((ecycle x).toNat : Int) % 2 ^ (P.order + 2) = 2 ^ (P.order + 2) - 1 := by
      have hcast := congrArg (fun m : Nat => (m : Int)) (toNat_mod_ecycle x)
      rw [Nat.cast_sub Nat.one_le_two_pow] at hcast
      push_cast at hcast
      exact hcast
    rw [BitVec.toInt_eq_toNat_cond]
    split
    · exact hnat
    · rw [Nat.cast_pow, Nat.cast_ofNat, Int.sub_emod, Int.emod_eq_zero_of_dvd hdvd, Int.sub_zero,
        Int.emod_emod_of_dvd _ (dvd_refl _), hnat]
  have hdiv : (ecycle x).toInt / 2 ^ (P.order + 2) = cycle x := by
    rw [← cycle_ecycle x, cycle, BitVec.toInt_sshiftRight, Int.shiftRight_eq_div_pow]
    norm_cast
  calc (ecycle x).toInt = (ecycle x).toInt / 2 ^ (P.order + 2) * 2 ^ (P.order + 2)
        + (ecycle x).toInt % 2 ^ (P.order + 2) := (Int.ediv_mul_add_emod ..).symm
    _ = cycle x * 2 ^ (P.order + 2) + (2 ^ (P.order + 2) - 1) := by rw [hdiv, hmod]

theorem ecycle_cycleOf : ecycle (cycleOf k) = cycleOf k :=
  ((eq_ecycle_iff _).mpr ⟨safe_cycleOf k, vacant_cycleOf k⟩).symm

/-- `__lfring_cmp(ecycle, <, tcycle)`. -/
theorem cmp_ecycle_iff {k : P.Atomic} (hk : k.toNat < bound P) (hlow : -1 ≤ cycle x) :
    cmp (ecycle x) (cycleOf k) < 0 ↔ cycle x < CycleRing.cycleOf (slots P) k.toNat := by
  have hx := toInt_ecycle x
  have hc := toInt_ecycle (cycleOf k)
  rw [ecycle_cycleOf, cycle_cycleOf hk] at hc
  have hnonneg := CycleRing.cycleOf_nonneg (N := slots P) k.toNat
  have hxlt := BitVec.toInt_lt (x := ecycle x)
  have hclt := BitVec.toInt_lt (x := cycleOf k)
  generalize CycleRing.cycleOf (slots P) k.toNat = q at hc hnonneg ⊢
  have hpos : (0 : Int) < 2 ^ (P.order + 2) := pow_pos (by decide) _
  generalize (2 : Int) ^ (P.order + 2) = B at hx hc hpos
  have hleast : -1 * B ≤ cycle x * B := mul_le_mul_of_nonneg_right hlow hpos.le
  have hmost : 0 ≤ q * B := mul_nonneg hnonneg hpos.le
  rw [cmp_eq (by omega) (by omega), hx, hc]
  refine ⟨fun h => lt_of_mul_lt_mul_right (a := B) (by omega) hpos.le, fun h => ?_⟩
  have hmul := mul_lt_mul_of_pos_right h hpos
  omega

/-! ### Places -/

/-- A ticket's bits below the order are rotated. -/
theorem getLsbD_rawMap {o : Nat} (hmin : P.min ≤ o) (ho : o < P.width) (i : Nat) :
    (rawMap P k o (pow2 P o)).getLsbD i = (decide (i < o)
      && k.getLsbD (if i < P.min then o - P.min + i else i - P.min)) := by
  have hmask : ∀ i, (pow2 P o - 1).getLsbD i = decide (i < o) := getLsbD_mask ho
  have hlow : ∀ i, (k &&& (pow2 P o - 1)).getLsbD i = (k.getLsbD i && decide (i < o)) := fun i => by
    rw [BitVec.getLsbD_and, hmask]
  rw [rawMap]
  split
  · rw [BitVec.getLsbD_or, BitVec.getLsbD_ushiftRight, hlow, BitVec.getLsbD_and, hmask,
      BitVec.getLsbD_shiftLeft]
    by_cases hi : i < P.min
    · have ho' : i < o := by omega
      have hsum : o - P.min + i < o := by omega
      simp [hi, ho', hsum]
    · have hsum : ¬ o - P.min + i < o := by omega
      by_cases ho' : i < o
      · have hw : i < P.width := by omega
        simp [hi, ho', hsum, hw]
      · simp [hi, ho', hsum]
  · rename_i hzero
    rw [not_not] at hzero
    rw [hlow, hzero]
    simp [Bool.and_comm]

theorem rawMap_eq_iff {o : Nat} (hmin : P.min ≤ o) (ho : o < P.width) {j k : P.Atomic} :
    rawMap P j o (pow2 P o) = rawMap P k o (pow2 P o) ↔ j.toNat % 2 ^ o = k.toNat % 2 ^ o := by
  have hbits : j.toNat % 2 ^ o = k.toNat % 2 ^ o ↔ ∀ i, i < o → j.getLsbD i = k.getLsbD i := by
    refine ⟨fun h i hi => ?_, fun h => Nat.eq_of_testBit_eq fun i => ?_⟩
    · have hbit := congrArg (fun m => Nat.testBit m i) h
      simpa [Nat.testBit_mod_two_pow, hi, BitVec.getLsbD] using hbit
    · rw [Nat.testBit_mod_two_pow, Nat.testBit_mod_two_pow]
      by_cases hi : i < o
      · have hbit := h i hi
        rw [BitVec.getLsbD, BitVec.getLsbD] at hbit
        rw [hbit]
      · simp [hi]
  rw [hbits]
  refine ⟨fun h i hi => ?_, fun h => BitVec.eq_of_getLsbD_eq fun i _ => ?_⟩
  · -- Bit `i` of the ticket is found again `min` places further on.
    by_cases hlast : i < o - P.min
    · have hbit := congrArg (fun z => z.getLsbD (i + P.min)) h
      simp only [getLsbD_rawMap _ hmin ho] at hbit
      simpa [show i + P.min < o by omega, show ¬ i + P.min < P.min by omega] using hbit
    · have hbit := congrArg (fun z => z.getLsbD (i - (o - P.min))) h
      simp only [getLsbD_rawMap _ hmin ho] at hbit
      simpa [show i - (o - P.min) < o by omega, show i - (o - P.min) < P.min by omega,
        show o - P.min + (i - (o - P.min)) = i by omega] using hbit
  · rw [getLsbD_rawMap _ hmin ho, getLsbD_rawMap _ hmin ho]
    by_cases hi : i < o
    · split <;> rw [h _ (by omega)]
    · simp [hi]

theorem rawMap_lt {o : Nat} (hmin : P.min ≤ o) (ho : o < P.width) :
    (rawMap P k o (pow2 P o)).toNat < 2 ^ o := by
  refine Nat.lt_pow_two_of_testBit _ fun i hi => ?_
  have hbit := getLsbD_rawMap k hmin ho i
  rw [BitVec.getLsbD, decide_eq_false (Nat.not_lt.mpr hi)] at hbit
  exact hbit

theorem map_lt : (map P k).toNat < slots P :=
  rawMap_lt k (Nat.le_succ_of_le P.min_le) (by have := P.order_lt; omega)

/-- **The entries of a round are different ones.** -/
theorem map_eq_iff {j k : P.Atomic} :
    (map P j).toNat = (map P k).toNat ↔ j.toNat % slots P = k.toNat % slots P := by
  rw [BitVec.toNat_inj]
  exact rawMap_eq_iff (Nat.le_succ_of_le P.min_le) (by have := P.order_lt; omega)

theorem toNat_ofNat_mod (i : Nat) : (BitVec.ofNat P.width i).toNat % slots P = i % slots P := by
  rw [BitVec.toNat_ofNat, Nat.mod_mod_of_dvd]
  exact pow_dvd_pow 2 (by have := P.order_lt; omega)

theorem place_eq_iff {i j : Nat} : place P i = place P j ↔ i % slots P = j % slots P := by
  rw [place, place, map_eq_iff, toNat_ofNat_mod, toNat_ofNat_mod]

theorem place_toNat : place P k.toNat = (map P k).toNat := by
  rw [place, map_eq_iff, toNat_ofNat_mod]

end QueueFairness.SCQueue
