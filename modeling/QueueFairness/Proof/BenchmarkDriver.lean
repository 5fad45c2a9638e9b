import QueueFairness.BenchmarkDriver
import QueueFairness.Proof.OvertakeMetrics

/-!
# The warm-up cut

The records that are dropped are the first of the concatenated logs, which are those of the threads
that happen to commit first. When more than one record is left and more than one thread has logged
any, what is left depends on who commits when, and so do the figures.
-/

namespace QueueFairness.BenchmarkDriver

open Interleaving (Tid)
open FairnessLogger
open Overtaking (depths)

variable {logs logs' : Tid → List LogRecord} {records : List LogRecord} {order order' : List Tid}
  {n : Nat} {t : Tid}

/-- The logs, one after the other. -/
theorem committed_eq : committed logs order = order.flatMap logs := by
  have hcommit : ∀ records events, commitThreadLogs records events = records ++ events := by
    intro records events
    rw [commitThreadLogs]
    split
    · rename_i hnil
      rw [hnil, List.append_nil]
    · rfl
  have hfoldl : ∀ records, order.foldl (fun records t => commitThreadLogs records (logs t)) records
      = records ++ order.flatMap logs := by
    induction order with
    | nil => simp
    | cons t order ih =>
        intro records
        rw [List.foldl_cons, ih, hcommit, List.flatMap_cons, List.append_assoc]
  exact hfoldl []

theorem trim_eq : trim n records = records.drop (200 * n) := by
  rw [trim]
  split
  · rename_i hnil
    rw [hnil, List.drop_nil]
  · rcases Nat.le_total (200 * n) records.length with hle | hge
    · rw [Nat.min_eq_left hle]
    · rw [Nat.min_eq_right hge, List.drop_length, List.drop_of_length_le hge]

/-- The pairs that the figures of a run are computed from. -/
def pairsLeft (n : Nat) (records : List LogRecord) (event1 event2 : EventTimestamp) :
    List (Nat × Nat) :=
  tsPairs (records.drop (200 * n)) event1 event2

/-- The figures are those of the records that are left. -/
theorem reported_eq (henq : (pairsLeft n records .enqueueInv .enqueueLin).length < 2 ^ 30)
    (hdeq : (pairsLeft n records .dequeueInv .dequeueLin).length < 2 ^ 30) :
    reported n records
      = some (figures (depths (pairsLeft n records .enqueueInv .enqueueLin)),
          figures (depths (pairsLeft n records .dequeueInv .dequeueLin))) := by
  have henq := compute_eq henq
  have hdeq := compute_eq hdeq
  rw [reported, trim_eq]
  split
  · rename_i hnil
    simp [pairsLeft, hnil, tsPairs, figures, depths]
  · exact (bind_eq henq _).trans (bind_eq hdeq _)

/-! ### When the order does not matter -/

/-- A single pair is not overtaken. -/
theorem figures_of_length_le_one {pairs : List (Nat × Nat)} (h : pairs.length ≤ 1) :
    figures (depths pairs) = {} := by
  match pairs with
  | [] => simp [figures, depths]
  | [p] => simp [figures, depths, Overtaking.depth]

theorem pairsLeft_length_le (records : List LogRecord) (event1 event2 : EventTimestamp) :
    (pairsLeft n records event1 event2).length ≤ records.length - 200 * n := by
  rw [← List.length_drop]
  exact List.length_filterMap_le ..

/-- One record alone gives no figures. -/
theorem reported_of_length_le (h : records.length ≤ 200 * n + 1) :
    reported n records = some ({}, {}) := by
  have henq := pairsLeft_length_le (n := n) records .enqueueInv .enqueueLin
  have hdeq := pairsLeft_length_le (n := n) records .dequeueInv .dequeueLin
  rw [reported_eq (by omega) (by omega), figures_of_length_le_one (by omega),
    figures_of_length_le_one (by omega)]

theorem length_committed (order : List Tid) :
    (committed logs order).length = (order.map fun t => (logs t).length).sum := by
  rw [committed_eq, List.length_flatMap]

/-- When only thread `t` has logged anything, its log is all there is. -/
theorem committed_of_alone (hnodup : order.Nodup) (ht : t ∈ order)
    (halone : ∀ u ∈ order, u ≠ t → logs u = []) : committed logs order = logs t := by
  rw [committed_eq]
  induction order with
  | nil => cases ht
  | cons u order ih =>
      rw [List.flatMap_cons]
      obtain ⟨hu, hnodup⟩ := List.nodup_cons.mp hnodup
      by_cases hut : u = t
      · subst hut
        rw [List.flatMap_eq_nil_iff.mpr fun v hv => ?_, List.append_nil]
        exact halone v (List.mem_cons_of_mem _ hv) fun heq => hu (heq ▸ hv)
      · rw [halone u List.mem_cons_self hut, List.nil_append]
        exact ih hnodup (List.mem_of_ne_of_mem (Ne.symm hut) ht) fun v hv =>
          halone v (List.mem_cons_of_mem _ hv)

/-- At most one record is left, or at most one thread has logged any. -/
def NothingToMix (n : Nat) (lengths : Tid → Nat) : Prop :=
  ((List.range n).map lengths).sum ≤ 200 * n + 1
    ∨ ∀ t < n, ∀ u < n, 0 < lengths t → 0 < lengths u → t = u

theorem committed_congr {lengths : Tid → Nat}
    (halone : ∀ t < n, ∀ u < n, 0 < lengths t → 0 < lengths u → t = u)
    (hlengths : ∀ t < n, (logs t).length = lengths t) (horder : order.Perm (List.range n))
    (horder' : order'.Perm (List.range n)) : committed logs order = committed logs order' := by
  have hnil : ∀ {u}, u < n → ¬ 0 < lengths u → logs u = [] := fun hu hzero =>
    List.length_eq_zero_iff.mp ((hlengths _ hu).trans (Nat.eq_zero_of_not_pos hzero))
  have hmem : ∀ {o : List Tid} {u}, o.Perm (List.range n) → (u ∈ o ↔ u < n) := fun ho =>
    ho.mem_iff.trans List.mem_range
  by_cases hsome : ∃ t < n, 0 < lengths t
  · obtain ⟨t, ht, hpos⟩ := hsome
    have hlog : ∀ {o : List Tid}, o.Perm (List.range n) → committed logs o = logs t := fun ho =>
      committed_of_alone (ho.nodup_iff.mpr List.nodup_range) ((hmem ho).mpr ht) fun u hu hut =>
        hnil ((hmem ho).mp hu) fun hpos' => hut (halone u ((hmem ho).mp hu) t ht hpos' hpos)
    rw [hlog horder, hlog horder']
  · have hall : ∀ {o : List Tid}, o.Perm (List.range n) → committed logs o = [] := fun ho =>
      committed_eq.trans <| List.flatMap_eq_nil_iff.mpr fun u hu =>
        hnil ((hmem ho).mp hu) fun hpos => hsome ⟨u, (hmem ho).mp hu, hpos⟩
    rw [hall horder, hall horder']

theorem reported_congr {lengths : Tid → Nat} (hcond : NothingToMix n lengths)
    (hlengths : ∀ t < n, (logs t).length = lengths t) (horder : order.Perm (List.range n))
    (horder' : order'.Perm (List.range n)) :
    reported n (committed logs order) = reported n (committed logs order') := by
  have hsum : ∀ {o : List Tid}, o.Perm (List.range n) →
      (committed logs o).length = ((List.range n).map lengths).sum := fun {o} ho => by
    rw [length_committed, (ho.map _).sum_eq]
    refine congrArg List.sum (List.map_congr_left fun t ht => ?_)
    exact hlengths t (List.mem_range.mp ht)
  rcases hcond with hfew | halone
  · rw [reported_of_length_le (hsum horder ▸ hfew), reported_of_length_le (hsum horder' ▸ hfew)]
  · rw [committed_congr halone hlengths horder horder']

/-! ### When it does -/

/-- Two items whose enqueues overlap: the one that is called second is the first to take effect. -/
def overtaken : LogRecord := ⟨1, 4, 7, 8⟩
def overtaker : LogRecord := ⟨2, 3, 5, 6⟩

/-- A record the figures leave out. -/
def unstamped : LogRecord := ⟨0, 0, 0, 0⟩

/-- A log that loses the overtaker to the cut when it comes first, and nothing when it comes
last. -/
def cutLog (n length : Nat) : List LogRecord :=
  if 200 * n < length then
    List.replicate (200 * n - 1) unstamped
      ++ ([overtaker, overtaken] ++ List.replicate (length - 200 * n - 1) unstamped)
  else
    List.replicate (length - 2) unstamped ++ [overtaker, overtaken]

/-- Only thread `b` logs records that count. -/
def cutLogs (n : Nat) (lengths : Tid → Nat) (b t : Tid) : List LogRecord :=
  if t = b then cutLog n (lengths b) else List.replicate (lengths t) unstamped

theorem length_cutLog {length : Nat} (hn : 0 < n) (hlength : 2 ≤ length) :
    (cutLog n length).length = length := by
  unfold cutLog
  split <;> simp <;> omega

theorem length_cutLogs {lengths : Tid → Nat} {b : Tid} (hn : 0 < n) (hb : 2 ≤ lengths b) (t : Tid) :
    (cutLogs n lengths b t).length = lengths t := by
  unfold cutLogs
  split
  · rename_i heq
    rw [heq, length_cutLog hn hb]
  · exact List.length_replicate

@[simp]
theorem tsPairs_append (records records' : List LogRecord) (event1 event2 : EventTimestamp) :
    tsPairs (records ++ records') event1 event2
      = tsPairs records event1 event2 ++ tsPairs records' event1 event2 :=
  List.filterMap_append ..

@[simp]
theorem tsPairs_unstamped (m : Nat) (event1 event2 : EventTimestamp) :
    tsPairs (List.replicate m unstamped) event1 event2 = [] := by
  refine List.filterMap_eq_nil_iff.mpr fun r hr => ?_
  obtain rfl := List.eq_of_mem_replicate hr
  cases event1 <;> rfl

/-- The logs of the threads that log nothing that counts. -/
theorem flatMap_cutLogs {lengths : Tid → Nat} {b : Tid} {rest : List Tid} (hb : b ∉ rest) :
    rest.flatMap (cutLogs n lengths b) = List.replicate (rest.map lengths).sum unstamped := by
  induction rest with
  | nil => rfl
  | cons t rest ih =>
      have htb : t ≠ b := fun heq => hb (heq ▸ List.mem_cons_self)
      rw [List.flatMap_cons, ih fun h => hb (List.mem_cons_of_mem _ h), cutLogs, if_neg htb,
        List.replicate_append_replicate, List.map_cons, List.sum_cons]

/-- What is left of records that begin with unstamped ones. -/
theorem drop_unstamped {k m : Nat} (hkm : k ≤ m) (records : List LogRecord) :
    (List.replicate m unstamped ++ records).drop k
      = List.replicate (m - k) unstamped ++ records := by
  rw [List.drop_append_of_le_length (by simpa using hkm), List.drop_replicate]

/-- The number of overtaken items, when few of the records that are left count. -/
theorem count_eq (left : List LogRecord) (hleft : left.length ≤ 2)
    (hpairs : ∀ event1 event2, pairsLeft n records event1 event2 = tsPairs left event1 event2) :
    (reported n records).map (·.1.count)
      = some ((depths (tsPairs left .enqueueInv .enqueueLin)).countP (0 < ·)) := by
  have hle : ∀ event1 event2, (pairsLeft n records event1 event2).length ≤ 2 :=
    fun event1 event2 => by
    rw [hpairs]
    exact Nat.le_trans (List.length_filterMap_le ..) hleft
  have henq := hle .enqueueInv .enqueueLin
  have hdeq := hle .dequeueInv .dequeueLin
  rw [reported_eq (by omega) (by omega), hpairs]
  rfl

/-- The cut spares the log that comes last. -/
theorem count_last (length : Nat) {r : Nat} (hn : 0 < n) (hr : 0 < r)
    (htotal : 200 * n + 1 < r + length) :
    (reported n (List.replicate r unstamped ++ cutLog n length)).map (·.1.count) = some 1 := by
  unfold cutLog
  split
  · refine (count_eq [overtaker, overtaken] (by decide) fun event1 event2 => ?_).trans rfl
    rw [pairsLeft, ← List.append_assoc, List.replicate_append_replicate, drop_unstamped (by omega),
      tsPairs_append, tsPairs_append, tsPairs_unstamped, tsPairs_unstamped, List.append_nil]
    rfl
  · refine (count_eq [overtaker, overtaken] (by decide) fun event1 event2 => ?_).trans rfl
    rw [pairsLeft, ← List.append_assoc, List.replicate_append_replicate, drop_unstamped (by omega),
      tsPairs_append, tsPairs_unstamped]
    rfl

/-- The cut takes the overtaker from the log that comes first. -/
theorem count_first {length : Nat} (hn : 0 < n) (hlength : 2 ≤ length) (r : Nat) :
    (reported n (cutLog n length ++ List.replicate r unstamped)).map (·.1.count) = some 0 := by
  unfold cutLog
  split
  · refine (count_eq [overtaken] (by decide) fun event1 event2 => ?_).trans rfl
    have hdrop : 200 * n = 200 * n - 1 + 1 := by omega
    rw [pairsLeft, List.append_assoc, hdrop, ← List.drop_drop, Nat.add_sub_cancel,
      drop_unstamped (Nat.le_refl _), Nat.sub_self]
    change tsPairs ([overtaken] ++ List.replicate (length - (200 * n - 1 + 1) - 1) unstamped
      ++ List.replicate r unstamped) event1 event2 = _
    rw [tsPairs_append, tsPairs_append, tsPairs_unstamped, tsPairs_unstamped, List.append_nil,
      List.append_nil]
  · refine (count_eq [] (by decide) fun event1 event2 => ?_).trans rfl
    have hle :
        (List.replicate (length - 2) unstamped ++ [overtaker, overtaken]).length ≤ 200 * n := by
      rw [List.length_append, List.length_replicate]
      simp only [List.length_cons, List.length_nil]
      omega
    rw [pairsLeft, List.drop_append, List.drop_of_length_le hle, List.nil_append,
      List.drop_replicate, tsPairs_unstamped]
    rfl

/-- **When records are left of two threads' logs, the order of the commits can decide the
figures.** -/
theorem exists_differs {lengths : Tid → Nat} (hcond : ¬ NothingToMix n lengths) :
    ∃ (logs : Tid → List LogRecord) (order order' : List Tid),
      (∀ t < n, (logs t).length = lengths t) ∧ order.Perm (List.range n)
        ∧ order'.Perm (List.range n)
        ∧ reported n (committed logs order) ≠ reported n (committed logs order') := by
  rw [NothingToMix, not_or, Nat.not_le] at hcond
  obtain ⟨htotal, hsome⟩ := hcond
  push Not at hsome
  obtain ⟨t, ht, u, hu, htpos, hupos, htu⟩ := hsome
  -- Some thread has more than one record.
  obtain ⟨b, hb, hlong⟩ : ∃ b < n, 2 ≤ lengths b := by
    by_contra hnone
    have hshort : ∀ m ∈ (List.range n).map lengths, m ≤ 1 := fun m hm => by
      obtain ⟨v, hv, rfl⟩ := List.mem_map.mp hm
      exact Nat.le_of_not_lt fun hlong => hnone ⟨v, List.mem_range.mp hv, hlong⟩
    have hle := List.sum_le_card_nsmul _ 1 hshort
    rw [List.length_map, List.length_range, Nat.nsmul_eq_mul] at hle
    omega
  have hn : 0 < n := Nat.zero_lt_of_lt hb
  have hmem : b ∈ List.range n := List.mem_range.mpr hb
  have hnodup : b ∉ (List.range n).erase b := fun h =>
    (List.nodup_range.mem_erase_iff.mp h).1 rfl
  have hsum : lengths b + (((List.range n).erase b).map lengths).sum
      = ((List.range n).map lengths).sum :=
    ((List.perm_cons_erase hmem).map lengths).sum_eq.symm
  -- Another one has a record.
  have hrest : 0 < (((List.range n).erase b).map lengths).sum := by
    obtain ⟨v, hv, hvb, hpos⟩ : ∃ v < n, v ≠ b ∧ 0 < lengths v := by
      by_cases htb : t = b
      · exact ⟨u, hu, fun hub => htu (htb.trans hub.symm), hupos⟩
      · exact ⟨t, ht, htb, htpos⟩
    have hv : v ∈ (List.range n).erase b :=
      List.nodup_range.mem_erase_iff.mpr ⟨hvb, List.mem_range.mpr hv⟩
    exact Nat.lt_of_lt_of_le hpos (List.le_sum_of_mem (List.mem_map_of_mem hv))
  refine ⟨cutLogs n lengths b, (List.range n).erase b ++ [b], b :: (List.range n).erase b,
    fun t _ => length_cutLogs hn hlong t, ?_, (List.perm_cons_erase hmem).symm, ?_⟩
  · exact (List.perm_append_singleton ..).trans (List.perm_cons_erase hmem).symm
  · intro heq
    have hlog : cutLogs n lengths b b = cutLog n (lengths b) := if_pos rfl
    have hlast := count_last (lengths b) hn hrest (by omega)
    have hfirst := count_first hn hlong (((List.range n).erase b).map lengths).sum
    rw [committed_eq, committed_eq, List.flatMap_append, List.flatMap_singleton, List.flatMap_cons,
      flatMap_cutLogs hnodup, hlog] at heq
    rw [heq, hfirst] at hlast
    cases hlast

/-- **When the figures do not depend on the order of the commits.** For logs of given lengths,
whatever they hold, every two orders give the same figures exactly when at most one record is left
after the cut or at most one thread has logged any. -/
theorem order_irrelevant_iff (n : Nat) (lengths : Tid → Nat) :
    (∀ (logs : Tid → List LogRecord) (order order' : List Tid),
      (∀ t < n, (logs t).length = lengths t) → order.Perm (List.range n) →
        order'.Perm (List.range n) →
          reported n (committed logs order) = reported n (committed logs order'))
      ↔ NothingToMix n lengths := by
  constructor
  · intro hsame
    by_contra hcond
    obtain ⟨logs, order, order', hlengths, horder, horder', hne⟩ := exists_differs hcond
    exact hne (hsame logs order order' hlengths horder horder')
  · intro hcond logs order order' hlengths horder horder'
    exact reported_congr hcond hlengths horder horder'

/-- Thread `0` enqueues and dequeues four hundred items on its own, and thread `1` dequeues the two
items whose enqueues overlap. -/
def twoLogs (t : Tid) : List LogRecord :=
  if t = 0 then
    (List.range 400).map fun i => ⟨4 * i + 9, 4 * i + 10, 4 * i + 11, 4 * i + 12⟩
  else
    [overtaker, overtaken]

/-- The overtaken item counts when thread `0` commits first, and is cut when thread `1` does. -/
theorem order_matters :
    [0, 1].Perm (List.range 2) ∧ [1, 0].Perm (List.range 2)
      ∧ (reported 2 (committed twoLogs [0, 1])).map (·.1.count) = some 1
      ∧ (reported 2 (committed twoLogs [1, 0])).map (·.1.count) = some 0
      ∧ reported 2 (committed twoLogs [0, 1]) ≠ reported 2 (committed twoLogs [1, 0]) := by
  have hfirst : (reported 2 (committed twoLogs [0, 1])).map (·.1.count) = some 1 := by
    decide +kernel
  have hsecond : (reported 2 (committed twoLogs [1, 0])).map (·.1.count) = some 0 := by
    decide +kernel
  refine ⟨List.Perm.refl _, List.Perm.swap .., hfirst, hsecond, fun heq => ?_⟩
  rw [heq, hsecond] at hfirst
  cases hfirst

end QueueFairness.BenchmarkDriver
