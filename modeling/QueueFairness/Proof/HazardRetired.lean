import QueueFairness.Lib.LockFree
import QueueFairness.Proof.HazardPointers
import QueueFairness.Proof.HazardScan
import QueueFairness.Proof.HazardTables

/-!
# The retired lists are short

A scan leaves a retired object on the list only if it has found it in a slot. The scan is not one
moment, and a slot may hold one object when it is compared with that one and another when it is
compared with the other. But nobody comes across an object again that is retired, save through a
`tail` that is behind. So what the scan may find was in a slot when it began, or some thread had it
in hand and published it later, or `tail` pointed to it: three objects a thread, and one.
-/

namespace QueueFairness.HazardPointers

open Interleaving (Tid Program Config WaitFree)
open ProtectedList (State Ghost Inv Move)

/-! ### What a scan can find -/

/-- What is in the slots or may still get there: `pending` is what a thread may publish next. -/
def exposed (maxThreads : Nat) (s : State Nat) (pending : Tid → Option Nat) : List Nat :=
  s.tail :: (List.range maxThreads).flatMap fun u =>
    [s.slot u kHpTail, s.slot u kHpHead, pending u].filterMap id

/-- The most that a scan leaves on a retired list. -/
def keptMax (maxThreads : Nat) : Nat := 3 * maxThreads + 1

section Exposed

variable {maxThreads : Nat} {t : Tid} {s s' : State Nat} {pending pending' : Tid → Option Nat}
  {n : Nat}

theorem length_exposed_le : (exposed maxThreads s pending).length ≤ keptMax maxThreads := by
  rw [exposed, List.length_cons, keptMax]
  refine Nat.succ_le_succ ?_
  induction maxThreads with
  | zero => exact Nat.zero_le _
  | succ m ih =>
      have hrow := List.length_filterMap_le id [s.slot m kHpTail, s.slot m kHpHead, pending m]
      rw [List.range_succ, List.flatMap_append, List.length_append, List.flatMap_singleton]
      simp only [List.length_cons, List.length_nil] at hrow
      omega

theorem mem_exposed : n ∈ exposed maxThreads s pending ↔ n = s.tail
    ∨ ∃ u < maxThreads, (∃ j < maxHPs, s.slot u j = some n) ∨ pending u = some n := by
  have hslots : ∀ u, (∃ j < maxHPs, s.slot u j = some n)
      ↔ s.slot u kHpTail = some n ∨ s.slot u kHpHead = some n := fun u => by
    constructor
    · rintro ⟨j, hj, hn⟩
      obtain rfl | rfl : j = kHpTail ∨ j = kHpHead := by
        simp only [maxHPs, kHpTail, kHpHead] at hj ⊢
        omega
      · exact .inl hn
      · exact .inr hn
    · rintro (hn | hn)
      · exact ⟨kHpTail, by decide, hn⟩
      · exact ⟨kHpHead, by decide, hn⟩
  simp only [exposed, List.mem_cons, List.mem_flatMap, List.mem_range, hslots, List.mem_filterMap,
    id, List.not_mem_nil, or_false, or_assoc, exists_eq_right, eq_comm (a := some n)]

/-- **No object that has been retired comes into sight again.** -/
theorem exposed_of_step {scanned : Tid → Nat → Prop} {x x' : Ghost Nat} (hw : Inv scanned x s)
    (hmove : Move scanned t x s x' s')
    (hslot : ∀ u j n, s'.slot u j = some n → s.slot u j = some n ∨ pending u = some n)
    (hpending : ∀ u, pending' u = some n → pending u = some n ∨ n = s.tail)
    {u : Tid} (hretired : n ∈ s.retired u) (hn : n ∈ exposed maxThreads s' pending') :
    n ∈ exposed maxThreads s pending := by
  rw [mem_exposed] at hn ⊢
  rcases hn with rfl | ⟨v, hv, ⟨j, hj, hn⟩ | hn⟩
  · exact .inl (hmove.tail_of_retired hw hretired)
  · exact .inr ⟨v, hv, (hslot v j n hn).imp_left fun hn => ⟨j, hj, hn⟩⟩
  · rcases hpending v hn with hn | rfl
    · exact .inr ⟨v, hv, .inr hn⟩
    · exact .inl rfl

end Exposed

/-! ### What a scan leaves -/

/-- How far a scan has come on a list of `length` objects. -/
def scanPosition (length : Nat) (scan : Option Scan) : Nat := scan.elim length Scan.index

/-- The objects on the list `ptrs` that a scan can find are on `noted`, which is short, and so are
the first `count` objects, which it has found. -/
structure Noted (maxThreads : Nat) (s : State Nat) (pending : Tid → Option Nat) (ptrs : List Nat)
    (count : Nat) (noted : List Nat) : Prop where
  length_le : noted.length ≤ keptMax maxThreads
  exposed : ∀ n ∈ ptrs, n ∈ exposed maxThreads s pending → n ∈ noted
  found : ∀ k < count, ∀ n, ptrs[k]? = some n → n ∈ noted

namespace Noted

variable {maxThreads : Nat} {t : Tid} {s s' : State Nat} {pending pending' : Tid → Option Nat}
  {ptrs noted : List Nat} {count : Nat} {scan : Scan} {H : HazardPointers}

theorem stable (h : Noted maxThreads s pending ptrs count noted)
    (hsub : ∀ n ∈ ptrs, n ∈ HazardPointers.exposed maxThreads s' pending' →
      n ∈ HazardPointers.exposed maxThreads s pending) :
    Noted maxThreads s' pending' ptrs count noted :=
  ⟨h.length_le, fun n hn he => h.exposed n hn (hsub n hn he), h.found⟩

/-- At the beginning of a scan. -/
theorem start : Noted maxThreads s pending ptrs 0 (HazardPointers.exposed maxThreads s pending) :=
  ⟨length_exposed_le, fun _ _ hn => hn, fun k hk => absurd hk (Nat.not_lt_zero k)⟩

/-- At the end of a scan. -/
theorem length_ptrs_le (h : Noted maxThreads s pending ptrs count noted) (hnodup : ptrs.Nodup)
    (hcount : ptrs.length ≤ count) : ptrs.length ≤ keptMax maxThreads := by
  have hsubset : ptrs ⊆ noted := by
    intro n hn
    obtain ⟨k, hk⟩ := List.mem_iff_getElem?.mp hn
    have hlt : k < ptrs.length := (List.getElem?_eq_some_iff.mp hk).1
    exact h.found k (Nat.lt_of_lt_of_le hlt hcount) n hk
  exact (hnodup.subperm hsubset).length_le.trans h.length_le

/-- The next object, or the end of the list. -/
theorem next (h : Noted maxThreads s pending ptrs count noted) :
    Noted maxThreads s pending ptrs
      (scanPosition ptrs.length (scanFrom maxThreads ptrs count)) noted := by
  refine ⟨h.length_le, h.exposed, fun k hk n hn => h.found k ?_ n hn⟩
  unfold scanFrom at hk
  cases hobj : ptrs[count]? with
  | none =>
      rw [hobj] at hk
      have hlength : ptrs.length ≤ count := List.getElem?_eq_none_iff.mp hobj
      exact Nat.lt_of_lt_of_le hk hlength
  | some obj =>
      rw [hobj, Option.map_some] at hk
      split at hk <;> exact hk

/-- The object at hand was found. -/
theorem find (h : Noted maxThreads s pending ptrs count noted) {obj : Nat}
    (hobj : ptrs[count]? = some obj) (hfound : obj ∈ HazardPointers.exposed maxThreads s pending) :
    Noted maxThreads s pending ptrs (count + 1) noted := by
  refine ⟨h.length_le, h.exposed, fun k hk n hn => ?_⟩
  rcases Nat.lt_succ_iff_lt_or_eq.mp hk with hlt | rfl
  · exact h.found k hlt n hn
  · obtain rfl : obj = n := Option.some.inj (hobj.symm.trans hn)
    exact h.exposed obj (List.mem_of_getElem? hobj) hfound

/-- The object at hand is deleted. -/
theorem erase (h : Noted maxThreads s pending ptrs count noted) :
    Noted maxThreads s pending (ptrs.eraseIdx count) count noted := by
  refine ⟨h.length_le, fun n hn => h.exposed n (List.mem_of_mem_eraseIdx hn), fun k hk n hn => ?_⟩
  rw [List.getElem?_eraseIdx_of_lt hk] at hn
  exact h.found k hk n hn

/-- A step of the scan. -/
theorem scanStep (hslot : s.slot = H.hp)
    (h : Noted maxThreads s pending (H.retiredList t) scan.index noted)
    (hobj : (H.retiredList t)[scan.index]? = some scan.obj) (hwithin : scan.Within maxThreads) :
    Noted maxThreads s pending ((HazardPointers.scanStep maxThreads t H scan).1.retiredList t)
      (scanPosition ((HazardPointers.scanStep maxThreads t H scan).1.retiredList t).length
        (HazardPointers.scanStep maxThreads t H scan).2.1) noted := by
  cases scan with
  | load iret obj row slot =>
      simp only [HazardPointers.scanStep, afterLoad]
      split
      · rename_i hfound
        have hcell : s.slot row slot = some obj := by
          rw [hslot]
          exact beq_iff_eq.mp hfound
        exact (h.find hobj
          (mem_exposed.mpr (.inr ⟨row, hwithin.1, .inl ⟨slot, hwithin.2, hcell⟩⟩))).next
      · split
        · exact h
        · split
          · exact h
          · exact h
  | erase iret obj =>
      have hlist : ((H.setRetired t ((H.retiredList t).eraseIdx iret)).retiredList t)
          = (H.retiredList t).eraseIdx iret := Function.update_self ..
      simp only [HazardPointers.scanStep, hlist]
      exact h.erase.next

end Noted

/-! ### The threads that use a table -/

/-- Whether a thread is away from `retire`, about to call it, or in its loops. -/
inductive Phase where
  | away
  | retire (n : Nat)
  | scan (scan : Scan)

/-- After a step of `retire`. -/
def Phase.after : Option Scan → Phase
  | none => .away
  | some s => .scan s

def Phase.scan? : Phase → Option Scan
  | .scan s => some s
  | _ => none

/-- The thread is in `retire`. -/
def Phase.Retiring : Phase → Prop
  | .retire _ | .scan _ => True
  | _ => False

/-- What a step of thread `t` may do with the table; `pending` is what it may publish. -/
inductive TableStep (maxThreads : Nat) (t : Tid) (pending : Option Nat) :
    HazardPointers → Phase → HazardPointers → Phase → Prop
  | stay {H : HazardPointers} : TableStep maxThreads t pending H .away H .away
  | publish {H : HazardPointers} {j n : Nat} (hn : pending = some n) :
      TableStep maxThreads t pending H .away (H.setSlot t j (some n)) .away
  | clear {H : HazardPointers} {j : Nat} :
      TableStep maxThreads t pending H .away (H.setSlot t j none) .away
  | remove {H : HazardPointers} {n : Nat} : TableStep maxThreads t pending H .away H (.retire n)
  | retire {H : HazardPointers} {n : Nat} :
      TableStep maxThreads t pending H (.retire n) (H.setRetired t (H.retiredList t ++ [n]))
        (.after (scanFrom maxThreads (H.retiredList t ++ [n]) 0))
  | scan {H : HazardPointers} {s : Scan} :
      TableStep maxThreads t pending H (.scan s) (scanStep maxThreads t H s).1
        (.after (scanStep maxThreads t H s).2.1)

section TableStep

variable {maxThreads : Nat} {t u : Tid} {pending : Option Nat} {n j : Nat} {H H' : HazardPointers}
  {p p' : Phase}

theorem TableStep.slot (h : TableStep maxThreads t pending H p H' p') (hn : H'.hp u j = some n) :
    H.hp u j = some n ∨ u = t ∧ pending = some n := by
  have hset : ∀ {k : Nat} {v : Option Nat}, (H.setSlot t k v).hp u j = some n →
      H.hp u j = some n ∨ u = t ∧ v = some n := by
    intro k v hv
    by_cases hu : u = t
    · subst hu
      by_cases hj : j = k
      · subst hj
        exact .inr ⟨rfl, by simpa [setSlot] using hv⟩
      · exact .inl (by simpa [setSlot, hj] using hv)
    · exact .inl (by simpa [setSlot, hu] using hv)
  cases h with
  | publish hm => exact (hset hn).imp_right fun ⟨hu, hv⟩ => ⟨hu, hm.trans hv⟩
  | clear =>
      rcases hset hn with hn | ⟨-, hn⟩
      · exact .inl hn
      · cases hn
  | @scan s =>
      cases s with
      | load => exact .inl hn
      | erase => exact .inl hn
  | _ => exact .inl hn

theorem TableStep.retiredList_of_ne (h : TableStep maxThreads t pending H p H' p') (hu : u ≠ t) :
    H'.retiredList u = H.retiredList u := by
  cases h with
  | retire => exact Function.update_of_ne hu ..
  | scan => exact scanStep_retiredList_of_ne hu
  | _ => rfl

end TableStep

/-! ### Accounts -/

/-- How a thread in phase `p` stands with its retired list `ptrs`. -/
structure Account (maxThreads : Nat) (s : State Nat) (pending : Tid → Option Nat) (ptrs : List Nat)
    (p : Phase) : Prop where
  noted : ∃ noted, Noted maxThreads s pending ptrs (scanPosition ptrs.length p.scan?) noted
  length_le : ptrs.length ≤ keptMax maxThreads + 1
  scan : ∀ scan, p = .scan scan → ptrs[scan.index]? = some scan.obj ∧ scan.Within maxThreads

section Account

variable {maxThreads iret : Nat} {t : Tid} {next : Option Nat} {H H' : HazardPointers}
  {p p' : Phase}
  {s s' : State Nat} {pending pending' : Tid → Option Nat} {ptrs : List Nat} {scan scan' : Scan}

theorem scanFrom_obj (h : scanFrom maxThreads ptrs iret = some scan) :
    ptrs[scan.index]? = some scan.obj := by
  obtain ⟨obj, hobj, rfl⟩ := Option.map_eq_some_iff.mp h
  split <;> exact hobj

theorem scanStep_obj (hobj : (H.retiredList t)[scan.index]? = some scan.obj)
    (h : (scanStep maxThreads t H scan).2.1 = some scan') :
    ((scanStep maxThreads t H scan).1.retiredList t)[scan'.index]? = some scan'.obj := by
  cases scan with
  | load iret obj row slot =>
      simp only [scanStep, afterLoad] at h ⊢
      split at h
      · exact scanFrom_obj h
      split at h
      · obtain rfl := Option.some.inj h
        exact hobj
      split at h
      · obtain rfl := Option.some.inj h
        exact hobj
      · obtain rfl := Option.some.inj h
        exact hobj
  | erase iret obj =>
      have hlist : ((H.setRetired t ((H.retiredList t).eraseIdx iret)).retiredList t)
          = (H.retiredList t).eraseIdx iret := Function.update_self ..
      simp only [scanStep, hlist] at h ⊢
      exact scanFrom_obj h

theorem mem_of_scanStep {n : Nat}
    (hn : n ∈ (scanStep maxThreads t H scan).1.retiredList t) : n ∈ H.retiredList t := by
  cases scan with
  | load => exact hn
  | erase iret obj =>
      have hlist : ((H.setRetired t ((H.retiredList t).eraseIdx iret)).retiredList t)
          = (H.retiredList t).eraseIdx iret := Function.update_self ..
      simp only [scanStep, hlist] at hn
      exact List.mem_of_mem_eraseIdx hn

theorem Phase.scan?_after (o : Option Scan) : (Phase.after o).scan? = o := by
  cases o <;> rfl

theorem Phase.after_eq_scan {o : Option Scan} (h : Phase.after o = .scan scan) : o = some scan := by
  rw [← scan?_after o, h]
  rfl

/-- The lists of the others, of which nothing new can be found. -/
theorem Account.stable (ha : Account maxThreads s pending ptrs p)
    (hsub : ∀ n ∈ ptrs, n ∈ exposed maxThreads s' pending' → n ∈ exposed maxThreads s pending) :
    Account maxThreads s' pending' ptrs p :=
  ⟨ha.noted.imp fun _ hnoted => hnoted.stable hsub, ha.length_le, ha.scan⟩

/-- Outside of a scan. -/
theorem Account.length_le_of_scan? (ha : Account maxThreads s pending ptrs p)
    (hscan : p.scan? = none) (hnodup : ptrs.Nodup) : ptrs.length ≤ keptMax maxThreads := by
  obtain ⟨noted, hnoted⟩ := ha.noted
  rw [hscan] at hnoted
  exact hnoted.length_ptrs_le hnodup (Nat.le_refl _)

/-- **A step of the thread that owns the list.** -/
theorem Account.own (hstep : TableStep maxThreads t next H p H' p')
    (ha : Account maxThreads s pending (H.retiredList t) p) (hslot : s.slot = H.hp)
    (hnodup : (H.retiredList t).Nodup)
    (hsub : ∀ n ∈ H.retiredList t, n ∈ exposed maxThreads s' pending' →
      n ∈ exposed maxThreads s pending) :
    Account maxThreads s' pending' (H'.retiredList t) p' := by
  have hstay : ∀ {q : Phase}, p.scan? = none → q.scan? = none →
      Account maxThreads s' pending' (H.retiredList t) q := by
    intro q hp hq
    have hst := ha.stable hsub
    refine ⟨?_, hst.length_le, fun scan hscan => ?_⟩
    · rw [hq, ← hp]
      exact hst.noted
    · rw [hscan] at hq
      cases hq
  cases hstep with
  | stay | publish | clear | remove => exact hstay rfl rfl
  | @retire n =>
      have hlist : (H.setRetired t (H.retiredList t ++ [n])).retiredList t
          = H.retiredList t ++ [n] := Function.update_self ..
      rw [hlist]
      refine ⟨⟨exposed maxThreads s' pending', ?_⟩, ?_, fun scan hscan => ?_⟩
      · rw [Phase.scan?_after]
        exact Noted.start.next
      · rw [List.length_append, List.length_singleton]
        exact Nat.succ_le_succ (ha.length_le_of_scan? rfl hnodup)
      · have hfrom := Phase.after_eq_scan hscan
        exact ⟨scanFrom_obj hfrom, within_scanFrom hfrom⟩
  | @scan scan =>
      obtain ⟨hobj, hwithin⟩ := ha.scan scan rfl
      obtain ⟨noted, hnoted⟩ := ha.noted
      refine ⟨⟨noted, ?_⟩, length_scanStep_le.trans ha.length_le, fun scan' hscan => ?_⟩
      · rw [Phase.scan?_after]
        exact (hnoted.scanStep hslot hobj hwithin).stable fun n hn => hsub n (mem_of_scanStep hn)
      · have hafter := Phase.after_eq_scan hscan
        exact ⟨scanStep_obj hobj hafter, within_scanStep hwithin hafter⟩

end Account

/-! ### The steps of `retire` -/

/-- The most steps that a call of `retire` takes. -/
def retireSteps (maxThreads : Nat) : Nat := (keptMax maxThreads + 1) * perObject maxThreads + 1

/-- The steps a thread has left in `retire`, on a list of `length` objects. -/
def Phase.left (maxThreads length : Nat) : Phase → Nat
  | .retire _ => (length + 1) * perObject maxThreads + 1
  | .scan s => s.left maxThreads length
  | _ => 0

section Left

variable {maxThreads length : Nat} {t : Tid} {next : Option Nat} {H H' : HazardPointers}
  {p p' : Phase} {s : State Nat} {pending : Tid → Option Nat} {ptrs : List Nat} {scan : Scan}

theorem Phase.left_after (o : Option Scan) :
    (Phase.after o).left maxThreads length = scanLeft maxThreads length o := by
  cases o <;> rfl

theorem Phase.left_pos (hp : p.Retiring) : 0 < p.left maxThreads length := by
  cases p with
  | away => exact hp.elim
  | retire n => exact Nat.succ_pos _
  | scan scan => cases scan <;> exact Nat.succ_pos _

/-- Every step in `retire` leaves fewer of them. -/
theorem TableStep.left_lt (h : TableStep maxThreads t next H p H' p') (hp : p.Retiring) :
    p'.left maxThreads (H'.retiredList t).length < p.left maxThreads (H.retiredList t).length := by
  cases h with
  | @retire n =>
      have hlist : (H.setRetired t (H.retiredList t ++ [n])).retiredList t
          = H.retiredList t ++ [n] := Function.update_self ..
      have hscan : scanLeft maxThreads (H.retiredList t ++ [n]).length
            (scanFrom maxThreads (H.retiredList t ++ [n]) 0)
          ≤ (H.retiredList t ++ [n]).length * perObject maxThreads := scanLeft_scanFrom
      rw [hlist, Phase.left_after, Phase.left]
      rw [List.length_append, List.length_singleton] at hscan ⊢
      exact Nat.lt_succ_of_le hscan
  | scan =>
      rw [Phase.left_after]
      exact scanLeft_scanStep
  | _ => exact hp.elim

theorem Scan.left_le (hindex : scan.index < length) (hwithin : scan.Within maxThreads) :
    scan.left maxThreads length ≤ length * perObject maxThreads := by
  have hone : (length - (scan.index + 1)) * perObject maxThreads + perObject maxThreads
      = length * perObject maxThreads - scan.index * perObject maxThreads := by
    rw [← Nat.succ_mul, ← Nat.sub_mul]
    congr 1
    omega
  have hle : scan.left maxThreads length
      ≤ (length - (scan.index + 1)) * perObject maxThreads + perObject maxThreads := by
    cases scan with
    | load iret obj row slot =>
        obtain ⟨hrow, hslot⟩ := hwithin
        simp only [Scan.left, Scan.index, perObject, maxHPs] at hslot ⊢
        omega
    | erase iret obj =>
        simp only [Scan.left, Scan.index, perObject]
        omega
  omega

/-- A thread whose account is in order has few steps left. -/
theorem Account.left_le (ha : Account maxThreads s pending ptrs p) (hnodup : ptrs.Nodup) :
    p.left maxThreads ptrs.length ≤ retireSteps maxThreads := by
  cases p with
  | away => exact Nat.zero_le _
  | retire n =>
      have hlength := ha.length_le_of_scan? rfl hnodup
      exact Nat.succ_le_succ (Nat.mul_le_mul_right _ (Nat.succ_le_succ hlength))
  | scan scan =>
      obtain ⟨hobj, hwithin⟩ := ha.scan scan rfl
      have hindex : scan.index < ptrs.length := (List.getElem?_eq_some_iff.mp hobj).1
      calc scan.left maxThreads ptrs.length
          ≤ ptrs.length * perObject maxThreads := scan.left_le hindex hwithin
        _ ≤ (keptMax maxThreads + 1) * perObject maxThreads := Nat.mul_le_mul_right _ ha.length_le
        _ ≤ retireSteps maxThreads := Nat.le_succ _

end Left

/-- A program that uses a table: its steps are steps of the table and moves on the list of nodes,
and what a thread may publish is not retired when it gets hold of it, unless `tail` is there. -/
structure TableUse {σ κ ι ε : Type} (P : Program σ κ ι ε) (ok : Config σ κ ε → Tid → ι → Prop)
    (maxThreads : Nat) where
  list : σ → State Nat
  table : σ → HazardPointers
  pending : σ → κ → Option Nat
  phase : κ → Phase
  slot : ∀ g, (list g).slot = (table g).hp
  retired : ∀ g, (list g).retired = (table g).retiredList
  start : ∀ t, (table P.start).retiredList t = []
  idle : phase P.idle = .away
  step : ∀ {t i g l g' l' es}, P.step t i g l = some (g', l', es) →
    TableStep maxThreads t (pending g l) (table g) (phase l) (table g') (phase l')
  inv : ∀ {c}, P.Reach ok c → ∃ x, Inv (Scanned maxThreads) x (list c.shared)
    ∧ ∀ {t i g l es}, ok c t i → P.step t i c.shared (c.locals t) = some (g, l, es) →
      (∃ x', Move (Scanned maxThreads) t x (list c.shared) x' (list g))
        ∧ ∀ u v n, n ∈ (list c.shared).retired v →
          pending g (Function.update c.locals t l u) = some n →
          pending c.shared (c.locals u) = some n ∨ n = (list c.shared).tail

namespace TableUse

variable {σ κ ι ε : Type} {P : Program σ κ ι ε} {ok : Config σ κ ε → Tid → ι → Prop}
  {maxThreads : Nat} (U : TableUse P ok maxThreads) {c : Config σ κ ε} {t : Tid}

/-- **Along every run the accounts are in order.** -/
theorem account (h : P.Reach ok c) : ∀ t, Account maxThreads (U.list c.shared)
    (fun u => U.pending c.shared (c.locals u)) ((U.table c.shared).retiredList t)
    (U.phase (c.locals t)) := by
  induction h with
  | init =>
      intro t
      have hphase : U.phase (P.init.locals t) = .away := U.idle
      have hlist : (U.table P.init.shared).retiredList t = [] := U.start t
      rw [hphase, hlist]
      exact ⟨⟨[], Nat.zero_le _, fun n hn => absurd hn List.not_mem_nil,
        fun k hk => absurd hk (Nat.not_lt_zero k)⟩, Nat.zero_le _, fun scan hscan => by cases hscan⟩
  | @step c _ t i hreach hok hnext ih =>
      obtain ⟨g, l, es, hstep, rfl⟩ := Program.next_eq_some hnext
      obtain ⟨x, hw, hsteps⟩ := U.inv hreach
      obtain ⟨⟨x', hmove⟩, hpending⟩ := hsteps hok hstep
      have htable := U.step hstep
      have hsub : ∀ u n, n ∈ (U.table c.shared).retiredList u →
          n ∈ exposed maxThreads (U.list g)
            (fun v => U.pending g (Function.update c.locals t l v)) →
          n ∈ exposed maxThreads (U.list c.shared) (fun v => U.pending c.shared (c.locals v)) := by
        intro u n hn he
        rw [← U.retired] at hn
        refine exposed_of_step hw hmove (fun v j m hm => ?_) (fun v => hpending v u n hn) hn he
        rw [U.slot] at hm ⊢
        exact (htable.slot hm).imp_right fun ⟨hv, hm⟩ => hv ▸ hm
      intro u
      by_cases hu : u = t
      · subst hu
        have hnodup : ((U.table c.shared).retiredList u).Nodup := by
          rw [← U.retired]
          exact hw.retired_nodup u
        simpa using (ih u).own htable (U.slot _) hnodup (hsub u)
      · have hlocal : Function.update c.locals t l u = c.locals u := Function.update_of_ne hu ..
        simp only [hlocal, htable.retiredList_of_ne hu]
        exact (ih u).stable (hsub u)

theorem retired_nodup (h : P.Reach ok c) (t : Tid) :
    ((U.table c.shared).retiredList t).Nodup := by
  obtain ⟨x, hw, -⟩ := U.inv h
  rw [← U.retired]
  exact hw.retired_nodup t

/-- **The retired lists stay short**, shorter by one outside of `retire`. -/
theorem length_retiredList_le (h : P.Reach ok c) (t : Tid) :
    ((U.table c.shared).retiredList t).length ≤ keptMax maxThreads + 1
      ∧ (U.phase (c.locals t) = .away →
        ((U.table c.shared).retiredList t).length ≤ keptMax maxThreads) := by
  have haccount := U.account h t
  refine ⟨haccount.length_le, fun haway => haccount.length_le_of_scan? ?_ (U.retired_nodup h t)⟩
  rw [haway]
  rfl

/-- `retire` as a wait-free part of the program. -/
def waitFree (t : Tid) : WaitFree P t fun l => (U.phase l).Retiring where
  left g l := (U.phase l).left maxThreads ((U.table g).retiredList t).length
  pos := Phase.left_pos
  own hstep := (U.step hstep).left_lt
  other l hu hstep _ := by rw [(U.step hstep).retiredList_of_ne (Ne.symm hu)]

/-- **`retire` is wait-free.** -/
theorem leaves_retire {c' : Config σ κ ε} {sched : List (Tid × ι)} (h : P.Reach ok c)
    (hruns : P.Runs ok c sched c') (hretiring : (U.phase (c.locals t)).Retiring)
    (hlong : retireSteps maxThreads ≤ sched.countP fun x => x.1 = t) :
    ∃ before after d, sched = before ++ after ∧ P.Runs ok c before d
      ∧ ¬ (U.phase (d.locals t)).Retiring :=
  (U.waitFree t).leaves hruns hretiring
    (Nat.le_trans ((U.account h t).left_le (U.retired_nodup h t)) hlong)

end TableUse

end QueueFairness.HazardPointers
