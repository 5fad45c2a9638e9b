import Mathlib.Algebra.Order.BigOperators.Group.Finset
import Mathlib.Algebra.Order.Group.Int
import Mathlib.Data.List.Count
import QueueFairness.Lib.AtomicQueue

/-!
# Threads that put in what they take out

When every thread has called at least as many enqueues as dequeues whenever it calls a dequeue, no
dequeue finds the queue empty: each thread has a balance of what it has put in and not yet taken
out, the list is at least as long as any of these balances together, and a thread that is in a
dequeue has something on its balance.
-/

namespace AtomicQueue

open Interleaving (Tid)

variable {α : Type}

def Op.isDequeue : Op α → Bool
  | .enqueue _ => false
  | .dequeue => true

def Res.isDequeued : Res α → Bool
  | .enqueued => false
  | .dequeued _ _ => true

/-- The calls of thread `t`, in order. -/
def callsOf (t : Tid) (acts : List (Act α)) : List (Op α) :=
  acts.filterMap fun
    | .call u op => if u = t then some op else none
    | _ => none

/-- What thread `t` was answered, in order. -/
def answersOf (t : Tid) (acts : List (Act α)) : List (Res α) :=
  acts.filterMap fun
    | .ret u res => if u = t then some res else none
    | _ => none

/-- The answer hands an item over. -/
def Res.hasItem : Res α → Bool
  | .dequeued _ (some _) => true
  | _ => false

/-- How often thread `t` was handed an item. -/
def itemsTo (t : Tid) (acts : List (Act α)) : Nat := (answersOf t acts).countP Res.hasItem

def dequeues (ops : List (Op α)) : Nat := ops.countP Op.isDequeue

def enqueues (ops : List (Op α)) : Nat := ops.countP fun op => !op.isDequeue

/-- At no point are there more dequeues than enqueues. -/
def Covered (ops : List (Op α)) : Prop := ∀ n, dequeues (ops.take n) ≤ enqueues (ops.take n)

section Covered

variable {ops ops' : List (Op α)}

theorem dequeues_append : dequeues (ops ++ ops') = dequeues ops + dequeues ops' :=
  List.countP_append ..

theorem enqueues_append : enqueues (ops ++ ops') = enqueues ops + enqueues ops' :=
  List.countP_append ..

theorem Covered.le (h : Covered ops) : dequeues ops ≤ enqueues ops := by
  simpa using h ops.length

theorem Covered.of_append (h : Covered (ops ++ ops')) : Covered ops := by
  intro n
  rcases Nat.le_total n ops.length with hle | hge
  · have hn := h n
    rwa [List.take_append_of_le_length hle] at hn
  · have hall := h ops.length
    rwa [List.take_left, ← List.take_of_length_le hge] at hall

theorem Covered.anti (h : Covered ops') (hle : ops <+: ops') : Covered ops := by
  obtain ⟨more, rfl⟩ := hle
  exact h.of_append

theorem Covered.append (h : Covered ops) (h' : Covered ops') : Covered (ops ++ ops') := by
  intro n
  rw [List.take_append, dequeues_append, enqueues_append]
  exact Nat.add_le_add (h n) (h' (n - ops.length))

theorem covered_nil : Covered ([] : List (Op α)) := by
  intro n
  rw [List.take_nil]
  exact Nat.le_refl 0

theorem Covered.flatMap {β : Type} {f : β → List (Op α)} (h : ∀ x, Covered (f x)) (xs : List β) :
    Covered (xs.flatMap f) := by
  induction xs with
  | nil => exact covered_nil
  | cons x xs ih =>
      rw [List.flatMap_cons]
      exact (h x).append ih

theorem covered_enqueue (item : α) : Covered [.enqueue item] := by
  intro n
  cases n with
  | zero => exact Nat.le_refl 0
  | succ n =>
      rw [List.take_succ_cons, List.take_nil]
      exact Nat.zero_le 1

theorem covered_pair (item : α) : Covered [.enqueue item, .dequeue] := by
  intro n
  match n with
  | 0 => exact Nat.le_refl 0
  | 1 => exact Nat.zero_le 1
  | n + 2 =>
      rw [List.take_succ_cons, List.take_succ_cons, List.take_nil]
      exact Nat.le_refl 1

end Covered

/-- The call under way, before it takes effect: an enqueue that is not in the list yet, or a dequeue
whose item is. -/
def Phase.pending : Phase α → Int
  | .called (.enqueue _) => -1
  | .called .dequeue => 1
  | _ => 0

/-- What thread `t` has put in and not yet taken out, if every dequeue takes an item. -/
def balance (acts : List (Act α)) (s : State α) (t : Tid) : Int :=
  enqueues (callsOf t acts) - dequeues (callsOf t acts) + (s.phase t).pending

section Runs

variable {acts acts' : List (Act α)} {s s' : State α} {t u : Tid} {op : Op α} {a : Act α}
  {res : Res α}

theorem callsOf_append (acts acts' : List (Act α)) :
    callsOf t (acts ++ acts') = callsOf t acts ++ callsOf t acts' :=
  List.filterMap_append ..

theorem callsOf_of_ne (h : ∀ a ∈ acts, a.tid ≠ t) : callsOf t acts = [] := by
  refine List.filterMap_eq_nil_iff.mpr fun a ha => ?_
  cases a with
  | call u op => exact if_neg (h _ ha)
  | effect | ret => rfl

theorem CalledAt.callsOf (h : CalledAt acts t op) :
    ∃ front, AtomicQueue.callsOf t acts = front ++ [op] := by
  obtain ⟨before, after, rfl, hafter⟩ := h
  refine ⟨AtomicQueue.callsOf t before, ?_⟩
  rw [callsOf_append, List.append_cancel_left_eq]
  change AtomicQueue.callsOf t ([.call t op] ++ after) = [op]
  rw [callsOf_append, callsOf_of_ne hafter, List.append_nil]
  simp [AtomicQueue.callsOf]

/-- A thread has put in at least as much as it has taken out, and more when it is in a dequeue. -/
theorem Run.balance_nonneg (h : Run acts s) (hcovered : Covered (callsOf t acts)) :
    0 ≤ balance acts s t ∧ (s.phase t = .called .dequeue → 1 ≤ balance acts s t) := by
  have hle := hcovered.le
  unfold balance
  cases hphase : s.phase t with
  | idle => exact ⟨by simp [Phase.pending]; omega, fun h => by cases h⟩
  | done op res => exact ⟨by simp [Phase.pending]; omega, fun h => by cases h⟩
  | called op =>
      cases op with
      | dequeue => exact ⟨by simp [Phase.pending]; omega, fun _ => by simp [Phase.pending]; omega⟩
      | enqueue item =>
          -- The calls before this one are covered too.
          obtain ⟨front, hfront⟩ := ((h.phase_spec t).1 _ hphase).callsOf
          rw [hfront] at hcovered ⊢
          have hle := hcovered.of_append.le
          rw [dequeues_append, enqueues_append]
          refine ⟨?_, fun h => by cases h⟩
          simp [Phase.pending, dequeues, enqueues, Op.isDequeue] at hle ⊢
          omega

theorem callsOf_snoc_of_ne (ha : a.tid ≠ t) : callsOf t (acts ++ [a]) = callsOf t acts := by
  have hnone : callsOf t [a] = [] := callsOf_of_ne fun b hb => List.mem_singleton.mp hb ▸ ha
  rw [callsOf_append, hnone, List.append_nil]

/-- The balances of the others stay as they are. -/
theorem Step.balance_of_ne (h : Step s a s') (ha : a.tid ≠ t) :
    balance (acts ++ [a]) s' t = balance acts s t := by
  rw [balance, balance, callsOf_snoc_of_ne ha, h.phase_of_ne (Ne.symm ha)]

/-- What a thread puts in or takes out is on its balance. -/
theorem Step.balance_self (h : Step s a s') (hne : a.isEmptyDequeue = false) :
    balance (acts ++ [a]) s' a.tid - balance acts s a.tid = s'.items.length - s.items.length := by
  have hcalls : ∀ b : Act α, callsOf b.tid (acts ++ [b])
      = callsOf b.tid acts ++ callsOf b.tid [b] := fun b => callsOf_append acts [b]
  rw [balance, balance, hcalls, dequeues_append, enqueues_append]
  cases h with
  | @call t op hidle =>
      have hcall : callsOf t [Act.call t op] = [op] := by simp [callsOf]
      simp only [Act.tid, hcall, hidle, State.setPhase_self, State.setPhase_items]
      cases op <;> simp [Phase.pending, dequeues, enqueues, Op.isDequeue] <;> omega
  | @effect t op res items hcalled happly =>
      have hcall : callsOf t [Act.effect t op res] = [] := rfl
      simp only [Act.tid, hcall, hcalled, State.setPhase_self, State.setPhase_items]
      cases op with
      | enqueue item =>
          obtain rfl : s.items ++ [item] = items := congrArg Prod.snd happly
          simp [Phase.pending, dequeues, enqueues]
      | dequeue =>
          generalize s.items = list at happly ⊢
          cases list with
          | nil =>
              obtain rfl : .dequeued false none = res := congrArg Prod.fst happly
              cases hne
          | cons item rest =>
              obtain rfl : rest = items := congrArg Prod.snd happly
              simp [Phase.pending, dequeues, enqueues]
  | @ret t op res hdone =>
      have hcall : callsOf t [Act.ret t res] = [] := rfl
      simp only [Act.tid, hcall, hdone, State.setPhase_self, State.setPhase_items]
      simp [Phase.pending, dequeues, enqueues]

/-- **No dequeue finds the queue empty**, and the list is as long as any of the balances
together. -/
theorem Run.covered (h : Run acts s) (hcovered : ∀ t, Covered (callsOf t acts)) :
    (∀ a ∈ acts, a.isEmptyDequeue = false)
      ∧ ∀ threads : Finset Tid, ∑ t ∈ threads, balance acts s t ≤ s.items.length := by
  induction h with
  | nil =>
      refine ⟨fun a ha => absurd ha List.not_mem_nil, fun threads => ?_⟩
      exact Finset.sum_nonpos fun t _ => Int.le_refl 0
  | @snoc acts s s' a hrun hstep ih =>
      have hbefore : ∀ t, Covered (callsOf t acts) := fun t => by
        have hall := hcovered t
        rw [callsOf_append] at hall
        exact hall.of_append
      obtain ⟨hnone, hsum⟩ := ih hbefore
      have hne : a.isEmptyDequeue = false := by
        by_contra hempty
        cases hstep with
        | call | ret => exact hempty rfl
        | @effect t op res items hcalled happly =>
            cases op with
            | enqueue => exact hempty rfl
            | dequeue =>
                -- The thread has something on its balance, so the list is not empty.
                have hsome := (hrun.balance_nonneg (hbefore t)).2 hcalled
                have hle := hsum {t}
                rw [Finset.sum_singleton] at hle
                cases hitems : s.items with
                | nil =>
                    rw [hitems] at hle
                    exact absurd (hsome.trans hle) (Int.not_le.mpr Int.zero_lt_one)
                | cons item rest =>
                    rw [hitems] at happly
                    obtain rfl : .dequeued true (some item) = res := congrArg Prod.fst happly
                    exact hempty rfl
      have hself : balance (acts ++ [a]) s' a.tid - balance acts s a.tid
          = s'.items.length - s.items.length := hstep.balance_self hne
      refine ⟨fun b hb => ?_, fun threads => ?_⟩
      · rcases List.mem_append.mp hb with hb | hb
        · exact hnone b hb
        · exact List.mem_singleton.mp hb ▸ hne
      · -- The thread that moves is counted in, whether it was or not.
        have hpositive : 0 ≤ balance (acts ++ [a]) s' a.tid :=
          ((hrun.snoc hstep).balance_nonneg (hcovered a.tid)).1
        have hothers : ∑ t ∈ threads.erase a.tid, balance (acts ++ [a]) s' t
            = ∑ t ∈ threads.erase a.tid, balance acts s t :=
          Finset.sum_congr rfl fun t ht => hstep.balance_of_ne (Finset.ne_of_mem_erase ht).symm
        have hbound := hsum (insert a.tid (threads.erase a.tid))
        rw [Finset.sum_insert (Finset.notMem_erase a.tid threads)] at hbound
        by_cases hmem : a.tid ∈ threads
        · rw [← Finset.add_sum_erase threads _ hmem]
          omega
        · rw [Finset.erase_eq_of_notMem hmem] at hothers hbound
          omega

/-! ### The answers -/

theorem apply_isDequeued (op : Op α) (items : List α) :
    (apply op items).1.isDequeued = op.isDequeue := by
  cases op with
  | enqueue item => rfl
  | dequeue => cases items <;> rfl

/-- An effect gives what the list at some moment gave. -/
theorem Run.effect_spec (h : Run acts s) (heffect : .effect t op res ∈ acts) :
    ∃ items, res = (apply op items).1 := by
  induction h with
  | nil => cases heffect
  | @snoc acts s s' a hrun hstep ih =>
      rcases List.mem_append.mp heffect with hold | hnew
      · exact ih hold
      · obtain rfl := List.mem_singleton.mp hnew
        cases hstep with
        | effect hcalled happly => exact ⟨s.items, (congrArg Prod.fst happly).symm⟩

theorem DoneAt.effect_mem (h : DoneAt acts t op res) : .effect t op res ∈ acts := by
  obtain ⟨before, between, after, rfl, -, -⟩ := h
  simp

/-- A dequeue that returns has an item. -/
theorem Run.dequeued_of_covered (h : Run acts s) (hcovered : ∀ t, Covered (callsOf t acts))
    {success : Bool} {out : Option α} (hret : .ret t (.dequeued success out) ∈ acts) :
    success = true ∧ out.isSome := by
  obtain ⟨before, after, hacts⟩ := List.append_of_mem hret
  obtain ⟨op, hdone⟩ := h.linearization.2 before t _ after hacts
  have heffect : .effect t op (.dequeued success out) ∈ acts :=
    hacts ▸ List.mem_append_left _ hdone.effect_mem
  obtain ⟨items, hres⟩ := h.effect_spec heffect
  have hne := (h.covered hcovered).1 _ heffect
  cases op with
  | enqueue => cases hres
  | dequeue =>
      cases items with
      | nil =>
          obtain ⟨rfl, rfl⟩ : success = false ∧ out = none := by simpa [apply] using hres
          cases hne
      | cons item items =>
          obtain ⟨rfl, rfl⟩ : success = true ∧ out = some item := by simpa [apply] using hres
          exact ⟨rfl, rfl⟩

theorem answersOf_append : answersOf t (acts ++ acts') = answersOf t acts ++ answersOf t acts' :=
  List.filterMap_append ..

theorem answersOf_of_not_ret (h : ∀ res, .ret t res ∉ acts) : answersOf t acts = [] := by
  refine List.filterMap_eq_nil_iff.mpr fun a ha => ?_
  cases a with
  | ret u res => exact if_neg fun heq : u = t => h res (heq ▸ ha)
  | call | effect => rfl

/-- The calls are the same without the dequeues that find the queue empty. -/
theorem callsOf_observed (acts : List (Act α)) : callsOf t (observed acts) = callsOf t acts := by
  rw [callsOf, observed, List.filterMap_filter]
  refine List.filterMap_congr fun a _ => ?_
  cases a with
  | call | ret => rfl
  | effect => exact ite_self _

theorem answersOf_observed (acts : List (Act α)) :
    answersOf t (observed acts) = answersOf t acts := by
  rw [answersOf, observed, List.filterMap_filter]
  refine List.filterMap_congr fun a _ => ?_
  cases a with
  | call | ret => rfl
  | effect => exact ite_self _

/-- The call under way is a dequeue. -/
def Phase.dequeuing : Phase α → Nat
  | .called .dequeue | .done .dequeue _ => 1
  | _ => 0

/-- **Every dequeue that has returned was answered once.** -/
theorem Run.answers_dequeues (h : Run acts s) (t : Tid) : dequeues (callsOf t acts)
    = (answersOf t acts).countP Res.isDequeued + (s.phase t).dequeuing := by
  induction h with
  | nil => rfl
  | @snoc acts s s' a hrun hstep ih =>
      by_cases ha : a.tid = t
      · rw [callsOf_append, dequeues_append, answersOf_append, List.countP_append, ih]
        subst ha
        cases hstep with
        | @call t op hidle =>
            cases op <;> simp [Act.tid, hidle, callsOf, answersOf, Phase.dequeuing, dequeues,
              Op.isDequeue]
        | @effect t op res items hcalled happly =>
            cases op <;> simp [Act.tid, hcalled, callsOf, answersOf, Phase.dequeuing, dequeues]
        | @ret t op res hdone =>
            obtain ⟨items, rfl⟩ := hrun.effect_spec ((hrun.phase_spec t).2 op res hdone).effect_mem
            cases op <;> simp [Act.tid, hdone, callsOf, answersOf, Phase.dequeuing, dequeues,
              apply_isDequeued, Op.isDequeue]
      · have hnone : answersOf t [a] = [] := answersOf_of_not_ret fun res hret => ha <| by
          rw [← List.mem_singleton.mp hret, Act.tid]
        rw [callsOf_snoc_of_ne ha, answersOf_append, hnone, List.append_nil, ih,
          hstep.phase_of_ne (Ne.symm ha)]

theorem itemsTo_append : itemsTo t (acts ++ acts') = itemsTo t acts + itemsTo t acts' := by
  rw [itemsTo, answersOf_append, List.countP_append, itemsTo, itemsTo]

theorem itemsTo_ret (res : Res α) : itemsTo t [.ret t res] = res.hasItem.toNat := by
  cases h : res.hasItem <;> simp [itemsTo, answersOf, h]

theorem itemsTo_of_not_ret (h : ∀ res, .ret t res ∉ acts) : itemsTo t acts = 0 := by
  rw [itemsTo, answersOf_of_not_ret h, List.countP_nil]

/-- A thread that is covered, and idle, was handed an item for each of its dequeues. -/
theorem Run.itemsTo_eq (h : Run acts s) (hcovered : ∀ t, Covered (callsOf t acts))
    (hidle : s.phase t = .idle) : itemsTo t acts = dequeues (callsOf t acts) := by
  rw [h.answers_dequeues t, hidle]
  refine List.countP_congr fun res hres => ?_
  obtain ⟨a, ha, hsome⟩ := List.mem_filterMap.mp hres
  cases a with
  | call | effect => cases hsome
  | ret u res' =>
      obtain ⟨rfl, rfl⟩ : u = t ∧ res' = res := by simpa using hsome
      cases res' with
      | enqueued => exact Iff.rfl
      | dequeued success out =>
          obtain ⟨-, hout⟩ := h.dequeued_of_covered hcovered ha
          obtain ⟨item, rfl⟩ := Option.isSome_iff_exists.mp hout
          exact Iff.rfl

end Runs

end AtomicQueue
