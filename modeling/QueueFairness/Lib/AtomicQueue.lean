import Mathlib.Data.List.Induction
import QueueFairness.Lib.Interleaving

/-!
# The atomic FIFO queue

The object a concurrent queue is meant to look like from outside: a call, one instant at which it
takes effect on a list, and a return that hands back what the effect gave. A history of such actions
is a run of the atomic queue when every effect falls between its thread's call and return, happens
once there, and is what the list at that moment allows.
-/

namespace AtomicQueue

open Interleaving (Tid)

variable {α : Type}

inductive Op (α : Type) where
  | enqueue (item : α)
  | dequeue
  deriving DecidableEq

/-- What a call returns: an enqueue nothing, a dequeue its success flag and what it wrote to its
output argument, if it did. -/
inductive Res (α : Type) where
  | enqueued
  | dequeued (success : Bool) (out : Option α)
  deriving DecidableEq

/-- One operation on the list, oldest item first. -/
def apply : Op α → List α → Res α × List α
  | .enqueue item, items => (.enqueued, items ++ [item])
  | .dequeue, [] => (.dequeued false none, [])
  | .dequeue, item :: items => (.dequeued true (some item), items)

/-- What the list answers to operations made one after another. -/
def results : List α → List (Op α) → List (Res α)
  | _, [] => []
  | items, op :: ops => (apply op items).1 :: results (apply op items).2 ops

/-- What they leave of it. -/
def after (items : List α) (ops : List (Op α)) : List α :=
  ops.foldl (fun items op => (apply op items).2) items

theorem after_snoc (items : List α) (ops : List (Op α)) (op : Op α) :
    after items (ops ++ [op]) = (apply op (after items ops)).2 :=
  List.foldl_append ..

inductive Act (α : Type) where
  | call (t : Tid) (op : Op α)
  | effect (t : Tid) (op : Op α) (res : Res α)
  | ret (t : Tid) (res : Res α)
  deriving DecidableEq

def Act.tid : Act α → Tid
  | .call t _ | .effect t _ _ | .ret t _ => t

/-- Where a thread stands in its current call. -/
inductive Phase (α : Type) where
  | idle
  | called (op : Op α)
  | done (op : Op α) (res : Res α)

structure State (α : Type) where
  items : List α
  phase : Tid → Phase α

def State.init : State α :=
  { items := [], phase := fun _ => .idle }

def State.setPhase (s : State α) (t : Tid) (p : Phase α) : State α :=
  { s with phase := Function.update s.phase t p }

inductive Step : State α → Act α → State α → Prop
  | call {s : State α} {t : Tid} {op : Op α} (hidle : s.phase t = .idle) :
      Step s (.call t op) (s.setPhase t (.called op))
  | effect {s : State α} {t : Tid} {op : Op α} {res : Res α} {items : List α}
      (hcalled : s.phase t = .called op) (happly : apply op s.items = (res, items)) :
      Step s (.effect t op res) ({ s with items := items }.setPhase t (.done op res))
  | ret {s : State α} {t : Tid} {op : Op α} {res : Res α} (hdone : s.phase t = .done op res) :
      Step s (.ret t res) (s.setPhase t .idle)

/-- The runs of the atomic queue from the empty list, with the actions they perform. -/
inductive Run : List (Act α) → State α → Prop
  | nil : Run [] State.init
  | snoc {acts : List (Act α)} {s s' : State α} {a : Act α} (hrun : Run acts s)
      (hstep : Step s a s') : Run (acts ++ [a]) s'

@[simp]
theorem State.setPhase_items (s : State α) (t : Tid) (p : Phase α) :
    (s.setPhase t p).items = s.items := rfl

@[simp]
theorem State.setPhase_self (s : State α) (t : Tid) (p : Phase α) :
    (s.setPhase t p).phase t = p := by
  simp [setPhase]

@[simp]
theorem State.setPhase_of_ne (s : State α) {t u : Tid} (p : Phase α) (hne : u ≠ t) :
    (s.setPhase t p).phase u = s.phase u := by
  simp [setPhase, hne]

theorem Step.phase_of_ne {s s' : State α} {a : Act α} (h : Step s a s') {t : Tid}
    (hne : t ≠ Act.tid a) : s'.phase t = s.phase t := by
  cases h <;> simp_all [Act.tid]

/-- An enqueue that has taken effect has no other result than having been enqueued. -/
theorem Run.res_of_enqueue {acts : List (Act α)} {s : State α} (h : Run acts s) {t : Tid}
    {item : α} {res : Res α} (hdone : s.phase t = .done (.enqueue item) res) :
    res = .enqueued := by
  induction h with
  | nil => simp [State.init] at hdone
  | snoc _ hstep ih =>
      cases hstep with
      | @call u _ _ =>
          by_cases hu : t = u
          · subst hu
            simp at hdone
          · exact ih (by simpa [hu] using hdone)
      | @effect u op r items hcalled happly =>
          by_cases hu : t = u
          · subst hu
            obtain ⟨rfl, rfl⟩ : op = .enqueue item ∧ r = res := by simpa using hdone
            simpa [apply] using (congrArg Prod.fst happly).symm
          · exact ih (by simpa [hu] using hdone)
      | @ret u _ _ _ =>
          by_cases hu : t = u
          · subst hu
            simp at hdone
          · exact ih (by simpa [hu] using hdone)

/-! ### What a run of the atomic queue says of its actions -/

/-- The effects of a history, in order. -/
def effects (acts : List (Act α)) : List (Op α × Res α) :=
  acts.filterMap fun
    | .effect _ op res => some (op, res)
    | _ => none

/-- A sequential history: applied one after the other to `items`, the operations give the results
listed with them and end in `items'`. -/
inductive Sequential : List α → List (Op α × Res α) → List α → Prop
  | nil {items : List α} : Sequential items [] items
  | snoc {items items' items'' : List α} {history : List (Op α × Res α)} {op : Op α} {res : Res α}
      (hseq : Sequential items history items') (happly : apply op items' = (res, items'')) :
      Sequential items (history ++ [(op, res)]) items''

/-- The effects of a run, in order, are a legal history of the FIFO list. -/
theorem Run.sequential {acts : List (Act α)} {s : State α} (h : Run acts s) :
    Sequential [] (effects acts) s.items := by
  induction h with
  | nil => exact .nil
  | snoc _ hstep ih =>
      cases hstep with
      | call hidle => simpa [effects] using ih
      | effect hcalled happly => simpa [effects] using ih.snoc happly
      | ret hdone => simpa [effects] using ih

/-- In `acts`, the last call of thread `t` is `op`, which has not taken effect. -/
def CalledAt (acts : List (Act α)) (t : Tid) (op : Op α) : Prop :=
  ∃ before after, acts = before ++ .call t op :: after ∧ ∀ a ∈ after, a.tid ≠ t

/-- In `acts`, the last call of thread `t` is `op`, and its only action since is one effect, with
result `res`. -/
def DoneAt (acts : List (Act α)) (t : Tid) (op : Op α) (res : Res α) : Prop :=
  ∃ before between after,
    acts = before ++ .call t op :: between ++ .effect t op res :: after
      ∧ (∀ a ∈ between, a.tid ≠ t) ∧ ∀ a ∈ after, a.tid ≠ t

theorem CalledAt.snoc {acts : List (Act α)} {t : Tid} {op : Op α} (h : CalledAt acts t op)
    {a : Act α} (ha : a.tid ≠ t) : CalledAt (acts ++ [a]) t op := by
  obtain ⟨before, after, rfl, hafter⟩ := h
  refine ⟨before, after ++ [a], by simp, fun b hb => ?_⟩
  rcases List.mem_append.mp hb with hb | hb
  · exact hafter b hb
  · exact List.mem_singleton.mp hb ▸ ha

theorem DoneAt.snoc {acts : List (Act α)} {t : Tid} {op : Op α} {res : Res α}
    (h : DoneAt acts t op res) {a : Act α} (ha : a.tid ≠ t) : DoneAt (acts ++ [a]) t op res := by
  obtain ⟨before, between, after, rfl, hbetween, hafter⟩ := h
  refine ⟨before, between, after ++ [a], by simp, hbetween, fun b hb => ?_⟩
  rcases List.mem_append.mp hb with hb | hb
  · exact hafter b hb
  · exact List.mem_singleton.mp hb ▸ ha

/-- The phase a run has reached says what its thread did last. -/
theorem Run.phase_spec {acts : List (Act α)} {s : State α} (h : Run acts s) (t : Tid) :
    (∀ op, s.phase t = .called op → CalledAt acts t op)
      ∧ ∀ op res, s.phase t = .done op res → DoneAt acts t op res := by
  induction h with
  | nil => simp [State.init]
  | @snoc acts _ _ a _ hstep ih =>
      by_cases ha : a.tid = t
      · cases hstep with
        | @call u op hidle =>
            obtain rfl : u = t := ha
            refine ⟨fun op' hop => ?_, fun op' res hop => by simp at hop⟩
            obtain rfl : op = op' := by simpa using hop
            exact ⟨acts, [], rfl, by simp⟩
        | @effect u op res items hcalled happly =>
            obtain rfl : u = t := ha
            refine ⟨fun op' hop => by simp at hop, fun op' res' hop => ?_⟩
            obtain ⟨rfl, rfl⟩ : op = op' ∧ res = res' := by simpa using hop
            obtain ⟨before, between, hacts, hbetween⟩ := ih.1 op hcalled
            exact ⟨before, between, [], by rw [hacts], hbetween, by simp⟩
        | @ret u op res hdone =>
            obtain rfl : u = t := ha
            exact ⟨fun op' hop => by simp at hop, fun op' res' hop => by simp at hop⟩
      · have hphase : _ = _ := hstep.phase_of_ne (Ne.symm ha)
        rw [hphase]
        exact ⟨fun op hop => (ih.1 op hop).snoc ha, fun op res hop => (ih.2 op res hop).snoc ha⟩

/-- **Exactly one effect.** When a call returns, its thread has done one thing since the call: the
effect whose result it returns. -/
theorem Run.doneAt_of_ret {acts : List (Act α)} {s : State α} {t : Tid} {res : Res α}
    (h : Run (acts ++ [.ret t res]) s) : ∃ op, DoneAt acts t op res := by
  generalize hall : acts ++ [.ret t res] = all at h
  cases h with
  | nil => simp at hall
  | @snoc acts' s' _ a hrun hstep =>
      obtain ⟨rfl, rfl⟩ : acts = acts' ∧ .ret t res = a := by
        simpa using List.append_inj' hall rfl
      cases hstep with
      | ret hdone => exact ⟨_, (hrun.phase_spec t).2 _ _ hdone⟩

/-- Every run goes through its prefixes. -/
theorem Run.of_append {acts acts' : List (Act α)} {s : State α} (h : Run (acts ++ acts') s) :
    ∃ s', Run acts s' := by
  induction acts' using List.reverseRecOn generalizing s with
  | nil => exact ⟨s, by simpa using h⟩
  | append_singleton rest a ih =>
      generalize hall : acts ++ (rest ++ [a]) = all at h
      cases h with
      | nil => simp at hall
      | @snoc acts'' s' _ b hrun hstep =>
          obtain ⟨rfl, -⟩ : acts ++ rest = acts'' ∧ a = b := by
            rw [← List.append_assoc] at hall
            simpa using List.append_inj' hall rfl
          exact ih hrun

/-- A run is a linearization of its calls and returns: its effects are a legal sequential history,
and every return hands back the result of the one effect its call has had. -/
theorem Run.linearization {acts : List (Act α)} {s : State α} (h : Run acts s) :
    Sequential [] (effects acts) s.items
      ∧ ∀ before t res after, acts = before ++ .ret t res :: after →
          ∃ op, DoneAt before t op res := by
  refine ⟨h.sequential, fun before t res after hacts => ?_⟩
  rw [hacts, List.append_cons] at h
  obtain ⟨s', hs'⟩ := h.of_append
  exact hs'.doneAt_of_ret

/-! ### Dequeues that find the queue empty

Such an effect changes nothing but its thread's phase, so until the thread returns it can be taken
back. An implementation that learns only later whether a moment was the one at which its dequeue
took effect may place the effect there at once and take it back if it was not. -/

def Act.isEmptyDequeue : Act α → Bool
  | .effect _ .dequeue (.dequeued false none) => true
  | _ => false

/-- The actions other than dequeues that find the queue empty. -/
def observed (acts : List (Act α)) : List (Act α) :=
  acts.filter fun a => !a.isEmptyDequeue

@[simp]
theorem observed_append (acts acts' : List (Act α)) :
    observed (acts ++ acts') = observed acts ++ observed acts' :=
  List.filter_append ..

theorem State.setPhase_comm (s : State α) {t u : Tid} (hne : t ≠ u) (p q : Phase α) :
    (s.setPhase t p).setPhase u q = (s.setPhase u q).setPhase t p := by
  simp [setPhase, Function.update_comm hne]

/-- What a thread does is independent of the phases of the others. -/
theorem Step.setPhase {s s' : State α} {a : Act α} (h : Step s a s') {t : Tid} (hne : t ≠ a.tid)
    (p : Phase α) : Step (s.setPhase t p) a (s'.setPhase t p) := by
  cases h with
  | @call u op hidle =>
      have hne' : u ≠ t := Ne.symm hne
      rw [State.setPhase_comm _ hne']
      exact .call (by simpa [hne'] using hidle)
  | @effect u op res items hcalled happly =>
      have hne' : u ≠ t := Ne.symm hne
      rw [State.setPhase_comm _ hne']
      exact .effect (by simpa [hne'] using hcalled) happly
  | @ret u op res hdone =>
      have hne' : u ≠ t := Ne.symm hne
      rw [State.setPhase_comm _ hne']
      exact .ret (by simpa [hne'] using hdone)

/-- A dequeue that found the queue empty and has not returned may be taken back. -/
theorem Run.takeBack {acts : List (Act α)} {s : State α} (h : Run acts s) {t : Tid}
    (hdone : s.phase t = .done .dequeue (.dequeued false none)) :
    ∃ acts', Run acts' (s.setPhase t (.called .dequeue)) ∧ observed acts' = observed acts := by
  induction h with
  | nil => simp [State.init] at hdone
  | @snoc acts s s' a hrun hstep ih =>
      by_cases ha : t = a.tid
      · cases hstep with
        | call hidle =>
            obtain rfl : t = _ := ha
            simp at hdone
        | @effect u op res items hcalled happly =>
            obtain rfl : t = u := ha
            obtain ⟨rfl, rfl⟩ : op = .dequeue ∧ res = .dequeued false none := by
              simpa using hdone
            obtain ⟨items', phase⟩ := s
            cases items' with
            | nil =>
                obtain rfl : [] = items := congrArg Prod.snd happly
                refine ⟨acts, ?_, by simp [observed, Act.isEmptyDequeue]⟩
                simpa [State.setPhase, ← show phase t = _ from hcalled] using hrun
            | cons item rest => simp [apply] at happly
        | ret hdone' =>
            obtain rfl : t = _ := ha
            simp at hdone
      · rw [hstep.phase_of_ne ha] at hdone
        obtain ⟨acts', hrun', hobs⟩ := ih hdone
        exact ⟨acts' ++ [a], .snoc hrun' (hstep.setPhase ha _), by simp [hobs]⟩

end AtomicQueue
