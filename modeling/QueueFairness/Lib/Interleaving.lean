import Mathlib.Logic.Function.Basic
import Mathlib.Data.List.Basic

/-!
# Interleaved threads

A program is the atomic steps of one thread: what the thread does next is a function of the shared
memory, its own control state, and an input that settles everything the program text leaves open
(which call is made next, what the clock reads, whether a weak compare-and-swap fails). A run lets
any thread take the next step. Every step may append events to a history, which is what the
statements about a run are about.

The proof rule is rely-guarantee: each thread keeps a local invariant, a step of one thread stays
within what the others rely on, and then the invariants hold at the end of every run.
-/

namespace Interleaving

abbrev Tid := Nat

/-- The atomic steps of one thread over shared memory `σ` and control states `κ`, under inputs `ι`,
emitting events `ε`. -/
structure Program (σ κ ι ε : Type) where
  start : σ
  idle : κ
  step : Tid → ι → σ → κ → Option (σ × κ × List ε)

/-- What a run has reached: the memory, where every thread stands, and the events so far. -/
structure Config (σ κ ε : Type) where
  shared : σ
  locals : Tid → κ
  history : List ε

variable {σ κ ι ε γ : Type}

/-- What a step comes to, if it can be taken, has `P`. The rules below follow the text of the
step. -/
def Leads (P : σ → κ → List ε → Prop) : Option (σ × κ × List ε) → Prop
  | some (g, l, es) => P g l es
  | none => True

namespace Leads

variable {P : σ → κ → List ε → Prop} {r r' : Option (σ × κ × List ε)}

theorem into {g : σ} {l : κ} {es : List ε} (h : P g l es) : Leads P (some (g, l, es)) := h

theorem nowhere : Leads P none := trivial

theorem ite {b : Prop} {_ : Decidable b} (hpos : b → Leads P r) (hneg : ¬ b → Leads P r') :
    Leads P (if b then r else r') := by
  split
  · exact hpos ‹_›
  · exact hneg ‹_›

theorem map {o : Option γ} {f : γ → σ × κ × List ε}
    (h : ∀ x, o = some x → P (f x).1 (f x).2.1 (f x).2.2) : Leads P (o.map f) := by
  cases o with
  | none => exact nowhere
  | some x => exact h x rfl

/-- A step of a part of the program, its control state inside that of the whole. -/
theorem lift {κ' : Type} {f : κ' → κ} {r : Option (σ × κ' × List ε)}
    (h : Leads (fun g l => P g (f l)) r) : Leads P (r.map fun r => (r.1, f r.2.1, r.2.2)) := by
  cases r with
  | none => exact nowhere
  | some r => exact h

theorem of_some {g : σ} {l : κ} {es : List ε} (hr : r = some (g, l, es)) (h : Leads P r) :
    P g l es := by
  subst hr
  exact h

end Leads

namespace Program

def init (P : Program σ κ ι ε) : Config σ κ ε :=
  { shared := P.start, locals := fun _ => P.idle, history := [] }

/-- Thread `t` takes its next step under input `i`. -/
def next (P : Program σ κ ι ε) (c : Config σ κ ε) (t : Tid) (i : ι) : Option (Config σ κ ε) :=
  (P.step t i c.shared (c.locals t)).map fun r =>
    { shared := r.1, locals := Function.update c.locals t r.2.1, history := c.history ++ r.2.2 }

/-- The configurations reached by runs all of whose steps satisfy `ok`. -/
inductive Reach (P : Program σ κ ι ε) (ok : Config σ κ ε → Tid → ι → Prop) : Config σ κ ε → Prop
  | init : Reach P ok P.init
  | step {c c' : Config σ κ ε} {t : Tid} {i : ι} (hreach : Reach P ok c) (hok : ok c t i)
      (hnext : P.next c t i = some c') : Reach P ok c'

/-- The configurations reached by any run whatever. -/
abbrev Reachable (P : Program σ κ ι ε) : Config σ κ ε → Prop := P.Reach fun _ _ _ => True

/-- Runs a fixed schedule. -/
def exec (P : Program σ κ ι ε) (c : Config σ κ ε) : List (Tid × ι) → Option (Config σ κ ε)
  | [] => some c
  | (t, i) :: rest => (P.next c t i).bind fun c' => P.exec c' rest

theorem next_eq_some {P : Program σ κ ι ε} {c c' : Config σ κ ε} {t : Tid} {i : ι}
    (h : P.next c t i = some c') :
    ∃ g l es, P.step t i c.shared (c.locals t) = some (g, l, es)
      ∧ c' = ⟨g, Function.update c.locals t l, c.history ++ es⟩ := by
  obtain ⟨⟨g, l, es⟩, hstep, rfl⟩ := Option.map_eq_some_iff.mp h
  exact ⟨g, l, es, hstep, rfl⟩

theorem Reach.snoc {P : Program σ κ ι ε} {ok : Config σ κ ε → Tid → ι → Prop} {c : Config σ κ ε}
    (h : P.Reach ok c) {t : Tid} {i : ι} (hok : ok c t i) {g : σ} {l : κ} {es : List ε}
    (hstep : P.step t i c.shared (c.locals t) = some (g, l, es)) :
    P.Reach ok ⟨g, Function.update c.locals t l, c.history ++ es⟩ :=
  h.step hok (by rw [next, hstep]; rfl)

/-- A thread may take two steps in a row. -/
theorem Reach.two_steps {P : Program σ κ ι ε} {ok : Config σ κ ε → Tid → ι → Prop}
    {c : Config σ κ ε} (h : P.Reach ok c) {t : Tid} {i i' : ι} {g g' : σ} {l l' : κ}
    {es es' : List ε} (hok : ok c t i) (hstep : P.step t i c.shared (c.locals t) = some (g, l, es))
    (hok' : ok ⟨g, Function.update c.locals t l, c.history ++ es⟩ t i')
    (hstep' : P.step t i' g l = some (g', l', es')) : ∃ d, P.Reach ok d ∧ d.locals t = l' := by
  have hlocal : Function.update c.locals t l t = l := Function.update_self ..
  have hreach := (h.snoc hok hstep).snoc hok' (by simpa only [hlocal] using hstep')
  exact ⟨_, hreach, Function.update_self ..⟩

theorem Reach.mono {P : Program σ κ ι ε} {ok ok' : Config σ κ ε → Tid → ι → Prop}
    (hle : ∀ c t i, ok c t i → ok' c t i) {c : Config σ κ ε} (h : P.Reach ok c) :
    P.Reach ok' c := by
  induction h with
  | init => exact .init
  | step _ hok hnext ih => exact .step ih (hle _ _ _ hok) hnext

/-- What every step keeps of the control state of its thread holds of all threads. -/
theorem Reach.locals {P : Program σ κ ι ε} {ok : Config σ κ ε → Tid → ι → Prop} {K : κ → Prop}
    (hidle : K P.idle)
    (hkeep : ∀ {t i g l g' l' es}, P.step t i g l = some (g', l', es) → K l → K l')
    {c : Config σ κ ε} (h : P.Reach ok c) (t : Tid) : K (c.locals t) := by
  induction h with
  | init => exact hidle
  | @step c _ u i _ _ hnext ih =>
      obtain ⟨g, l, es, hstep, rfl⟩ := next_eq_some hnext
      by_cases ht : t = u
      · subst ht
        simpa using hkeep hstep ih
      · simpa [ht] using ih

/-- What every allowed step of thread `t` keeps of its control state holds of that. -/
theorem Reach.thread {P : Program σ κ ι ε} {ok : Config σ κ ε → Tid → ι → Prop} {K : κ → Prop}
    {t : Tid} (hidle : K P.idle)
    (hkeep : ∀ {c i g l es}, ok c t i → P.step t i c.shared (c.locals t) = some (g, l, es) →
      K (c.locals t) → K l)
    {c : Config σ κ ε} (h : P.Reach ok c) : K (c.locals t) := by
  induction h with
  | init => exact hidle
  | @step c _ u i _ hok hnext ih =>
      obtain ⟨g, l, es, hstep, rfl⟩ := next_eq_some hnext
      by_cases ht : t = u
      · subst ht
        simpa using hkeep hok hstep ih
      · simpa [ht] using ih

/-- Along a run, every configuration passed was itself reached. -/
theorem Reach.along {P : Program σ κ ι ε} {ok : Config σ κ ε → Tid → ι → Prop} {c : Config σ κ ε}
    (h : P.Reach ok c) : P.Reach (fun c t i => P.Reach ok c ∧ ok c t i) c := by
  induction h with
  | init => exact .init
  | step hreach hok hnext ih => exact .step ih ⟨hreach, hok⟩ hnext

/-- An event of the history was emitted by an allowed step from a configuration that was reached. -/
theorem Reach.emitted {P : Program σ κ ι ε} {ok : Config σ κ ε → Tid → ι → Prop}
    {c : Config σ κ ε} (h : P.Reach ok c) {before after : List ε} {e : ε}
    (heq : c.history = before ++ e :: after) :
    ∃ d t i g l es fs, P.Reach ok d ∧ ok d t i
      ∧ P.step t i d.shared (d.locals t) = some (g, l, es ++ e :: fs)
      ∧ before = d.history ++ es := by
  induction h generalizing after with
  | init => simp [Program.init] at heq
  | @step d _ t i hreach hok hnext ih =>
      obtain ⟨g, l, es, hstep, rfl⟩ := next_eq_some hnext
      rcases List.append_eq_append_iff.mp heq with ⟨xs, hbefore, hes⟩ | ⟨xs, hhistory, hes⟩
      · exact ⟨d, t, i, g, l, xs, after, hreach, hok, hes ▸ hstep, hbefore⟩
      · cases xs with
        | nil =>
            refine ⟨d, t, i, g, l, [], after, hreach, hok, ?_, ?_⟩
            · simpa using hes ▸ hstep
            · simpa using hhistory.symm
        | cons x xs =>
            obtain ⟨rfl, -⟩ : e = x ∧ after = xs ++ es := by simpa using hes
            exact ih hhistory

/-- A schedule whose steps are all allowed leads from a reached configuration to a reached one. -/
theorem Reach.exec {P : Program σ κ ι ε} {ok : Config σ κ ε → Tid → ι → Prop}
    (hok : ∀ c t i, ok c t i) {c : Config σ κ ε} (h : P.Reach ok c) {sched : List (Tid × ι)}
    {c' : Config σ κ ε} (hexec : P.exec c sched = some c') : P.Reach ok c' := by
  induction sched generalizing c with
  | nil =>
      obtain rfl : c = c' := by simpa [Program.exec] using hexec
      exact h
  | cons head rest ih =>
      obtain ⟨t, i⟩ := head
      obtain ⟨d, hnext, hrest⟩ := Option.bind_eq_some_iff.mp hexec
      exact ih (h.step (hok c t i) hnext) hrest

/-- A run only appends to the history. -/
theorem exec_history {P : Program σ κ ι ε} {c c' : Config σ κ ε} {sched : List (Tid × ι)}
    (hexec : P.exec c sched = some c') : ∃ es, c'.history = c.history ++ es := by
  induction sched generalizing c with
  | nil =>
      obtain rfl : c = c' := by simpa [Program.exec] using hexec
      exact ⟨[], (List.append_nil _).symm⟩
  | cons head rest ih =>
      obtain ⟨d, hnext, hrest⟩ := Option.bind_eq_some_iff.mp hexec
      obtain ⟨g, l, es, -, rfl⟩ := next_eq_some hnext
      obtain ⟨fs, hfs⟩ := ih hrest
      exact ⟨es ++ fs, by rw [hfs, List.append_assoc]⟩

/-- Runs a fixed schedule of the threads below `bound`, as long as `check` allows its steps. -/
def execIf (P : Program σ κ ι ε) (bound : Nat) (check : Config σ κ ε → Tid → ι → Bool)
    (c : Config σ κ ε) : List (Tid × ι) → Option (Config σ κ ε)
  | [] => some c
  | (t, i) :: rest =>
      if t < bound ∧ check c t i then (P.next c t i).bind fun c' => P.execIf bound check c' rest
      else none

/-- The threads that a schedule leaves out stay idle. -/
theorem execIf_idle {P : Program σ κ ι ε} {bound : Nat}
    {check : Config σ κ ε → Tid → ι → Bool} {c : Config σ κ ε}
    (hidle : ∀ u, bound ≤ u → c.locals u = P.idle) {sched : List (Tid × ι)} {c' : Config σ κ ε}
    (hexec : P.execIf bound check c sched = some c') : ∀ u, bound ≤ u → c'.locals u = P.idle := by
  induction sched generalizing c with
  | nil =>
      obtain rfl : c = c' := by simpa [Program.execIf] using hexec
      exact hidle
  | cons head rest ih =>
      obtain ⟨t, i⟩ := head
      rw [Program.execIf, Option.ite_none_right_eq_some] at hexec
      obtain ⟨⟨ht, -⟩, hexec⟩ := hexec
      obtain ⟨d, hnext, hrest⟩ := Option.bind_eq_some_iff.mp hexec
      refine ih (fun u hu => ?_) hrest
      obtain ⟨g, l, es, -, rfl⟩ := next_eq_some hnext
      have hut : u ≠ t := fun heq => absurd (heq ▸ ht) (Nat.not_lt.mpr hu)
      simpa [hut] using hidle u hu

/-- A schedule all of whose steps pass a check that entails `ok`, when the other threads are idle,
leads from a reached configuration to a reached one. -/
theorem Reach.execIf {P : Program σ κ ι ε} {ok : Config σ κ ε → Tid → ι → Prop} {bound : Nat}
    {check : Config σ κ ε → Tid → ι → Bool}
    (hok : ∀ c t i, (∀ u, bound ≤ u → c.locals u = P.idle) → check c t i = true → ok c t i)
    {c : Config σ κ ε} (h : P.Reach ok c) (hidle : ∀ u, bound ≤ u → c.locals u = P.idle)
    {sched : List (Tid × ι)} {c' : Config σ κ ε} (hexec : P.execIf bound check c sched = some c') :
    P.Reach ok c' := by
  induction sched generalizing c with
  | nil =>
      obtain rfl : c = c' := by simpa [Program.execIf] using hexec
      exact h
  | cons head rest ih =>
      obtain ⟨t, i⟩ := head
      rw [Program.execIf, Option.ite_none_right_eq_some] at hexec
      obtain ⟨⟨ht, hcheck⟩, hexec⟩ := hexec
      obtain ⟨d, hnext, hrest⟩ := Option.bind_eq_some_iff.mp hexec
      refine ih (h.step (hok c t i hidle hcheck) hnext) (fun u hu => ?_) hrest
      obtain ⟨g, l, es, -, rfl⟩ := next_eq_some hnext
      have hut : u ≠ t := fun heq => absurd (heq ▸ ht) (Nat.not_lt.mpr hu)
      simpa [hut] using hidle u hu

end Program

/-- What an invariant may speak of: the memory, the history, and a ghost value the proof keeps. -/
structure World (γ σ ε : Type) where
  ghost : γ
  shared : σ
  history : List ε

/-- A rely-guarantee proof. `glob` holds of the world and `loc` of every thread; `rely t` is what
thread `t` lets the others do, and its local invariant survives that. A step has to re-establish
the first two for the thread that moves and to stay within the rely of all the others. -/
structure RelyGuarantee (P : Program σ κ ι ε) (ok : Config σ κ ε → Tid → ι → Prop) (γ : Type) where
  glob : World γ σ ε → Prop
  loc : World γ σ ε → Tid → κ → Prop
  rely : Tid → World γ σ ε → World γ σ ε → Prop
  init : ∃ x, glob ⟨x, P.start, []⟩ ∧ ∀ t, loc ⟨x, P.start, []⟩ t P.idle
  stable : ∀ {w w' : World γ σ ε} {t : Tid} {l : κ}, rely t w w' → loc w t l → loc w' t l
  step : ∀ {x : γ} {c : Config σ κ ε} {t : Tid} {i : ι} {g : σ} {l : κ} {es : List ε}, ok c t i →
    glob ⟨x, c.shared, c.history⟩ → (∀ u, loc ⟨x, c.shared, c.history⟩ u (c.locals u)) →
    P.step t i c.shared (c.locals t) = some (g, l, es) →
    ∃ x', glob ⟨x', g, c.history ++ es⟩ ∧ loc ⟨x', g, c.history ++ es⟩ t l
      ∧ ∀ u, u ≠ t → rely u ⟨x, c.shared, c.history⟩ ⟨x', g, c.history ++ es⟩

/-- **The rely-guarantee rule.** The invariants hold at the end of every run. -/
theorem RelyGuarantee.holds {P : Program σ κ ι ε} {ok : Config σ κ ε → Tid → ι → Prop}
    (R : RelyGuarantee P ok γ) {c : Config σ κ ε} (h : P.Reach ok c) :
    ∃ x, R.glob ⟨x, c.shared, c.history⟩
      ∧ ∀ t, R.loc ⟨x, c.shared, c.history⟩ t (c.locals t) := by
  induction h with
  | init => exact R.init
  | @step c _ t i _ hok hnext ih =>
      obtain ⟨x, hglob, hloc⟩ := ih
      obtain ⟨g, l, es, hstep, rfl⟩ := Program.next_eq_some hnext
      obtain ⟨x', hglob', hown, hothers⟩ := R.step hok hglob hloc hstep
      refine ⟨x', hglob', fun u => ?_⟩
      by_cases hu : u = t
      · subst hu
        simpa using hown
      · simpa [hu] using R.stable (hothers u hu) (hloc u)

end Interleaving
