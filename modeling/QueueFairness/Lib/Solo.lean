import QueueFairness.Lib.Interleaving

/-!
# One call after another

Threads that take turns: a thread makes a call and takes every step until it is idle again, and then
the next one calls. `Finishes` is total correctness of the rest of a call: whatever inputs its steps
get of those allowed, the call ends, and in a state the postcondition admits.
-/

namespace Interleaving

variable {σ κ ι ε ρ : Type}

namespace Program

variable {P : Program σ κ ι ε} {allowed : Config σ κ ε → Tid → ι → Prop} {t : Tid}
  {Q Q' : Config σ κ ε → Prop} {c : Config σ κ ε}

/-- From `c`, thread `t` alone comes to the end of its call, and then `Q` holds. -/
inductive Finishes (P : Program σ κ ι ε) (allowed : Config σ κ ε → Tid → ι → Prop) (t : Tid)
    (Q : Config σ κ ε → Prop) : Config σ κ ε → Prop
  | idle {c : Config σ κ ε} (hidle : c.locals t = P.idle) (hQ : Q c) : Finishes P allowed t Q c
  | step {c : Config σ κ ε} (hbusy : c.locals t ≠ P.idle) (hsome : ∃ i, allowed c t i)
      (hdefined : ∀ i, allowed c t i → (P.next c t i).isSome)
      (hnext : ∀ i c', allowed c t i → P.next c t i = some c' → Finishes P allowed t Q c') :
      Finishes P allowed t Q c

/-- The calls are made one after another, each under its own first input; all of them end, and then
`Q` holds. -/
def Serves (P : Program σ κ ι ε) (allowed : Config σ κ ε → Tid → ι → Prop) :
    List (Tid × ι) → (Config σ κ ε → Prop) → Config σ κ ε → Prop
  | [], Q, c => Q c
  | (t, i) :: calls, Q, c =>
      ∃ c', P.next c t i = some c' ∧ P.Finishes allowed t (P.Serves allowed calls Q) c'

theorem Finishes.mono (hle : ∀ c, Q c → Q' c) (h : P.Finishes allowed t Q c) :
    P.Finishes allowed t Q' c := by
  induction h with
  | idle hidle hQ => exact .idle hidle (hle _ hQ)
  | step hbusy hsome hdefined _ ih => exact .step hbusy hsome hdefined ih

/-- A step of the call under way, in the memory `g` from the control state `l`. -/
theorem Finishes.next {ls : Tid → κ} {g : σ} {l : κ} {h : List ε} (hbusy : l ≠ P.idle)
    (hsome : ∃ i, allowed ⟨g, Function.update ls t l, h⟩ t i)
    (hnext : ∀ i, allowed ⟨g, Function.update ls t l, h⟩ t i → ∃ g' l' es,
      P.step t i g l = some (g', l', es)
        ∧ P.Finishes allowed t Q ⟨g', Function.update ls t l', h ++ es⟩) :
    P.Finishes allowed t Q ⟨g, Function.update ls t l, h⟩ := by
  have hstep : ∀ i, P.next ⟨g, Function.update ls t l, h⟩ t i
      = (P.step t i g l).map fun r => ⟨r.1, Function.update ls t r.2.1, h ++ r.2.2⟩ := fun i => by
    simp [Program.next]
  refine .step (by simpa using hbusy) hsome (fun i hi => ?_) fun i c' hi hc' => ?_
  · obtain ⟨g', l', es, heq, -⟩ := hnext i hi
    rw [hstep, heq]
    rfl
  · obtain ⟨g', l', es, heq, hfinishes⟩ := hnext i hi
    rw [hstep, heq] at hc'
    obtain rfl := Option.some.inj hc'
    exact hfinishes

/-- There is a run to the end of the call, and it keeps what its steps keep. -/
theorem Finishes.run {K : Config σ κ ε → Prop}
    (hkeep : ∀ {c i c'}, K c → c.locals t ≠ P.idle → P.next c t i = some c' → K c')
    (h : P.Finishes allowed t Q c) (hK : K c) : ∃ c', K c' ∧ c'.locals t = P.idle ∧ Q c' := by
  induction h with
  | idle hidle hQ => exact ⟨_, hK, hidle, hQ⟩
  | step hbusy hsome hdefined _ ih =>
      obtain ⟨i, hi⟩ := hsome
      obtain ⟨c', hc'⟩ := Option.isSome_iff_exists.mp (hdefined i hi)
      exact ih i c' hi hc' (hkeep hK hbusy hc')

/-- There is a run of a thread that makes one call again and again; `K k` is kept between the calls,
of which `k` have been made. -/
theorem Serves.run {K : Nat → Config σ κ ε → Prop} {i : ι} {N : Nat}
    (hcall :
      ∀ {k c c'}, k < N → K k c → c.locals t = P.idle → P.next c t i = some c' → K (k + 1) c')
    (hkeep : ∀ {k c j c'}, K k c → c.locals t ≠ P.idle → P.next c t j = some c' → K k c')
    {m k : Nat} (hN : k + m = N) (h : P.Serves allowed (List.replicate m (t, i)) Q c) (hK : K k c)
    (hidle : c.locals t = P.idle) : ∃ c', K N c' ∧ c'.locals t = P.idle ∧ Q c' := by
  induction m generalizing k c with
  | zero => exact ⟨c, hN ▸ hK, hidle, h⟩
  | succ m ih =>
      obtain ⟨c₁, hnext, hfinishes⟩ := h
      obtain ⟨c₂, hK₂, hidle₂, hserves⟩ :=
        hfinishes.run hkeep (hcall (by omega) hK hidle hnext)
      exact ih (by omega) hserves hK₂ hidle₂

section Alone

variable {ok : Config σ κ ε → Tid → ι → Prop} {K : Config σ κ ε → Prop}

/-- A thread that can always take a step nearer to the end of its call comes there. -/
theorem Reach.exists_idle (rank : σ → κ → Nat)
    (hstep : ∀ {c}, P.Reach ok c → K c → c.locals t ≠ P.idle → ∃ i d, ok c t i
      ∧ P.next c t i = some d ∧ K d
      ∧ (d.locals t ≠ P.idle → rank d.shared (d.locals t) < rank c.shared (c.locals t)))
    (h : P.Reach ok c) (hK : K c) : ∃ d, P.Reach ok d ∧ K d ∧ d.locals t = P.idle := by
  induction hn : rank c.shared (c.locals t) using Nat.strongRecOn generalizing c with
  | ind n ih =>
      by_cases hidle : c.locals t = P.idle
      · exact ⟨c, h, hK, hidle⟩
      · obtain ⟨i, d, hok, hnext, hd, hrank⟩ := hstep h hK hidle
        by_cases hbusy : d.locals t = P.idle
        · exact ⟨d, h.step hok hnext, hd, hbusy⟩
        · exact ih _ (hn ▸ hrank hbusy) (h.step hok hnext) hd rfl

variable {β : Type} {made : Tid → List ε → List β}

/-- When each call can be made from where `K` holds, and then `K` holds again, the calls of the
threads below `T` can all be made. -/
theorem exists_made {T : Nat} (hinit : K P.init) (hnil : ∀ u, made u [] = [])
    (hcall : ∀ {c t b}, t < T → P.Reach ok c → K c → ∃ d, P.Reach ok d ∧ K d
      ∧ ∀ u, made u d.history = made u c.history ++ if u = t then [b] else [])
    (calls : Tid → List β) : ∃ c, P.Reach ok c ∧ K c
      ∧ ∀ u, made u c.history = if u < T then calls u else [] := by
  -- First the calls of one thread.
  have hcalls : ∀ t, t < T → ∀ (bs : List β) {c}, P.Reach ok c → K c → ∃ d, P.Reach ok d ∧ K d
      ∧ ∀ u, made u d.history = made u c.history ++ if u = t then bs else [] := by
    intro t ht bs
    induction bs with
    | nil => exact fun {c} h hK => ⟨c, h, hK, fun u => by simp⟩
    | cons b bs ih =>
        intro c h hK
        obtain ⟨d, hd, hKd, hmade⟩ := hcall (b := b) ht h hK
        obtain ⟨e, he, hKe, hmade'⟩ := ih hd hKd
        refine ⟨e, he, hKe, fun u => ?_⟩
        rw [hmade', hmade]
        split <;> simp
  have hall : ∀ n, n ≤ T → ∃ c, P.Reach ok c ∧ K c
      ∧ ∀ u, made u c.history = if u < n then calls u else [] := by
    intro n
    induction n with
    | zero => exact fun _ => ⟨P.init, .init, hinit, fun u => by simpa [init] using hnil u⟩
    | succ n ih =>
        intro hn
        obtain ⟨c, hc, hKc, hmade⟩ := ih (Nat.le_of_succ_le hn)
        obtain ⟨d, hd, hKd, hmade'⟩ := hcalls n hn (calls n) hc hKc
        refine ⟨d, hd, hKd, fun u => ?_⟩
        rw [hmade', hmade]
        rcases Nat.lt_trichotomy u n with hlt | rfl | hgt
        · simp [hlt, Nat.ne_of_lt hlt, Nat.lt_succ_of_lt hlt]
        · simp
        · have hnot : ¬ u < n + 1 := Nat.not_lt.mpr hgt
          simp [Nat.ne_of_gt hgt, Nat.lt_asymm hgt, hnot]
  exact hall T (Nat.le_refl T)

end Alone

/-! ### One thread from the start -/

/-- From `l` in the memory `g`, steps of thread `t` under the input `i` lead to `l'` in `g'`, and
their events are `es`. -/
inductive Steps (P : Program σ κ ι ε) (t : Tid) (i : ι) : σ → κ → List ε → σ → κ → Prop
  | refl {g : σ} {l : κ} : Steps P t i g l [] g l
  | step {g g₁ g' : σ} {l l₁ l' : κ} {es es' : List ε} (hstep : P.step t i g l = some (g₁, l₁, es))
      (h : Steps P t i g₁ l₁ es' g' l') : Steps P t i g l (es ++ es') g' l'

section Steps

variable {g g₁ g' : σ} {l l₁ l' : κ} {i : ι} {e : ε} {es es' : List ε}

/-- A step without an event. -/
theorem Steps.silent (hstep : P.step t i g l = some (g₁, l₁, []))
    (h : P.Steps t i g₁ l₁ es g' l') : P.Steps t i g l es g' l' :=
  .step hstep h

/-- A step with one event. -/
theorem Steps.emit (hstep : P.step t i g l = some (g₁, l₁, [e]))
    (h : P.Steps t i g₁ l₁ es g' l') : P.Steps t i g l (e :: es) g' l' :=
  .step hstep h

theorem Steps.trans (h : P.Steps t i g l es g₁ l₁) (h' : P.Steps t i g₁ l₁ es' g' l') :
    P.Steps t i g l (es ++ es') g' l' := by
  induction h with
  | refl => exact h'
  | step hstep _ ih =>
      rw [List.append_assoc]
      exact .step hstep (ih h')

theorem Reach.steps {ok : Config σ κ ε → Tid → ι → Prop} (h : P.Reach ok c) (hok : ∀ d, ok d t i)
    (hl : c.locals t = l) (hsteps : P.Steps t i c.shared l es g' l') :
    P.Reach ok ⟨g', Function.update c.locals t l', c.history ++ es⟩ := by
  generalize hg : c.shared = g at hsteps
  induction hsteps generalizing c with
  | refl =>
      subst hl hg
      rwa [Function.update_eq_self, List.append_nil]
  | step hstep _ ih =>
      subst hl hg
      have hreach := ih (h.snoc (hok c) hstep) (Function.update_self ..) rfl
      rwa [Function.update_idem, List.append_assoc] at hreach

end Steps

section First

variable {caller : ε → Option Tid} {i : ι} {N j : Nat} {ok : Config σ κ ε → Tid → ι → Prop}
  {c' : Config σ κ ε} {g : σ} {l : κ} {es : List ε}

/-- The first thread has made `j` calls, and the others none. -/
structure Alone (P : Program σ κ ι ε) (ok : Config σ κ ε → Tid → ι → Prop) (caller : ε → Option Tid)
    (j : Nat) (c : Config σ κ ε) : Prop where
  reach : P.Reach ok c
  others : ∀ u, u ≠ 0 → c.locals u = P.idle
  count : ∀ u, c.history.countP (caller · = some u) = if u = 0 then j else 0

theorem Alone.init : P.Alone ok caller 0 P.init :=
  ⟨.init, fun _ _ => rfl, fun _ => by simp [Program.init]⟩

theorem Alone.idle (h : P.Alone ok caller j c) (hidle : c.locals 0 = P.idle) (u : Tid) :
    c.locals u = P.idle := by
  by_cases hu : u = 0
  · exact hu ▸ hidle
  · exact h.others u hu

theorem Alone.snoc (h : P.Alone ok caller j c) (hok : ok c 0 i) {k : Nat}
    (hstep : P.step 0 i c.shared (c.locals 0) = some (g, l, es))
    (hcount : ∀ u, es.countP (caller · = some u) = if u = 0 then k else 0) :
    P.Alone ok caller (j + k) ⟨g, Function.update c.locals 0 l, c.history ++ es⟩ := by
  refine ⟨h.reach.snoc hok hstep, fun u hu => by simpa [hu] using h.others u hu, fun u => ?_⟩
  rw [List.countP_append, h.count, hcount]
  split <;> rfl

/-- Steps inside a call. -/
theorem Alone.steps (h : P.Alone ok caller j c) (hok : ∀ d, ok d 0 i) (hl : c.locals 0 = l)
    {g' : σ} {l' : κ} (hsteps : P.Steps 0 i c.shared l es g' l')
    (hquiet : ∀ e ∈ es, caller e = none) :
    P.Alone ok caller j ⟨g', Function.update c.locals 0 l', c.history ++ es⟩ := by
  refine ⟨h.reach.steps hok hl hsteps, fun u hu => by simpa [hu] using h.others u hu, fun u => ?_⟩
  have hnone : es.countP (caller · = some u) = 0 :=
    List.countP_eq_zero.mpr fun e he => by simp [hquiet e he]
  rw [List.countP_append, h.count, hnone, Nat.add_zero]

/-- A program that serves the first thread's calls comes to have served them all in a run that
allows them, and then no thread is inside a call. -/
theorem Serves.exists_alone {I : σ → κ → Prop}
    (hserves : P.Serves allowed (List.replicate N (0, i)) Q P.init)
    (hcall : ∀ {c}, (∀ u, c.locals u = P.idle) → c.history.countP (caller · = some 0) < N →
      (∀ u, u ≠ 0 → c.history.countP (caller · = some u) = 0) → ok c 0 i)
    (hbusy : ∀ {c j}, c.locals 0 ≠ P.idle → ok c 0 j)
    (hcaller : ∀ {g g' l es}, P.step 0 i g P.idle = some (g', l, es) → es.map caller = [some 0])
    (hquiet : ∀ {j g l g' l' es}, l ≠ P.idle → P.step 0 j g l = some (g', l', es) →
      ∀ e ∈ es, caller e = none)
    (hinit : I P.start P.idle)
    (hkeep : ∀ {j g l g' l' es}, (l = P.idle → j = i) → P.step 0 j g l = some (g', l', es) →
      I g l → I g' l') :
    ∃ c, P.Alone ok caller N c ∧ c.locals 0 = P.idle ∧ I c.shared P.idle ∧ Q c := by
  suffices h : ∃ c, (P.Alone ok caller N c ∧ I c.shared (c.locals 0)) ∧ c.locals 0 = P.idle
      ∧ Q c by
    obtain ⟨c, ⟨halone, hI⟩, hidle, hQ⟩ := h
    exact ⟨c, halone, hidle, hidle ▸ hI, hQ⟩
  refine hserves.run (K := fun j c => P.Alone ok caller j c ∧ I c.shared (c.locals 0))
    ?_ ?_ (Nat.zero_add N) ⟨.init, hinit⟩ rfl
  · rintro j c c' hj ⟨h, hI⟩ hidle hnext
    obtain ⟨g, l, es, hstep, rfl⟩ := next_eq_some hnext
    refine ⟨h.snoc (hcall (h.idle hidle) ?_ fun u hu => ?_) hstep fun u => ?_, ?_⟩
    · rwa [h.count, if_pos rfl]
    · rw [h.count, if_neg hu]
    · obtain ⟨e, rfl, he⟩ := List.map_eq_singleton_iff.mp (hcaller (hidle ▸ hstep))
      simp [he, eq_comm]
    · simpa using hkeep (fun _ => rfl) hstep hI
  · rintro j c i c' ⟨h, hI⟩ hinside hnext
    obtain ⟨g, l, es, hstep, rfl⟩ := next_eq_some hnext
    refine ⟨h.snoc (k := 0) (hbusy hinside) hstep fun u => ?_, ?_⟩
    · have hnone := hquiet hinside hstep
      split
      all_goals exact List.countP_eq_zero.mpr fun e he => by simp [hnone e he]
    · simpa using hkeep (fun hidle => absurd hidle hinside) hstep hI

end First

end Program

/-! ### Operations inside a call -/

/-- An operation on a part `s` of the memory, one step at a time under inputs `ι`, ends with a
result that `Q` admits. -/
inductive Completes (step : ι → σ → κ → σ × (κ ⊕ ρ) × List ε) (Q : σ → ρ → Prop) :
    σ → κ → Prop
  | step {s : σ} {l : κ} (hdone : ∀ i r, (step i s l).2.1 = .inr r → Q (step i s l).1 r)
      (hgoes : ∀ i l', (step i s l).2.1 = .inl l' → Completes step Q (step i s l).1 l') :
      Completes step Q s l

variable {step : ι → σ → κ → σ × (κ ⊕ ρ) × List ε} {Q : σ → ρ → Prop} {s s' : σ} {l l' : κ}

theorem Completes.mono {Q' : σ → ρ → Prop} (hle : ∀ s r, Q s r → Q' s r)
    (h : Completes step Q s l) : Completes step Q' s l := by
  induction h with
  | step hdone _ ih => exact .step (fun i r hr => hle _ _ (hdone i r hr)) ih

/-- A step whose effect the input does not matter to. -/
theorem Completes.next {es : ι → List ε} (h : ∀ i, step i s l = (s', .inl l', es i))
    (hnext : Completes step Q s' l') : Completes step Q s l := by
  refine .step (fun i r hr => ?_) fun i l'' hl => ?_
  · rw [h] at hr
    cases hr
  · rw [h] at hl ⊢
    obtain rfl := Sum.inl.inj hl
    exact hnext

/-- The last step. -/
theorem Completes.last {r : ρ} {es : ι → List ε} (h : ∀ i, step i s l = (s', .inr r, es i))
    (hQ : Q s' r) : Completes step Q s l := by
  refine .step (fun i r' hr => ?_) fun i l'' hl => ?_
  · rw [h] at hr ⊢
    obtain rfl := Sum.inr.inj hr
    exact hQ
  · rw [h] at hl
    cases hl

end Interleaving
