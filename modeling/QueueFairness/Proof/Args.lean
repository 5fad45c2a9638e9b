import QueueFairness.Args

/-!
# What the options are

Of the arguments that set an option the last one counts, and without one there is a default.
-/

namespace QueueFairness.Args

open FairnessLogger (int)

variable {prog arg : String} {args : List String} {opts opts' : Options} {α : Type}

/-- The value that the last argument which gives one gives. -/
def setting (f : Arg → Option α) (default : α) (args : List String) : α :=
  args.foldl (fun val arg => (f (.of arg)).getD val) default

def queueArg : Arg → Option (List String)
  | .queue val => some (if val = "all".toList then allQueues else splitCsv val)
  | _ => none

def trialsArg : Arg → Option Int
  | .trials val => stoi val
  | _ => none

def opsArg : Arg → Option Int
  | .ops val => stoi val
  | _ => none

def threadsArg : Arg → Option Int
  | .threads val => stoi val
  | _ => none

theorem parseArg_spec (h : parseArg prog opts arg = .ok opts') :
    opts'.queues = (queueArg (.of arg)).getD opts.queues
      ∧ opts'.trials = (trialsArg (.of arg)).getD opts.trials
      ∧ opts'.ops = (opsArg (.of arg)).getD opts.ops
      ∧ opts'.maxThreads = (threadsArg (.of arg)).getD opts.maxThreads := by
  unfold parseArg at h
  split at h
  · rename_i val heq
    cases h
    simp [heq, queueArg, trialsArg, opsArg, threadsArg]
  · rename_i val heq
    split at h <;> cases h
    simp_all [queueArg, trialsArg, opsArg, threadsArg]
  · rename_i val heq
    split at h <;> cases h
    simp_all [queueArg, trialsArg, opsArg, threadsArg]
  · rename_i val heq
    split at h <;> cases h
    simp_all [queueArg, trialsArg, opsArg, threadsArg]
  · cases h
  · cases h

theorem foldlM_spec (h : args.foldlM (parseArg prog) opts = .ok opts') :
    opts'.queues = setting queueArg opts.queues args
      ∧ opts'.trials = setting trialsArg opts.trials args
      ∧ opts'.ops = setting opsArg opts.ops args
      ∧ opts'.maxThreads = setting threadsArg opts.maxThreads args := by
  induction args generalizing opts with
  | nil =>
      cases h
      exact ⟨rfl, rfl, rfl, rfl⟩
  | cons arg args ih =>
      rw [List.foldlM_cons] at h
      cases harg : parseArg prog opts arg with
      | error e =>
          rw [harg] at h
          cases h
      | ok opts₁ =>
          rw [harg] at h
          obtain ⟨hqueues, htrials, hops, hthreads⟩ := parseArg_spec harg
          obtain ⟨hqueues', htrials', hops', hthreads'⟩ := ih h
          refine ⟨hqueues'.trans ?_, htrials'.trans ?_, hops'.trans ?_, hthreads'.trans ?_⟩
          · rw [hqueues]
            rfl
          · rw [htrials]
            rfl
          · rw [hops]
            rfl
          · rw [hthreads]
            rfl

/-- The queues that are named last, or all. -/
def queuesOf (args : List String) : List String :=
  if setting queueArg [] args = [] then allQueues else setting queueArg [] args

/-- The number of trials that is given last. -/
def trialsOf : List String → Int := setting trialsArg 100

/-- The number of operations that is given last. -/
def opsOf : List String → Int := setting opsArg 10000

/-- The number of threads that is given last. -/
def threadsOf : List String → Int := setting threadsArg 16

/-- **What the options are.** -/
theorem parseArgs_spec (h : parseArgs prog args = .ok opts) :
    opts.queues = queuesOf args ∧ opts.trials = trialsOf args ∧ opts.ops = opsOf args
      ∧ opts.maxThreads = threadsOf args := by
  unfold parseArgs at h
  cases hfold : args.foldlM (parseArg prog) {} with
  | error e =>
      rw [hfold] at h
      cases h
  | ok opts₁ =>
      rw [hfold] at h
      obtain ⟨hqueues, htrials, hops, hthreads⟩ := foldlM_spec hfold
      obtain rfl : _ = opts := Except.ok.inj h
      change _ = setting queueArg [] args at hqueues
      unfold queuesOf
      rw [← hqueues]
      split <;> exact ⟨rfl, htrials, hops, hthreads⟩

/-- What is given is an `int`. -/
theorem threadsOf_lt (args : List String) : threadsOf args < 2 ^ 31 := by
  have hint : ∀ {x y : Int}, int x = some y → y < 2 ^ 31 := fun {x y} h => by
    unfold int at h
    split at h
    · rename_i hx
      exact Option.some.inj h ▸ hx.2
    · cases h
  have hstoi : ∀ {val n}, stoi val = some n → n < 2 ^ 31 := fun {val n} h => by
    unfold stoi at h
    split at h <;> obtain ⟨x, -, hx⟩ := Option.bind_eq_some_iff.mp h <;> exact hint hx
  have harg : ∀ arg n, threadsArg arg = some n → n < 2 ^ 31 := fun arg n h => by
    cases arg with
    | threads val => exact hstoi h
    | _ => cases h
  have hfold : ∀ n < 2 ^ 31, setting threadsArg n args < 2 ^ 31 := by
    induction args with
    | nil => exact fun n hn => hn
    | cons arg args ih =>
        intro n hn
        refine ih ((threadsArg (.of arg)).getD n) ?_
        cases hthreads : threadsArg (.of arg) with
        | none => exact hn
        | some m => exact harg _ m hthreads
  exact hfold 16 (by decide)

end QueueFairness.Args
