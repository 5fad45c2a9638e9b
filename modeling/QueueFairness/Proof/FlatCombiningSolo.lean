import QueueFairness.Lib.CoveredCalls
import QueueFairness.Lib.Solo
import QueueFairness.Proof.FlatCombining

/-!
# A thread of the flat combining queue that is alone

When no one else is inside a call, the lock is free or the thread's own. It takes the lock at the
first try, serves the slots one after another, of which only its own carries a request, and returns.
-/

namespace QueueFairness.FlatCombiningQueue

open Interleaving AtomicQueue

variable {α : Type}

/-- The steps to the end of the call once the slots from `i` on are served. -/
def afterSlot (numThreads i : Nat) : Nat := (numThreads - (i + 1)) * 12 + 9

def Scan.left (numThreads : Nat) : Scan α → Nat
  | .loadOpcode i => afterSlot numThreads i + 12
  | .copyValue i | .testEmpty i => afterSlot numThreads i + 11
  | .copyEnqInv i _ | .front i => afterSlot numThreads i + 10
  | .copyRest i _ _ | .nowDeqLin i _ => afterSlot numThreads i + 9
  | .nowEnqLin i _ | .pop i _ _ => afterSlot numThreads i + 8
  | .push i _ | .storeValue i _ _ => afterSlot numThreads i + 7
  | .storeEnqInv i _ _ => afterSlot numThreads i + 6
  | .storeEnqLin i _ _ => afterSlot numThreads i + 5
  | .storeDeqLin i _ => afterSlot numThreads i + 4
  | .storeSuccess i _ => afterSlot numThreads i + 3
  | .storeDone i => afterSlot numThreads i + 2
  | .unlock => 9

/-- The steps that a thread takes to the end of its call when it is alone are bounded by this. -/
def Local.left (numThreads : Nat) : Local α → Nat
  | .idle => 0
  | .nowInv _ => numThreads * 12 + 15
  | .clearValue _ => numThreads * 12 + 14
  | .storeEnqInv _ _ | .clearSuccess _ => numThreads * 12 + 13
  | .storeItem _ | .storeDeqInv _ => numThreads * 12 + 12
  | .publishEnqueue _ | .publishDequeue | .loadDone _ => numThreads * 12 + 11
  | .tryLock _ => numThreads * 12 + 10
  | .combine _ scan => scan.left numThreads
  | .readSuccess => 8
  | .readValue => 7
  | .readEnqInv _ => 6
  | .readEnqLin _ _ => 5
  | .readDeqInv _ _ _ => 4
  | .logRecord _ _ _ _ => 3
  | .returnSuccess _ => 1

/-- Nothing stands in the way of the thread. -/
def Free (g : Shared α) : Local α → Prop
  | .combine _ (.front _) => g.q ≠ []
  | .combine _ _ => True
  | _ => g.lock = none

section Steps

variable {numThreads i ts : Nat} {t : Tid} {g g' : Shared α} {op : Op α} {scan scan' : Scan α}
  {l l' : Local α} {es : List (Event α)}

theorem left_at : (Scan.at numThreads i : Scan α).left numThreads = (numThreads - i) * 12 + 9 := by
  unfold Scan.at
  split
  · simp only [Scan.left, afterSlot]
    omega
  · simp only [Scan.left]
    omega

theorem free_at : Free g (.combine op (.at numThreads i)) := by
  unfold Scan.at
  split <;> trivial

/-- A combiner is not blocked. -/
theorem scanStep_isSome (hscan : scan ≠ .unlock) (hfree : Free g (.combine op scan)) :
    (scanStep numThreads g.clock g scan).isSome := by
  cases scan with
  | unlock => exact absurd rfl hscan
  | loadOpcode | testEmpty =>
      simp only [scanStep]
      split <;> rfl
  | front i =>
      obtain ⟨n, q, hq⟩ := List.exists_cons_of_ne_nil hfree
      simp [scanStep, hq]
  | nowEnqLin | nowDeqLin => simp [scanStep]
  | _ => rfl

/-- The combiner comes nearer to the release of the lock. -/
theorem scanStep_left (hstep : scanStep numThreads ts g scan = some (g', scan', es)) :
    Free g' (.combine op scan') ∧ scan'.left numThreads < scan.left numThreads
      ∧ ∀ u, callsOf u (acts es) = [] := by
  have hat :
      ∀ i, (Scan.at numThreads (i + 1) : Scan α).left numThreads < afterSlot numThreads i + 2 :=
    fun i => by
      rw [left_at, afterSlot]
      omega
  cases scan with
  | unlock => cases hstep
  | loadOpcode i =>
      simp only [scanStep] at hstep
      split at hstep <;> cases hstep
      · exact ⟨trivial, by simp [Scan.left], fun _ => rfl⟩
      · exact ⟨trivial, by simp [Scan.left], fun _ => rfl⟩
      · exact ⟨free_at, Nat.lt_trans (hat i) (by simp [Scan.left]), fun _ => rfl⟩
  | testEmpty i =>
      simp only [scanStep] at hstep
      split at hstep <;> cases hstep
      · exact ⟨trivial, by simp [Scan.left], fun _ => rfl⟩
      · rename_i hq
        exact ⟨ne_of_eq_of_ne hq (List.cons_ne_nil _ _), by simp [Scan.left], fun _ => rfl⟩
  | front i =>
      simp only [scanStep] at hstep
      split at hstep <;> cases hstep
      exact ⟨trivial, by simp [Scan.left], fun _ => rfl⟩
  | nowEnqLin | nowDeqLin =>
      simp only [scanStep] at hstep
      split at hstep <;> cases hstep
      exact ⟨trivial, by simp [Scan.left], fun _ => rfl⟩
  | storeDone i =>
      cases hstep
      exact ⟨free_at, hat i, fun _ => rfl⟩
  | _ =>
      cases hstep
      exact ⟨trivial, by simp [Scan.left], fun _ => rfl⟩

variable (numThreads) in
/-- After the release of the lock. -/
theorem afterApply_left (hlock : g.lock = none) (heq : afterApply t op = (l', es)) :
    Free g l' ∧ l'.left numThreads < 9 ∧ ∀ u, callsOf u (acts es) = [] := by
  cases op <;> cases heq <;> exact ⟨hlock, by simp [Local.left], fun _ => rfl⟩

variable [Inhabited α]

/-- A thread in a call is not blocked. -/
theorem step_isSome (hbusy : l ≠ .idle) (hfree : Free g l) :
    (step numThreads t { ts := g.clock } g l).isSome := by
  cases l with
  | idle => exact absurd rfl hbusy
  | nowInv op => cases op <;> simp [step]
  | tryLock | loadDone | readSuccess =>
      simp only [step]
      split <;> rfl
  | combine op scan =>
      by_cases hscan : scan = .unlock
      · subst hscan
        rfl
      · rw [step_combine hscan, Option.isSome_map]
        exact scanStep_isSome hscan hfree
  | _ => rfl

/-- The thread comes nearer to the end of its call. -/
theorem step_left {i : Input α} (hfail : i.fail = false) (hbusy : l ≠ .idle) (hfree : Free g l)
    (hstep : step numThreads t i g l = some (g', l', es)) :
    Free g' l' ∧ l'.left numThreads < l.left numThreads ∧ ∀ u, callsOf u (acts es) = [] := by
  cases l with
  | idle => exact absurd rfl hbusy
  | nowInv op =>
      simp only [step] at hstep
      split at hstep
      · cases op <;> cases hstep <;> exact ⟨hfree, by simp [Local.left], fun _ => rfl⟩
      · cases hstep
  | tryLock op =>
      simp only [step] at hstep
      rw [if_pos ⟨hfree, hfail⟩] at hstep
      cases hstep
      refine ⟨free_at, ?_, fun _ => rfl⟩
      rw [Local.left, Local.left, left_at]
      omega
  | loadDone op =>
      simp only [step] at hstep
      split at hstep
      · simp only [Option.some.injEq, Prod.mk.injEq] at hstep
        obtain ⟨rfl, heq⟩ := hstep
        obtain ⟨hfree', hleft, hcalls⟩ := afterApply_left numThreads hfree heq
        exact ⟨hfree', Nat.lt_of_lt_of_le hleft (by simp only [Local.left]; omega), hcalls⟩
      · cases hstep
        exact ⟨hfree, by simp [Local.left], fun _ => rfl⟩
  | combine op scan =>
      by_cases hscan : scan = .unlock
      · subst hscan
        simp only [step, Option.some.injEq, Prod.mk.injEq] at hstep
        obtain ⟨rfl, heq⟩ := hstep
        exact afterApply_left numThreads rfl heq
      · rw [step_combine hscan] at hstep
        obtain ⟨⟨g', scan', es⟩, hscanStep, heq⟩ := Option.map_eq_some_iff.mp hstep
        cases heq
        exact scanStep_left hscanStep
  | readSuccess =>
      simp only [step] at hstep
      split at hstep <;> cases hstep <;> exact ⟨hfree, by simp [Local.left], fun _ => rfl⟩
  | _ =>
      cases hstep
      exact ⟨hfree, by simp [Local.left], fun _ => rfl⟩

end Steps

section Results

variable [Inhabited α] {numThreads : Nat} {t : Tid} {c d : Config (Shared α) (Local α) (Event α)}

/-- Since `c` only thread `t` has taken steps, it has made no call, and nothing stands in its
way. -/
structure Goes (t : Tid) (c d : Config (Shared α) (Local α) (Event α)) : Prop where
  others : ∀ u, u ≠ t → d.locals u = c.locals u
  calls : ∀ u, callsOf u (acts d.history) = callsOf u (acts c.history)
  free : Free d.shared (d.locals t)

/-- No thread is inside a call. -/
structure Rests (c : Config (Shared α) (Local α) (Event α)) : Prop where
  idle : ∀ u, c.locals u = .idle
  lock : c.shared.lock = none

/-- **Alone a thread comes to the end of its call.** -/
theorem Reach.exists_returned (h : (program α numThreads).Reachable c)
    (hfree : Free c.shared (c.locals t)) :
    ∃ d, (program α numThreads).Reachable d ∧ Goes t c d ∧ d.locals t = .idle := by
  refine h.exists_idle (fun _ => Local.left numThreads) (fun {e} _ hgoes hbusy => ?_)
    ⟨fun _ _ => rfl, fun _ => rfl, hfree⟩
  have hsome : (step numThreads t { ts := e.shared.clock } e.shared (e.locals t)).isSome :=
    step_isSome hbusy hgoes.free
  obtain ⟨⟨g, l, es⟩, hstep⟩ := Option.isSome_iff_exists.mp hsome
  obtain ⟨hfree', hleft, hcalls⟩ := step_left rfl hbusy hgoes.free hstep
  have hnext : (program α numThreads).next e t { ts := e.shared.clock }
      = some ⟨g, Function.update e.locals t l, e.history ++ es⟩ := by
    rw [Program.next]
    exact congrArg (Option.map _) hstep
  have hlocal : Function.update e.locals t l t = l := Function.update_self ..
  refine ⟨_, _, trivial, hnext, ⟨fun u hu => ?_, fun u => ?_, ?_⟩, fun _ => ?_⟩
  · exact (Function.update_of_ne hu ..).trans (hgoes.others u hu)
  · change callsOf u (acts (e.history ++ es)) = _
    rw [acts, List.filterMap_append, callsOf_append]
    exact (congrArg₂ (· ++ ·) (hgoes.calls u) (hcalls u)).trans (List.append_nil _)
  · simpa only [hlocal] using hfree'
  · simpa only [hlocal] using hleft

/-- **The threads can come to the ends of whatever calls they are to make.** -/
theorem exists_calls (calls : Tid → List (Op α)) : ∃ c, (program α numThreads).Reachable c
    ∧ (∀ u, c.locals u = .idle)
    ∧ ∀ u, callsOf u (acts c.history) = if u < numThreads then calls u else [] := by
  let made (u : Tid) (history : List (Event α)) : List (Op α) := callsOf u (acts history)
  have hcall : ∀ {c t op}, t < numThreads → (program α numThreads).Reachable c → Rests c →
      ∃ d, (program α numThreads).Reachable d ∧ Rests d
        ∧ ∀ u, made u d.history = made u c.history ++ if u = t then [op] else [] := by
    intro c t op ht hc ⟨hidle, hlock⟩
    have hstep : step numThreads t { op := some op } c.shared (c.locals t)
        = some (c.shared, .nowInv op, [.act (.call t op)]) := by
      rw [hidle t]
      exact if_pos ht
    have hreach := hc.snoc trivial hstep
    have hlocal : Function.update c.locals t (.nowInv op) t = .nowInv op := Function.update_self ..
    have hfree : Free c.shared (Function.update c.locals t (.nowInv op) t) := by
      rw [hlocal]
      exact hlock
    obtain ⟨d, hd, hgoes, hreturned⟩ := Reach.exists_returned hreach hfree
    refine ⟨d, hd, ⟨fun u => ?_, ?_⟩, fun u => ?_⟩
    · by_cases hu : u = t
      · exact hu ▸ hreturned
      · exact (hgoes.others u hu).trans ((Function.update_of_ne hu ..).trans (hidle u))
    · have hfree := hgoes.free
      rwa [hreturned] at hfree
    · refine (hgoes.calls u).trans ?_
      rw [acts, List.filterMap_append, callsOf_append]
      refine congrArg (callsOf u (acts c.history) ++ ·) ?_
      by_cases hu : u = t
      · simp [callsOf, hu]
      · simp [callsOf, hu, Ne.symm hu]
  obtain ⟨c, hc, hrests, hmade⟩ := Program.exists_made (K := Rests) ⟨fun _ => rfl, rfl⟩
    (fun _ => rfl) hcall calls
  exact ⟨c, hc, hrests.idle, hmade⟩

end Results

end QueueFairness.FlatCombiningQueue
