import QueueFairness.Proof.MSQueueMoves
import QueueFairness.Proof.MSQueueStep

/-!
# The destructor of MSQueue

A node that is allocated hangs in the list from `head` on, or one thread has it in its hands: an
enqueue that has not linked it yet, or the dequeue that has moved `head` off it. So with no call in
progress the destructor, which goes through the list, deletes what is left, and each node once.
-/

namespace QueueFairness.MSQueue

open Interleaving AtomicQueue LinkedList

variable {α : Type}

/-- The nodes from `head` on. -/
def rest (h : List (Event α)) : List Nat := (chain h).drop (passed h)

/-- The node the thread has in its hands: its own, not linked yet, or the one it has removed. -/
def Local.inHand : Local α → Option Nat
  | .enqStoreInv node _ | .enqLoadTail node | .enqLoadNext node _ | .enqCheckTail node _ _
  | .enqCasNext node _ _ | .enqRetry node | .enqHelpTail node _ _ => some node
  | .deqNowLin _ curHead _ _ _ _ | .deqDelete curHead _ => curHead.ptr
  | _ => none

/-- A node that thread `t` does not answer for when it has taken its step, somebody else did
before. -/
def Accounted (g : Shared α) (h : List (Event α)) (l : Local α) (g' : Shared α)
    (es : List (Event α)) (l' : Local α) : Prop :=
  ∀ n, g'.status n = .allocated → n ∉ rest (h ++ es) → l'.inHand ≠ some n →
    g.status n = .allocated ∧ n ∉ rest h ∧ l.inHand ≠ some n

section Steps

variable {t : Tid} {i : Input α} {g g' : Shared α} {h es : List (Event α)} {l l' : Local α}

theorem rest_append (nodes : List Nat) (moves : List (Tid × Nat))
    (hlink : es.filterMap linkedNode = nodes) (hunlink : es.filterMap unlinkedNode = moves) :
    rest (h ++ es) = (chain h ++ nodes).drop (passed h + moves.length) := by
  rw [rest, passed, chain_append, unlinked_append, hlink, hunlink, List.length_append, passed]

theorem rest_quiet (hes : Quiet es) : rest (h ++ es) = rest h := by
  rw [rest_append [] [] hes.link hes.unlink, List.append_nil, List.length_nil, Nat.add_zero, rest]

theorem accounted_quiet (hstatus : g'.status = g.status) (hes : Quiet es)
    (hsame : l'.inHand = l.inHand) : Accounted g h l g' es l' := by
  intro n hn hrest hhand
  rw [hstatus] at hn
  rw [rest_quiet hes] at hrest
  exact ⟨hn, hrest, hsame ▸ hhand⟩

theorem move_accounted (hw : Glob ⟨(), g, h⟩) (hmove : Move t i g l g' l' es) :
    Accounted g h l g' es l' := by
  cases hmove with
  | enqNew hfree =>
      intro n hn hrest hhand
      have hne : n ≠ i.addr := fun heq => hhand (congrArg some heq.symm)
      have hsame : rest (h ++ [.alloc t i.addr]) = rest h := by
        rw [rest_append [] [] rfl rfl, List.append_nil, List.length_nil, Nat.add_zero, rest]
      refine ⟨by simpa [hne] using hn, fun hmem => hrest ?_, by simp [Local.inHand]⟩
      rwa [hsame]
  | @link node n curTail next hn hcas =>
      -- The node has come into the list.
      intro m hm hrest _
      have hle : passed h ≤ (chain h).length := by
        obtain ⟨_, -, hat⟩ := hw.head
        exact Nat.le_of_lt (List.getElem?_eq_some_iff.mp hat).1
      have hgrown : rest (h ++ [.link t node, .act (.effect t (.enqueue (g.heap node).value)
          .enqueued)]) = rest h ++ [node] := by
        rw [rest_append [node] [] rfl rfl]
        exact List.drop_append_of_le_length hle
      rw [hgrown, List.mem_append, not_or] at hrest
      refine ⟨hm, hrest.1, fun hhand => hrest.2 ?_⟩
      exact List.mem_singleton.mpr (Option.some.inj hhand).symm
  | @unlink inv n curHead next value ei el hn hcas =>
      -- The first node is in the thread's hands now.
      obtain ⟨m, hm, hat⟩ := hw.head
      obtain rfl : m = n := Option.some.inj (hm.symm.trans (hcas ▸ hn))
      intro k hk hrest hhand
      obtain ⟨hlt, hget⟩ := List.getElem?_eq_some_iff.mp hat
      have hcons : rest h = m :: rest (h ++ [.unlink t m, .act (.effect t .dequeue
          (.dequeued true (some value)))]) := by
        have hnext : rest (h ++ [.unlink t m, .act (.effect t .dequeue
            (.dequeued true (some value)))]) = (chain h).drop (passed h + 1) := by
          rw [rest_append [] [(t, m)] rfl rfl, List.append_nil, List.length_singleton]
        rw [hnext, rest, List.drop_eq_getElem_cons hlt, hget]
      refine ⟨hk, ?_, by simp [Local.inHand]⟩
      rw [hcons, List.mem_cons, not_or]
      exact ⟨fun heq => hhand (hn.trans (congrArg some heq.symm)), hrest⟩
  | @deqDelete n curHead value hn =>
      intro m hm hrest _
      have hmn : m ≠ n := fun heq => by simp [heq] at hm
      refine ⟨by simpa [hmn] using hm, rest_quiet (quiet_act _) ▸ hrest, fun hhand => hmn ?_⟩
      exact Option.some.inj (hhand.symm.trans hn)
  | enqStoreLin | deqReadValue | deqNowLin => exact accounted_quiet rfl ⟨rfl, rfl, by simp⟩ rfl
  | callEnqueue | callDequeue | deqEmpty => exact accounted_quiet rfl (quiet_act _) rfl
  | enqHelpTail | deqHelpTail => exact accounted_quiet (by simp) quiet_nil rfl
  | enqSwingTail => exact accounted_quiet (by simp) (quiet_act _) rfl
  | _ => exact accounted_quiet rfl quiet_nil rfl

end Steps

section Runs

variable [Inhabited α] {c : Config (Shared α) (Local α) (Event α)}

/-- **No node is lost.** In every run an allocated node is in the list from `head` on or in the
hands of a thread. -/
theorem Reach.accounted (h : (program α).Reachable c) {n : Nat}
    (hn : c.shared.status n = .allocated) :
    n ∈ rest c.history ∨ ∃ t, (c.locals t).inHand = some n := by
  induction h with
  | init =>
      by_cases hdummy : n = dummyNode
      · exact .inl (by simp [hdummy, rest, passed, chain, unlinked, Program.init])
      · simp [program, Program.init, hdummy] at hn
  | @step c _ t i hreach _ hnext ih =>
      obtain ⟨g, l, es, hstep, rfl⟩ := Program.next_eq_some hnext
      obtain ⟨hw, -⟩ := Reach.list hreach
      have haccounted := move_accounted hw (step_move hstep) n hn
      by_cases hrest : n ∈ rest (c.history ++ es)
      · exact .inl hrest
      · refine .inr ?_
        by_cases hhand : l.inHand = some n
        · exact ⟨t, by simpa using hhand⟩
        · obtain ⟨hold, hrest', hhand'⟩ := haccounted hrest hhand
          obtain ⟨u, hu⟩ := (ih hold).resolve_left hrest'
          have hut : u ≠ t := fun heq => hhand' (heq ▸ hu)
          exact ⟨u, by simpa [hut] using hu⟩

omit [Inhabited α] in
/-- The loop goes through the list. -/
theorem destroy_path {heap : Nat → MSNode α} {p : Option Nat} {nodes : List Nat}
    (hpath : Path (fun n => (heap n).next.ptr) p nodes) :
    ∀ {cur : MSPointer} {status : Nat → Status}, cur.ptr = p → nodes.Nodup →
      (∀ n ∈ nodes, status n = .allocated) →
      destroy heap (nodes.length + 1) cur status = deleteAll status nodes := by
  induction hpath with
  | nil =>
      intro cur status hcur _ _
      simp [destroy, deleteAll, hcur]
  | @cons n nodes _ ih =>
      intro cur status hcur hnodup hall
      obtain ⟨hn, hnodup⟩ := List.nodup_cons.mp hnodup
      have hstatus := hall n List.mem_cons_self
      have hrest : ∀ m ∈ nodes, Function.update status n .deleted m = .allocated := by
        intro m hm
        have hmn : m ≠ n := fun heq => hn (heq ▸ hm)
        rw [Function.update_of_ne hmn]
        exact hall m (List.mem_cons_of_mem n hm)
      rw [List.length_cons, destroy, hcur]
      simp only [hstatus, if_true, deleteAll]
      exact ih rfl hnodup hrest

/-- **The destructor frees every node, and each once.** In every configuration that is reached and
has no call in progress, the loop of the destructor ends, reads and deletes allocated nodes only,
and leaves none. -/
theorem destructor_frees_nodes (h : (program α).Reachable c) (hidle : ∀ t, c.locals t = .idle) :
    ∃ fuel status, destroy c.shared.heap fuel c.shared.head c.shared.status = some status
      ∧ ∀ n, status n ≠ .allocated := by
  obtain ⟨hw, -⟩ := Reach.list h
  obtain ⟨m, hptr, hat⟩ := hw.head
  have hpath : Path (nextPtr c.shared) c.shared.head.ptr (rest c.history) := by
    have hdrop := hw.linked.path (passed c.history)
    rwa [hat, ← hptr] at hdrop
  have hnodup : (rest c.history).Nodup := (List.drop_sublist _ _).nodup hw.linked.nodup
  have hlive : ∀ n ∈ rest c.history, c.shared.status n = .allocated := by
    intro n hn
    obtain ⟨k, hk⟩ := List.mem_iff_getElem?.mp hn
    rw [rest, List.getElem?_drop] at hk
    exact hw.live (Nat.le_add_right ..) hk
  refine ⟨_, _, (destroy_path hpath rfl hnodup hlive).trans (deleteAll_eq_some hnodup hlive), ?_⟩
  intro n hn
  by_cases hin : n ∈ rest c.history
  · simp [hin] at hn
  · have hstatus : c.shared.status n = .allocated := by simpa [hin] using hn
    obtain ⟨t, ht⟩ := (Reach.accounted h hstatus).resolve_left hin
    rw [hidle t] at ht
    cases ht

/-- One thread enqueues 7 and 8 and dequeues one of them. -/
def leftoverSchedule : List (Tid × Input Nat) :=
  List.replicate 11 (0, { op := some (.enqueue 7), addr := 1 })
    ++ List.replicate 11 (0, { op := some (.enqueue 8), addr := 2 })
    ++ List.replicate 12 (0, { op := some .dequeue })

theorem destructor_frees_nodes_leftover : ∃ c, (program Nat).Reachable c
    ∧ ([0, 1, 2].map c.shared.status, c.shared.head.ptr)
      = ([.deleted, .allocated, .allocated], some 1)
    ∧ ∃ fuel status, destroy c.shared.heap fuel c.shared.head c.shared.status = some status
      ∧ ∀ n, status n ≠ .allocated := by
  have hrun : ((program Nat).execIf 1 (fun _ t _ => t == 0) (program Nat).init leftoverSchedule).map
      (fun c => (([0, 1, 2].map c.shared.status, c.shared.head.ptr), c.locals 0 matches .idle))
      = some (([.deleted, .allocated, .allocated], some 1), true) := by
    decide
  obtain ⟨c, hexec, heq⟩ := Option.map_eq_some_iff.mp hrun
  obtain ⟨hstatus, hidle₀⟩ := Prod.mk.inj heq
  have hreach : (program Nat).Reachable c :=
    .execIf (fun _ _ _ _ _ => trivial) .init (fun _ _ => rfl) hexec
  have hidle : ∀ t, c.locals t = .idle := fun t => by
    by_cases ht : t = 0
    · subst ht
      generalize c.locals 0 = l at hidle₀
      cases l <;> first | rfl | cases hidle₀
    · exact Program.execIf_idle (fun _ _ => rfl) hexec t (Nat.one_le_iff_ne_zero.mpr ht)
  exact ⟨c, hreach, hstatus, destructor_frees_nodes hreach hidle⟩

end Runs

end QueueFairness.MSQueue
