import QueueFairness.Proof.MSQueueStep

/-!
# MSQueue is linearizable

The queue holds the values of the nodes behind `head`. An enqueue takes effect when its node is
linked, a successful dequeue when it moves `head`. A dequeue that reads a null `next` has seen the
last node, on which `head` then stands: the queue is empty at that moment, and the dequeue is placed
there. When it goes on to find that `head` has moved, that effect is taken back.
-/

namespace QueueFairness.MSQueue

open Interleaving AtomicQueue LinkedList

variable {α : Type}

/-- The values of the nodes behind `head`. -/
def items (g : Shared α) (history : List (Event α)) : List α :=
  ((chain history).drop (passed history + 1)).map fun n => (g.heap n).value

/-- The run of the atomic queue that matches what has happened. -/
structure Ghost (α : Type) where
  acts : List (Act α)
  abs : AtomicQueue.State α

structure Matches (x : Ghost α) (g : Shared α) (h : List (Event α)) : Prop where
  run : AtomicQueue.Run x.acts x.abs
  observed : observed x.acts = acts h
  items : x.abs.items = items g h

/-- The node an enqueue has allocated. -/
def Local.node : Local α → Option Nat
  | .enqStoreInv node _ | .enqLoadTail node | .enqLoadNext node _ | .enqCheckTail node _ _
  | .enqCasNext node _ _ | .enqRetry node | .enqHelpTail node _ _ | .enqNowLin node _
  | .enqStoreLin node _ _ | .enqSwingTail node _ => some node
  | _ => none

/-- Where a thread stands in the atomic queue. -/
def Local.phase (g : Shared α) : Local α → Phase α
  | .idle => .idle
  | .enqNowInv value | .enqNew value _ => .called (.enqueue value)
  | .enqStoreInv node _ | .enqLoadTail node | .enqLoadNext node _ | .enqCheckTail node _ _
  | .enqCasNext node _ _ | .enqRetry node | .enqHelpTail node _ _ =>
      .called (.enqueue (g.heap node).value)
  | .enqNowLin node _ | .enqStoreLin node _ _ | .enqSwingTail node _ =>
      .done (.enqueue (g.heap node).value) .enqueued
  | .deqNowInv | .deqLoadHead _ | .deqLoadTail _ _ | .deqLoadNext _ _ _ | .deqHelpTail _ _ _
  | .deqReadValue _ _ _ | .deqReadInv _ _ _ _ | .deqReadLin _ _ _ _ _
  | .deqCasHead _ _ _ _ _ _ => .called .dequeue
  | .deqCheckHead _ _ _ next =>
      if next.ptr = none then .done .dequeue (.dequeued false none) else .called .dequeue
  | .deqNowLin _ _ _ value _ _ | .deqDelete _ value =>
      .done .dequeue (.dequeued true (some value))

/-- Nodes stay in use, with their values. -/
def Grows (g g' : Shared α) : Prop :=
  ∀ n, g.status n ≠ .unallocated →
    g'.status n ≠ .unallocated ∧ (g'.heap n).value = (g.heap n).value

theorem Grows.of_eq {g g' : Shared α} (hheap : g'.heap = g.heap) (hstatus : g'.status = g.status) :
    Grows g g' := by
  intro n hn
  rw [hheap, hstatus]
  exact ⟨hn, rfl⟩

theorem Grows.setNode {g : Shared α} {n : Nat} {node : MSNode α}
    (hvalue : node.value = (g.heap n).value) : Grows g (g.setNode n node) := by
  intro m hm
  by_cases hmn : m = n
  · subst hmn
    exact ⟨hm, by simpa using hvalue⟩
  · exact ⟨hm, by simp [hmn]⟩

theorem Grows.setStatus {g : Shared α} {n : Nat} : Grows g (g.setStatus n .deleted) := by
  intro m hm
  by_cases hmn : m = n
  · subst hmn
    exact ⟨by simp, rfl⟩
  · exact ⟨by simpa [hmn] using hm, rfl⟩

theorem Grows.alloc {g : Shared α} {n : Nat} (node : MSNode α)
    (hfree : g.status n = .unallocated) :
    Grows g ((g.setStatus n .allocated).setNode n node) := by
  intro m hm
  have hmn : m ≠ n := by
    rintro rfl
    exact hm hfree
  exact ⟨by simpa [hmn] using hm, by simp [hmn]⟩

theorem Grows.phase {g g' : Shared α} (h : Grows g g') {l : Local α}
    (hl : ∀ n, l.node = some n → g.status n ≠ .unallocated) : l.phase g' = l.phase g := by
  cases l <;> simp only [Local.phase] <;> rw [(h _ (hl _ rfl)).2]

theorem Loc.node_used {w : W α} (hw : Glob w) {t : Tid} {l : Local α} (hl : Loc w t l) {n : Nat}
    (hn : l.node = some n) : w.shared.status n ≠ .unallocated := by
  have hprivate : ∀ {m}, Private w t m → m = n → w.shared.status n ≠ .unallocated := by
    rintro m hm rfl
    exact hw.alloc hm.alloc
  have hlinked : ∀ {p m}, LinkedBehind w p m → m = n → w.shared.status n ≠ .unallocated := by
    rintro p m ⟨k, -, hm⟩ rfl
    exact hw.used m (List.mem_of_getElem? hm)
  cases l with
  | enqStoreInv | enqLoadTail | enqRetry => exact hprivate hl (Option.some.inj hn)
  | enqLoadNext | enqCheckTail | enqCasNext | enqHelpTail =>
      exact hprivate hl.1 (Option.some.inj hn)
  | enqNowLin | enqStoreLin | enqSwingTail => exact hlinked hl (Option.some.inj hn)
  | _ => cases hn

section Steps

variable {x : Ghost α} {g g' : Shared α} {h es : List (Event α)} {t : Tid}

theorem acts_append : acts (h ++ es) = acts h ++ acts es := by
  simp [acts]

theorem items_congr (hw : Glob ⟨(), g, h⟩) (hgrows : Grows g g')
    (hlink : es.filterMap linkedNode = []) (hunlink : es.filterMap unlinkedNode = []) :
    items g' (h ++ es) = items g h := by
  have hchain : chain (h ++ es) = chain h := by rw [chain_append, hlink, List.append_nil]
  have hpassed : passed (h ++ es) = passed h := by
    rw [passed, unlinked_append, hunlink, List.append_nil, passed]
  rw [items, items, hchain, hpassed]
  exact List.map_congr_left fun n hn => (hgrows n (hw.used n (List.mem_of_mem_drop hn))).2

/-- A step that shows one action, which the atomic queue matches. -/
theorem Matches.act (hm : Matches x g h) {a : Act α} {abs : AtomicQueue.State α}
    (hstep : AtomicQueue.Step x.abs a abs) (ha : a.isEmptyDequeue = false) (hacts : acts es = [a])
    (hitems : abs.items = MSQueue.items g' (h ++ es)) :
    Matches ⟨x.acts ++ [a], abs⟩ g' (h ++ es) where
  run := .snoc hm.run hstep
  observed := by
    rw [observed_append, hm.observed, acts_append, hacts]
    simp [AtomicQueue.observed, ha]
  items := hitems

/-- What the step of thread `t` to `l` has to achieve. -/
def Simulated (t : Tid) (x : Ghost α) (g' : Shared α) (h' : List (Event α)) (l : Local α) : Prop :=
  ∃ x', Matches x' g' h' ∧ x'.abs.phase t = l.phase g' ∧ ∀ u, u ≠ t → x'.abs.phase u = x.abs.phase u

theorem Simulated.act (hm : Matches x g h) {a : Act α} {abs : AtomicQueue.State α} {l : Local α}
    (hstep : AtomicQueue.Step x.abs a abs) (ht : a.tid = t) (ha : a.isEmptyDequeue = false)
    (hacts : acts es = [a]) (hitems : abs.items = MSQueue.items g' (h ++ es))
    (hphase : abs.phase t = l.phase g') : Simulated t x g' (h ++ es) l :=
  ⟨_, hm.act hstep ha hacts hitems, hphase, fun _ hu => hstep.phase_of_ne (ht ▸ hu)⟩

/-- A step after which the thread stands where it stood. -/
theorem Simulated.silent (hm : Matches x g h) (hw : Glob ⟨(), g, h⟩) {l l' : Local α}
    (hphase : x.abs.phase t = l.phase g) (hused : ∀ n, l.node = some n → g.status n ≠ .unallocated)
    (hgrows : Grows g g') (hlink : es.filterMap linkedNode = [])
    (hunlink : es.filterMap unlinkedNode = []) (hacts : acts es = [])
    (hsame : ∀ g : Shared α, l'.phase g = l.phase g) : Simulated t x g' (h ++ es) l' := by
  refine ⟨x, ⟨hm.run, ?_, ?_⟩, ?_, fun _ _ => rfl⟩
  · rw [hm.observed, acts_append, hacts, List.append_nil]
  · rw [hm.items, items_congr hw hgrows hlink hunlink]
  · rw [hphase, hsame, hgrows.phase hused]

/-- A call or a return. -/
theorem Simulated.phase (hm : Matches x g h) (hw : Glob ⟨(), g, h⟩) {a : Act α} {p : Phase α}
    {l : Local α} (hstep : AtomicQueue.Step x.abs a (x.abs.setPhase t p)) (ht : a.tid = t)
    (ha : a.isEmptyDequeue = false) (hgrows : Grows g g') (hphase : p = l.phase g') :
    Simulated t x g' (h ++ [.act a]) l :=
  .act hm hstep ht ha rfl (hm.items.trans (items_congr hw hgrows rfl rfl).symm)
    (by simpa using hphase)

/-- The node is linked: its value enters the queue. -/
theorem simulated_link (hm : Matches x g h) (hw : Glob ⟨(), g, h⟩) {node n : Nat}
    {curTail : MSPointer} {count : UInt32} (hown : Private ⟨(), g, h⟩ t node)
    (hphase : x.abs.phase t = .called (.enqueue (g.heap node).value)) :
    Simulated t x (g.setNode n { g.heap n with next := ⟨some node, count⟩ })
      (h ++ [.link t node, .act (.effect t (.enqueue (g.heap node).value) .enqueued)])
      (.enqNowLin node curTail) := by
  set g' := g.setNode n { g.heap n with next := ⟨some node, count⟩ } with hg'
  have hgrows : Grows g g' := Grows.setNode rfl
  have hvalue : (g'.heap node).value = (g.heap node).value := (hgrows node (hw.alloc hown.alloc)).2
  refine .act hm (.effect hphase rfl) rfl rfl rfl ?_ (by simp [Local.phase, hvalue])
  obtain ⟨m, -, hat⟩ := hw.head
  have hlt : passed h < (chain h).length := (List.getElem?_eq_some_iff.mp hat).1
  have hchain :
      chain (h ++ [.link t node, .act (.effect t (.enqueue (g.heap node).value) .enqueued)])
      = chain h ++ [node] := by simp [chain_append, linkedNode]
  have hpassed : passed (h ++ [.link t node, .act (.effect t (.enqueue (g.heap node).value)
      .enqueued)]) = passed h := by simp [passed, unlinked_append, unlinkedNode]
  have hold : ((chain h).drop (passed h + 1)).map (fun n => (g'.heap n).value) = items g h :=
    List.map_congr_left fun n hn => (hgrows n (hw.used n (List.mem_of_mem_drop hn))).2
  calc x.abs.items ++ [(g.heap node).value]
      = items g h ++ [(g'.heap node).value] := by rw [hm.items, hvalue]
    _ = ((chain h).drop (passed h + 1) ++ [node]).map (fun n => (g'.heap n).value) := by
        rw [List.map_append, hold, List.map_singleton]
    _ = items g' _ := by rw [items, hchain, hpassed, List.drop_append_of_le_length hlt]

/-- `head` is moved: the value of the first node behind it leaves the queue. -/
theorem simulated_unlink (hm : Matches x g h) (hw : Glob ⟨(), g, h⟩) {curHead next : MSPointer}
    {n inv : Nat} {value : α} {count : UInt32} {ei el : Option Nat}
    (hfront : Front ⟨(), g, h⟩ curHead next) (hvalue : ValueOf ⟨(), g, h⟩ next value)
    (hhead : g.head = curHead) (hphase : x.abs.phase t = .called .dequeue) :
    Simulated t x { g with head := ⟨next.ptr, count⟩ }
      (h ++ [.unlink t n, .act (.effect t .dequeue (.dequeued true (some value)))])
      (.deqNowLin inv curHead next value ei el) := by
  obtain ⟨p, hp, ⟨m, hnext, hat⟩, -⟩ := hfront
  obtain ⟨m', -, hnext', rfl⟩ := hvalue
  obtain rfl : m = m' := Option.some.inj (hnext.symm.trans hnext')
  obtain rfl : p = passed h := hw.pointsAt_unique (hhead ▸ hp) hw.head
  set rest := ((chain h).drop (passed h + 1 + 1)).map fun n => (g.heap n).value with hrest
  have hitems : x.abs.items = (g.heap m).value :: rest := by
    obtain ⟨hlt, hm'⟩ := List.getElem?_eq_some_iff.mp hat
    rw [hm.items, items, List.drop_eq_getElem_cons hlt, hm', List.map_cons, hrest]
  have hpassed : passed (h ++ [.unlink t n, .act (.effect t .dequeue (.dequeued true
      (some (g.heap m).value)))]) = passed h + 1 := by simp [passed, unlinked_append, unlinkedNode]
  have hchain : chain (h ++ [.unlink t n, .act (.effect t .dequeue (.dequeued true
      (some (g.heap m).value)))]) = chain h := by simp [chain_append, linkedNode]
  refine .act hm (.effect hphase (show _ = (_, rest) from ?_)) rfl rfl rfl ?_
    (by simp [Local.phase])
  · rw [hitems]
    rfl
  · rw [items, hpassed, hchain]
    rfl

/-- A null `next` is read from the last node, on which `head` stands. -/
theorem simulated_empty (hm : Matches x g h) (hw : Glob ⟨(), g, h⟩) {curHead curTail : MSPointer}
    {n inv : Nat} (hsnap : Snapshot ⟨(), g, h⟩ curHead curTail) (hn : curHead.ptr = some n)
    (hnull : (g.heap n).next.ptr = none) (hphase : x.abs.phase t = .called .dequeue) :
    Simulated t x g (h ++ []) (.deqCheckHead inv curHead curTail (g.heap n).next) := by
  obtain ⟨p, -, hp, -, ⟨m, hm', hat⟩, -⟩ := hsnap
  obtain rfl : m = n := Option.some.inj (hm'.symm.trans hn)
  have hlen : (chain h).length = p + 1 := hw.linked.length_of_next_none hat hnull
  have hitems : x.abs.items = [] := by
    rw [hm.items, items, List.drop_eq_nil_of_le (by rw [hlen]; exact Nat.succ_le_succ hp),
      List.map_nil]
  have hstep : AtomicQueue.Step x.abs (.effect t .dequeue (.dequeued false none))
      (x.abs.setPhase t (.done .dequeue (.dequeued false none))) := by
    have happly : apply .dequeue x.abs.items = (.dequeued false none, x.abs.items) := by
      rw [hitems]
      rfl
    exact .effect hphase happly
  refine ⟨⟨_, _⟩, ⟨.snoc hm.run hstep, ?_, ?_⟩, ?_, fun u hu => hstep.phase_of_ne hu⟩
  · rw [observed_append, hm.observed, List.append_nil]
    simp [AtomicQueue.observed, Act.isEmptyDequeue]
  · simpa using hm.items
  · simp [Local.phase, hnull]

/-- The dequeue that read a null `next` has to try again. -/
theorem simulated_retry (hm : Matches x g h) (hw : Glob ⟨(), g, h⟩) {next : MSPointer} {inv : Nat}
    {curHead curTail : MSPointer}
    (hphase : x.abs.phase t = (Local.deqCheckHead inv curHead curTail next : Local α).phase g) :
    Simulated t x g (h ++ []) (.deqLoadHead inv) := by
  by_cases hnull : next.ptr = none
  · rw [Local.phase, if_pos hnull] at hphase
    obtain ⟨acts', hrun, hobs⟩ := hm.run.takeBack hphase
    exact ⟨⟨acts', _⟩, ⟨hrun, by rw [hobs, hm.observed, List.append_nil], by simpa using hm.items⟩,
      by simp [Local.phase], fun u hu => by simp [hu]⟩
  · exact .silent hm hw hphase (by simp [Local.node]) (.of_eq rfl rfl) rfl rfl rfl
      fun _ => by simp [Local.phase, hnull]

/-- The dequeue that has checked `head` returns, helps, reads or tries again. -/
theorem deqCheckHead_simulated {i : Input α} (hm : Matches x g h) (hw : Glob ⟨(), g, h⟩)
    {inv : Nat} {curHead curTail next : MSPointer}
    (hphase : x.abs.phase t = (Local.deqCheckHead inv curHead curTail next : Local α).phase g) :
    Leads (fun g' l' es => Simulated t x g' (h ++ es) l')
      (step t i g (.deqCheckHead inv curHead curTail next)) := by
  refine .ite (fun _ => .ite (fun _ => ?_) fun _ => ?_) fun _ =>
    .into <| simulated_retry hm hw hphase
  · split <;> rename_i hnext <;> refine .into ?_
    · rw [Local.phase, if_pos hnext] at hphase
      exact .phase hm hw (.ret hphase) rfl rfl (.of_eq rfl rfl) rfl
    · exact .silent hm hw hphase (by simp [Local.node]) (.of_eq rfl rfl) rfl rfl rfl
        fun _ => by simp [Local.phase, hnext]
  · split <;> rename_i hnext <;> refine .into ?_
    · exact simulated_retry hm hw hphase
    · exact .silent hm hw hphase (by simp [Local.node]) (.of_eq rfl rfl) rfl rfl rfl
        fun _ => by simp [Local.phase, hnext]

/-- **Every step of the code is matched by the atomic queue.** -/
theorem step_simulated {i : Input α} {l l' : Local α} (hm : Matches x g h) (hw : Glob ⟨(), g, h⟩)
    (hl : Loc ⟨(), g, h⟩ t l) (hphase : x.abs.phase t = l.phase g)
    (hstep : step t i g l = some (g', l', es)) : Simulated t x g' (h ++ es) l' := by
  suffices hleads : Leads (fun g' l' es => Simulated t x g' (h ++ es) l') (step t i g l) from
    hleads.of_some hstep
  have hused := fun n (hn : l.node = some n) => Loc.node_used hw hl hn
  cases l with
  | idle =>
      refine .map fun op _ => ?_
      cases op <;> exact .phase hm hw (.call hphase) rfl rfl (.of_eq rfl rfl) rfl
  | enqNowInv | enqNowLin | deqNowInv =>
      refine .ite (fun _ => .into ?_) fun _ => .nowhere
      exact .silent hm hw hphase hused (.of_eq rfl rfl) rfl rfl rfl fun _ => rfl
  | enqNew value inv =>
      refine .ite (fun hfree => .into ?_) fun _ => .nowhere
      have hgrows := Grows.alloc { value } hfree
      refine ⟨x, ⟨hm.run, by simp [hm.observed, acts, queueAct], ?_⟩, ?_, fun _ _ => rfl⟩
      · rw [hm.items, items_congr hw hgrows rfl rfl]
      · simpa [Local.phase] using hphase
  | enqStoreInv | enqStoreLin =>
      exact .into <| .silent hm hw hphase hused (.setNode rfl) rfl rfl rfl fun _ => rfl
  | enqLoadTail | enqRetry | deqLoadHead | deqLoadTail =>
      exact .into <| .silent hm hw hphase hused (.of_eq rfl rfl) rfl rfl rfl fun _ => rfl
  | enqLoadNext | deqReadValue | deqReadInv | deqReadLin =>
      exact .map fun _ _ => .silent hm hw hphase hused (.of_eq rfl rfl) rfl rfl rfl fun _ => rfl
  | enqCheckTail node curTail next =>
      refine .ite (fun _ => ?_) fun _ => .into ?_
      · split <;>
          exact .into <| .silent hm hw hphase hused (.of_eq rfl rfl) rfl rfl rfl fun _ => rfl
      · exact .silent hm hw hphase hused (.of_eq rfl rfl) rfl rfl rfl fun _ => rfl
  | enqCasNext node curTail next =>
      refine .map fun n _ => ?_
      split
      · exact simulated_link hm hw hl.1 hphase
      · exact .silent hm hw hphase hused (.of_eq rfl rfl) rfl rfl rfl fun _ => rfl
  | enqHelpTail | deqHelpTail =>
      exact .into <| .silent hm hw hphase hused (.of_eq (by simp) (by simp)) rfl rfl rfl
        fun _ => rfl
  | enqSwingTail node curTail =>
      exact .into <| .phase hm hw (.ret hphase) rfl rfl (.of_eq (by simp) (by simp)) rfl
  | deqLoadNext inv curHead curTail =>
      refine .map fun n hn => ?_
      by_cases hnull : (g.heap n).next.ptr = none
      · exact simulated_empty hm hw hl hn hnull hphase
      · exact .silent hm hw hphase hused (.of_eq rfl rfl) rfl rfl rfl
          fun _ => by simp [Local.phase, hnull]
  | deqCheckHead inv curHead curTail next => exact deqCheckHead_simulated hm hw hphase
  | deqCasHead inv curHead next value ei el =>
      refine .map fun n _ => ?_
      split
      · rename_i hcas
        exact simulated_unlink hm hw hl.1 hl.2 hcas.1 hphase
      · exact .silent hm hw hphase hused (.of_eq rfl rfl) rfl rfl rfl fun _ => rfl
  | deqNowLin inv curHead next value ei el =>
      refine .ite (fun _ => .map fun _ _ => ?_) fun _ => .nowhere
      exact .silent hm hw hphase hused (.of_eq rfl rfl) rfl rfl rfl fun _ => rfl
  | deqDelete curHead value =>
      exact .map fun _ _ => .phase hm hw (.ret hphase) rfl rfl .setStatus rfl

theorem step_grows {i : Input α} {l l' : Local α} (hstep : step t i g l = some (g', l', es)) :
    Grows g g' := by
  cases step_nodes hstep with
  | none hheap hstatus => exact .of_eq hheap hstatus
  | alloc hfree => exact .alloc _ hfree
  | write hvalue => exact .setNode hvalue
  | delete hn => exact .setStatus

end Steps

section Results

variable [Inhabited α] {c : Config (Shared α) (Local α) (Event α)}

/-- The simulation holds along every run. -/
theorem Reach.simulated (h : (program α).Reachable c) :
    ∃ x, Matches x c.shared c.history ∧ ∀ t, x.abs.phase t = (c.locals t).phase c.shared := by
  induction h with
  | init =>
      exact ⟨⟨[], .init⟩, ⟨.nil, rfl, rfl⟩, fun _ => rfl⟩
  | @step c _ t i hreach _ hnext ih =>
      obtain ⟨x, hm, hphase⟩ := ih
      obtain ⟨hw, hl⟩ := Reach.list hreach
      obtain ⟨g, l, es, hstep, rfl⟩ := Program.next_eq_some hnext
      obtain ⟨x', hm', hown, hothers⟩ := step_simulated hm hw (hl t) (hphase t) hstep
      refine ⟨x', hm', fun u => ?_⟩
      by_cases hu : u = t
      · subst hu
        simpa using hown
      · have hgrows := (step_grows hstep).phase fun n hn => Loc.node_used hw (hl u) hn
        simp [hu, hothers u hu, hphase u, hgrows]

/-- **Linearizability.** Every run is matched by a run of the atomic queue that shows the same
calls, returns, enqueues and successful dequeues in the same order, and whose list is what hangs
behind `head`. What it has besides are the effects of dequeues that find the queue empty, between
their calls and their returns. -/
theorem linearizable (h : (program α).Reachable c) :
    ∃ acts' s front nodes,
      AtomicQueue.Run acts' s ∧ observed acts' = acts c.history
        ∧ Path (nextPtr c.shared) c.shared.head.ptr (front :: nodes)
        ∧ s.items = nodes.map (fun n => (c.shared.heap n).value)
        ∧ Sequential [] (effects acts') s.items
        ∧ ∀ before t res after, acts' = before ++ .ret t res :: after →
            ∃ op, DoneAt before t op res := by
  obtain ⟨x, hm, -⟩ := Reach.simulated h
  obtain ⟨hw, -⟩ := Reach.list h
  obtain ⟨front, hptr, hat⟩ := hw.head
  have hpath := hw.linked.path (passed c.history)
  obtain ⟨hlt, hfront⟩ := List.getElem?_eq_some_iff.mp hat
  rw [hat, ← hptr, List.drop_eq_getElem_cons hlt, hfront] at hpath
  exact ⟨x.acts, x.abs, front, _, hm.run, hm.observed, hpath, hm.items, hm.run.linearization⟩

/-- Thread 0 links the node of 7 and stops; thread 1 enqueues 8, for which it has to move `tail`
first, and takes 7; thread 0 goes on, returns and takes 8. -/
def overlappingSchedule : List (Tid × Input Nat) :=
  List.replicate 8 (0, { op := some (.enqueue 7), ts := 1, addr := 1 })
    ++ List.replicate 15 (1, { op := some (.enqueue 8), ts := 2, addr := 2 })
    ++ List.replicate 12 (1, { op := some .dequeue, ts := 3 })
    ++ List.replicate 3 (0, { ts := 4 })
    ++ List.replicate 12 (0, { op := some .dequeue, ts := 5 })
    ++ List.replicate 6 (1, { op := some .dequeue, ts := 6 })

/-- What the two threads do. -/
def overlappingActs : List (Act Nat) :=
  [.call 0 (.enqueue 7), .effect 0 (.enqueue 7) .enqueued, .call 1 (.enqueue 8),
    .effect 1 (.enqueue 8) .enqueued, .ret 1 .enqueued, .call 1 .dequeue,
    .effect 1 .dequeue (.dequeued true (some 7)), .ret 1 (.dequeued true (some 7)),
    .ret 0 .enqueued, .call 0 .dequeue, .effect 0 .dequeue (.dequeued true (some 8)),
    .ret 0 (.dequeued true (some 8)), .call 1 .dequeue, .ret 1 (.dequeued false none)]

theorem linearizable_overlapping :
    ∃ c, (program Nat).exec (program Nat).init overlappingSchedule = some c
      ∧ acts c.history = overlappingActs
      ∧ ∃ acts' s front nodes,
        AtomicQueue.Run acts' s ∧ observed acts' = acts c.history
          ∧ Path (nextPtr c.shared) c.shared.head.ptr (front :: nodes)
          ∧ s.items = nodes.map (fun n => (c.shared.heap n).value)
          ∧ Sequential [] (effects acts') s.items
          ∧ ∀ before t res after, acts' = before ++ .ret t res :: after →
              ∃ op, DoneAt before t op res := by
  have hrun : ((program Nat).exec (program Nat).init overlappingSchedule).map
      (fun c => acts c.history) = some overlappingActs := by
    decide +kernel
  obtain ⟨c, hexec, hacts⟩ := Option.map_eq_some_iff.mp hrun
  exact ⟨c, hexec, hacts, linearizable (.exec (fun _ _ _ => trivial) .init hexec)⟩

end Results

end QueueFairness.MSQueue
