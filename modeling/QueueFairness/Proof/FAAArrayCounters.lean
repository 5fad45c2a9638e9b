import QueueFairness.Proof.FAAArrayCells

/-!
# The counters of the array queue

What holds while the counters do not wrap. A dequeue draws every index once and in order, and `head`
leaves a node only when all its indices are drawn; an item lies at an index its enqueue has drawn,
so an enqueue called after another has returned puts its item in a later cell. A dequeue that
returns nothing has seen, at one moment, that every cell filled by then was claimed.
-/

namespace QueueFairness.FAAArrayQueue

open Interleaving AtomicQueue LinkedList

/-- A call or a return of thread `t`. -/
def Event.Boundary (t : Tid) : Event → Prop
  | .call u _ | .retEnq u _ | .retDeq u _ => u = t
  | _ => False

/-- Thread `t` is in a call to `dequeue`. -/
def InDequeue (h : List Event) (t : Tid) : Prop :=
  ∃ before during, h = before ++ .call t .dequeue :: during ∧ ∀ e ∈ during, ¬ e.Boundary t

/-- A dequeue has drawn the index `idx` of node `n` during its call. -/
def Claimed (h : List Event) (n : Nat) (idx : Int) : Prop :=
  ∃ t before during after,
    h = before ++ .call t .dequeue :: (during ++ .claim t n idx :: after)
      ∧ ∀ e ∈ during, ¬ e.Boundary t

/-- Every item whose enqueue has returned was put in a cell whose index a dequeue has drawn. -/
def AllClaimed (h : List Event) : Prop :=
  ∀ t a, .retEnq t a ∈ h → ∃ n idx, Put h a n idx ∧ Claimed h n idx

/-- At a moment during thread `t`'s present call to `dequeue`, all returned items were claimed. -/
def Emptied (h : List Event) (t : Tid) : Prop :=
  ∃ before during after,
    h = before ++ .call t .dequeue :: (during ++ after) ∧ (∀ e ∈ during ++ after, ¬ e.Boundary t)
      ∧ AllClaimed (before ++ .call t .dequeue :: during)

/-- The enqueue of `a` returned before the enqueue of `b` was called. -/
def ReturnedBefore (h : List Event) (a b : Nat) : Prop :=
  ∃ before t u, before ++ [.call u (.enqueue b)] <+: h ∧ .retEnq t a ∈ before

/-- The order in which the cells of the list are drawn. -/
def CellBefore (h : List Event) (n : Nat) (idx : Int) (m : Nat) (j : Int) : Prop :=
  ∃ p q, At h n p ∧ At h m q ∧ (p < q ∨ p = q ∧ idx < j)

/-- `head` stands on the `q`th node or behind it. -/
def HeadFrom (w : W) (q : Nat) : Prop := ∃ k, q ≤ k ∧ At w.history w.shared.head k

def TailFrom (w : W) (q : Nat) : Prop := ∃ k, q ≤ k ∧ At w.history w.shared.tail k

structure Counts (L : Layout) (w : W) : Prop where
  deq : ∀ n ∈ chain w.history, 0 ≤ (w.shared.nodes n).deqidx
  enq : ∀ n ∈ chain w.history, 0 ≤ (w.shared.nodes n).enqidx
  claim : ∀ {t n idx}, .claim t n idx ∈ w.history → InNode L idx
    ∧ idx < (w.shared.nodes n).deqidx ∧ ∃ q, At w.history n q ∧ HeadFrom w q
  claimed : ∀ {n idx}, n ∈ chain w.history → InNode L idx → idx < (w.shared.nodes n).deqidx →
    Claimed w.history n idx
  claimOnce : ∀ {t u n idx}, .claim t n idx ∈ w.history → .claim u n idx ∈ w.history → t = u
  take : ∀ {t n idx v}, .take t n idx v ∈ w.history → .claim t n idx ∈ w.history
  put : ∀ {a n idx}, Put w.history a n idx → idx < (w.shared.nodes n).enqidx
  passed : ∀ {n p k}, At w.history w.shared.head k → p < k → At w.history n p →
    L.size ≤ (w.shared.nodes n).deqidx
  returned : ∀ {t a}, .retEnq t a ∈ w.history →
    ∃ n idx q, Put w.history a n idx ∧ At w.history n q ∧ TailFrom w q
  order : ∀ {a b m j}, ReturnedBefore w.history a b → Put w.history b m j →
    ∃ n idx, Put w.history a n idx ∧ CellBefore w.history n idx m j

/-- `ltail` was read from `tail`, by a call to enqueue `a`. -/
structure OnTail (w : W) (t : Tid) (a ltail : Nat) : Prop where
  call : .call t (.enqueue a) ∈ w.history
  tail : ∃ q, At w.history ltail q ∧ TailFrom w q
  order : ∀ b, ReturnedBefore w.history b a →
    ∃ n idx p q, Put w.history b n idx ∧ At w.history n p ∧ At w.history ltail q ∧ p ≤ q

/-- The index `idx` of `ltail` was drawn, by a call to enqueue `a`. -/
structure Drawn (w : W) (t : Tid) (a ltail : Nat) (idx : Int) : Prop where
  call : .call t (.enqueue a) ∈ w.history
  tail : ∃ q, At w.history ltail q ∧ TailFrom w q
  lt : idx < (w.shared.nodes ltail).enqidx
  order : ∀ b, ReturnedBefore w.history b a →
    ∃ n j, Put w.history b n j ∧ CellBefore w.history n j ltail idx

/-- The item was put in a cell of a node `tail` has reached. -/
def Arrived (w : W) (a : Nat) : Prop :=
  ∃ n idx q, Put w.history a n idx ∧ At w.history n q ∧ TailFrom w q

/-- `lhead` was read from `head`, by a call to `dequeue`. -/
structure OnHead (w : W) (t : Tid) (lhead : Nat) : Prop where
  call : InDequeue w.history t
  head : ∃ q, At w.history lhead q ∧ HeadFrom w q

/-- The index `idx` of `lhead` is drawn, and its cell not yet exchanged. -/
structure Open (w : W) (t : Tid) (lhead : Nat) (idx : Int) : Prop where
  head : OnHead w t lhead
  claim : .claim t lhead idx ∈ w.history
  take : ∀ u v, .take u lhead idx v ∉ w.history

def CountLoc (L : Layout) (w : W) (t : Tid) : Local → Prop
  | .idle | .enqProtect _ _ | .enqPublish _ _ | .enqHelpTail _ _ _ => True
  | .enqFetchAdd a ltail | .enqCheckTail a ltail | .enqLoadNext a ltail | .enqNewNode a ltail
  | .enqCasNext a ltail _ => OnTail w t a ltail
  | .enqNowLinked _ ltail _ | .enqStampLinked _ ltail _ _ | .enqCasTail _ ltail _ =>
      ∃ q, At w.history ltail q ∧ TailFrom w q
  | .enqCasCell a ltail idx => Drawn w t a ltail idx
  | .enqNowCell a | .enqStampCell a _ | .enqClear a => Arrived w a
  | .deqProtect _ | .deqPublish _ | .deqRetire _ | .deqScan _ => InDequeue w.history t
  | .deqFetchAdd lhead => OnHead w t lhead
  | .deqLoadNext lhead | .deqCasHead lhead _ =>
      OnHead w t lhead ∧ L.size ≤ (w.shared.nodes lhead).deqidx
  | .deqLoadCell lhead idx | .deqLoadEnqidx lhead idx | .deqSpin lhead idx _
  | .deqExchange lhead idx => Open w t lhead idx
  | .deqReloadEnqidx lhead idx => OnHead w t lhead ∧ .claim t lhead idx ∈ w.history
  | .deqCheckNext lhead idx enqidx =>
      OnHead w t lhead ∧ enqidx ≤ idx + 1 ∧ (nextPtr w.shared lhead = none → Emptied w.history t)
  | .deqCasEnqidx lhead idx enqidx =>
      OnHead w t lhead ∧ enqidx ≤ idx + 1 ∧ Emptied w.history t
  | .deqNowLin v | .deqStampLin v _ => InDequeue w.history t ∧ v ≠ .empty ∧ v ≠ .taken
  | .deqClear v => InDequeue w.history t ∧ (v = .empty → Emptied w.history t) ∧ v ≠ .taken

/-- What thread `t` relies on. -/
structure CountRely (t : Tid) (w w' : W) : Prop where
  history : ∃ es, w'.history = w.history ++ es ∧ ∀ e ∈ es, ¬ e.Boundary t
  chain : chain w.history <+: chain w'.history
  deq : ∀ n ∈ FAAArrayQueue.chain w.history, (w.shared.nodes n).deqidx ≤ (w'.shared.nodes n).deqidx
  enq : ∀ n ∈ FAAArrayQueue.chain w.history, (w.shared.nodes n).enqidx ≤ (w'.shared.nodes n).enqidx
  next : ∀ n ∈ FAAArrayQueue.chain w.history, nextPtr w'.shared n = none → nextPtr w.shared n = none
  head : ∀ {q}, HeadFrom w q → HeadFrom w' q
  tail : ∀ {q}, TailFrom w q → TailFrom w' q
  calls : ∀ {a b}, .call t (.enqueue b) ∈ w.history → ReturnedBefore w'.history a b →
    ReturnedBefore w.history a b
  opened : ∀ {n idx}, .claim t n idx ∈ w.history → (∀ u v, .take u n idx v ∉ w.history) →
    ∀ u v, .take u n idx v ∉ w'.history

section History

variable {h es : List Event} {t : Tid}

theorem put_append {a n : Nat} {idx : Int} :
    Put (h ++ es) a n idx ↔ Put h a n idx ∨ Put es a n idx := by
  simp only [Put, List.mem_append, exists_or]
  tauto

theorem returnedBefore_append {a b : Nat} (hes : ∀ u, .call u (.enqueue b) ∉ es) :
    ReturnedBefore (h ++ es) a b ↔ ReturnedBefore h a b := by
  constructor
  · rintro ⟨before, v, u, hle, hmem⟩
    refine ⟨before, v, u, ?_, hmem⟩
    induction es using List.reverseRecOn with
    | nil => simpa using hle
    | append_singleton rest e ih =>
        rw [← List.append_assoc, List.prefix_concat_iff] at hle
        rcases hle with heq | hle
        · obtain ⟨-, rfl⟩ : before = h ++ rest ∧ .call u (.enqueue b) = e := by
            simpa using List.append_inj' heq rfl
          exact absurd (List.mem_append_right _ (List.mem_singleton_self _)) (hes u)
        · exact ih (fun w hw => hes w (List.mem_append_left _ hw)) hle
  · rintro ⟨before, v, u, hle, hmem⟩
    exact ⟨before, v, u, hle.trans (List.prefix_append h es), hmem⟩

theorem Claimed.append {n : Nat} {idx : Int} (hc : Claimed h n idx) (es : List Event) :
    Claimed (h ++ es) n idx := by
  obtain ⟨t, before, during, after, rfl, hduring⟩ := hc
  exact ⟨t, before, during, after ++ es, by simp, hduring⟩

theorem InDequeue.append (hd : InDequeue h t) (hes : ∀ e ∈ es, ¬ e.Boundary t) :
    InDequeue (h ++ es) t := by
  obtain ⟨before, during, rfl, hduring⟩ := hd
  exact ⟨before, during ++ es, by simp, fun e he =>
    (List.mem_append.mp he).elim (hduring e) (hes e)⟩

theorem Emptied.append (hd : Emptied h t) (hes : ∀ e ∈ es, ¬ e.Boundary t) :
    Emptied (h ++ es) t := by
  obtain ⟨before, during, after, rfl, hduring, hall⟩ := hd
  refine ⟨before, during, after ++ es, by simp, fun e he => ?_, hall⟩
  rw [← List.append_assoc] at he
  exact (List.mem_append.mp he).elim (hduring e) (hes e)

theorem InDequeue.claimed (hd : InDequeue h t) (n : Nat) (idx : Int) :
    Claimed (h ++ [.claim t n idx]) n idx := by
  obtain ⟨before, during, rfl, hduring⟩ := hd
  exact ⟨t, before, during, [], by simp, hduring⟩

/-- If all returned items are claimed now, then they are at a moment of the present call. -/
theorem InDequeue.emptied (hd : InDequeue h t) (hall : AllClaimed h) : Emptied h t := by
  obtain ⟨before, during, rfl, hduring⟩ := hd
  exact ⟨before, during, [], by simp, by simpa using hduring, hall⟩

theorem CellBefore.mono {h' : List Event} (hle : chain h <+: chain h') {n m : Nat} {idx j : Int}
    (hc : CellBefore h n idx m j) : CellBefore h' n idx m j := by
  obtain ⟨p, q, hn, hm, hlt⟩ := hc
  exact ⟨p, q, hn.mono hle, hm.mono hle, hlt⟩

end History

section Stable

variable {L : Layout} {t : Tid} {w w' : W}

theorem At.mem {h : List Event} {n q : Nat} (hn : At h n q) : n ∈ chain h :=
  List.mem_of_getElem? hn

theorem CountRely.mem (h : CountRely t w w') {e : Event} (he : e ∈ w.history) : e ∈ w'.history := by
  obtain ⟨es, hes, -⟩ := h.history
  rw [hes]
  exact List.mem_append_left _ he

theorem CountRely.inDequeue (h : CountRely t w w') (hd : InDequeue w.history t) :
    InDequeue w'.history t := by
  obtain ⟨es, hes, hquiet⟩ := h.history
  rw [hes]
  exact hd.append hquiet

theorem CountRely.emptied (h : CountRely t w w') (hd : Emptied w.history t) :
    Emptied w'.history t := by
  obtain ⟨es, hes, hquiet⟩ := h.history
  rw [hes]
  exact hd.append hquiet

theorem CountRely.reached (h : CountRely t w w') {n : Nat}
    (hn : ∃ q, At w.history n q ∧ TailFrom w q) : ∃ q, At w'.history n q ∧ TailFrom w' q := by
  obtain ⟨q, hq, htail⟩ := hn
  exact ⟨q, hq.mono h.chain, h.tail htail⟩

theorem CountRely.onTail (h : CountRely t w w') {a ltail : Nat} (hl : OnTail w t a ltail) :
    OnTail w' t a ltail where
  call := h.mem hl.call
  tail := h.reached hl.tail
  order b hb := by
    obtain ⟨n, idx, p, q, hput, hn, hltail, hle⟩ := hl.order b (h.calls hl.call hb)
    exact ⟨n, idx, p, q, hput.mono h.mem, hn.mono h.chain, hltail.mono h.chain, hle⟩

theorem CountRely.drawn (h : CountRely t w w') {a ltail : Nat} {idx : Int}
    (hl : Drawn w t a ltail idx) : Drawn w' t a ltail idx where
  call := h.mem hl.call
  tail := h.reached hl.tail
  lt := by
    obtain ⟨q, hq, -⟩ := hl.tail
    exact lt_of_lt_of_le hl.lt (h.enq _ hq.mem)
  order b hb := by
    obtain ⟨n, j, hput, hbefore⟩ := hl.order b (h.calls hl.call hb)
    exact ⟨n, j, hput.mono h.mem, hbefore.mono h.chain⟩

theorem CountRely.arrived (h : CountRely t w w') {a : Nat} (ha : Arrived w a) : Arrived w' a := by
  obtain ⟨n, idx, q, hput, hn, htail⟩ := ha
  exact ⟨n, idx, q, hput.mono h.mem, hn.mono h.chain, h.tail htail⟩

theorem CountRely.onHead (h : CountRely t w w') {lhead : Nat} (hl : OnHead w t lhead) :
    OnHead w' t lhead := by
  obtain ⟨hcall, q, hq, hhead⟩ := hl
  exact ⟨h.inDequeue hcall, q, hq.mono h.chain, h.head hhead⟩

theorem CountRely.drained (h : CountRely t w w') {lhead : Nat}
    (hl : OnHead w t lhead ∧ L.size ≤ (w.shared.nodes lhead).deqidx) :
    OnHead w' t lhead ∧ L.size ≤ (w'.shared.nodes lhead).deqidx := by
  obtain ⟨q, hq, -⟩ := hl.1.head
  exact ⟨h.onHead hl.1, hl.2.trans (h.deq _ hq.mem)⟩

theorem CountRely.open (h : CountRely t w w') {lhead : Nat} {idx : Int} (hl : Open w t lhead idx) :
    Open w' t lhead idx :=
  ⟨h.onHead hl.head, h.mem hl.claim, h.opened hl.claim hl.take⟩

theorem CountRely.loc {l : Local} (h : CountRely t w w') (hl : CountLoc L w t l) :
    CountLoc L w' t l := by
  cases l with
  | idle | enqProtect | enqPublish | enqHelpTail => trivial
  | enqFetchAdd | enqCheckTail | enqLoadNext | enqNewNode | enqCasNext => exact h.onTail hl
  | enqNowLinked | enqStampLinked | enqCasTail => exact h.reached hl
  | enqCasCell => exact h.drawn hl
  | enqNowCell | enqStampCell | enqClear => exact h.arrived hl
  | deqProtect | deqPublish | deqRetire | deqScan => exact h.inDequeue hl
  | deqFetchAdd => exact h.onHead hl
  | deqLoadNext | deqCasHead => exact h.drained hl
  | deqLoadCell | deqLoadEnqidx | deqSpin | deqExchange => exact h.open hl
  | deqReloadEnqidx => exact ⟨h.onHead hl.1, h.mem hl.2⟩
  | deqCheckNext lhead idx enqidx =>
      obtain ⟨hhead, hle, hempty⟩ := hl
      obtain ⟨q, hq, -⟩ := hhead.head
      exact ⟨h.onHead hhead, hle, fun hnone => h.emptied (hempty (h.next _ hq.mem hnone))⟩
  | deqCasEnqidx => exact ⟨h.onHead hl.1, hl.2.1, h.emptied hl.2.2⟩
  | deqNowLin | deqStampLin => exact ⟨h.inDequeue hl.1, hl.2⟩
  | deqClear => exact ⟨h.inDequeue hl.1, fun hv => h.emptied (hl.2.1 hv), hl.2.2⟩

end Stable

/-! ### Steps -/

namespace Shared

variable {L : Layout} (g : Shared) (n : Nat) (idx : Int) (v : Slot) (m : Nat)

@[simp]
theorem setCell_deqidx : ((g.setCell L n idx v).nodes m).deqidx = (g.nodes m).deqidx := by
  by_cases hm : m = n
  · subst hm
    simp [setCell]
  · simp [setCell, hm]

@[simp]
theorem setCell_enqidx : ((g.setCell L n idx v).nodes m).enqidx = (g.nodes m).enqidx := by
  by_cases hm : m = n
  · subst hm
    simp [setCell]
  · simp [setCell, hm]

end Shared

/-- What a step of thread `t` from `w` has to achieve. -/
def CountsPreserved (L : Layout) (t : Tid) (w : W) (g : Shared) (l : Local) (es : List Event) :
    Prop :=
  Counts L ⟨(), g, w.history ++ es⟩ ∧ CountLoc L ⟨(), g, w.history ++ es⟩ t l
    ∧ ∀ u, u ≠ t → CountRely u w ⟨(), g, w.history ++ es⟩

section Steps

variable {L : Layout} {t : Tid} {g g' : Shared} {h es : List Event} {l : Local}

/-- What the events of a step of thread `t` that links no node and draws no index may be. -/
structure Events (t : Tid) (w w' : W) (es : List Event) : Prop where
  link : es.filterMap linkedNode = []
  claim : ∀ u n idx, .claim u n idx ∉ es
  take : ∀ {u n idx v}, .take u n idx v ∈ es → u = t ∧ .claim t n idx ∈ w.history
  put : ∀ {a n idx}, Put es a n idx → idx < (w'.shared.nodes n).enqidx
    ∧ ∀ b, ReturnedBefore w.history b a →
      ∃ m j, Put w.history b m j ∧ CellBefore w.history m j n idx
  ret : ∀ {u a}, .retEnq u a ∈ es → Arrived w a
  call : ∀ {u a}, .call u (.enqueue a) ∈ es →
    (∀ v, .call v (.enqueue a) ∉ w.history) ∧ ∀ m j, ¬ Put w'.history a m j
  boundary : ∀ u, u ≠ t → ∀ e ∈ es, ¬ e.Boundary u

/-- A step after which `deqidx` is what it was; it may raise `enqidx`, and move `tail` on. -/
theorem counts_step (hs : Counts L ⟨(), g, h⟩) (hes : Events t ⟨(), g, h⟩ ⟨(), g', h ++ es⟩ es)
    (hdeq : ∀ n ∈ chain h, (g'.nodes n).deqidx = (g.nodes n).deqidx)
    (henq : ∀ n ∈ chain h, (g.nodes n).enqidx ≤ (g'.nodes n).enqidx)
    (hput : ∀ {a n idx}, Put h a n idx → n ∈ chain h)
    (hnext : ∀ n ∈ chain h, nextPtr g' n = nextPtr g n) (hhead : g'.head = g.head)
    (htail : ∀ {q}, TailFrom ⟨(), g, h⟩ q → TailFrom ⟨(), g', h⟩ q)
    (hl : ((∀ e ∈ es, ¬ e.Boundary t) → (∀ u n idx v, .take u n idx v ∉ es) →
      CountRely t ⟨(), g, h⟩ ⟨(), g', h ++ es⟩) → CountLoc L ⟨(), g', h ++ es⟩ t l) :
    CountsPreserved L t ⟨(), g, h⟩ g' l es := by
  have hchain : chain (h ++ es) = chain h := by rw [chain_append, hes.link, List.append_nil]
  have hclaim : ∀ {u n idx}, .claim u n idx ∈ h ++ es ↔ .claim u n idx ∈ h := fun {u n idx} => by
    rw [List.mem_append, or_iff_left (hes.claim u n idx)]
  have hat : ∀ {n q}, At (h ++ es) n q ↔ At h n q := by simp [At, hchain]
  have hhead' : ∀ {q}, HeadFrom ⟨(), g', h ++ es⟩ q ↔ HeadFrom ⟨(), g, h⟩ q := by
    simp [HeadFrom, hat, hhead]
  have htail' : ∀ {q}, TailFrom ⟨(), g, h⟩ q → TailFrom ⟨(), g', h ++ es⟩ q := by
    intro q hq
    obtain ⟨k, hk, hat'⟩ := htail hq
    exact ⟨k, hk, hat.mpr hat'⟩
  have hold : ∀ {a n idx}, Put h a n idx → Put (h ++ es) a n idx :=
    fun hn => put_append.mpr (.inl hn)
  have hrely : ∀ u, (∀ e ∈ es, ¬ e.Boundary u) →
      (∀ {n idx}, .claim u n idx ∈ h → ∀ v w, .take v n idx w ∉ es) →
      CountRely u ⟨(), g, h⟩ ⟨(), g', h ++ es⟩ := fun u hquiet hopen =>
    ⟨⟨es, rfl, hquiet⟩, hchain ▸ List.prefix_refl _, fun n hn => (hdeq n hn).ge, henq,
      fun n hn hnone => (hnext n hn).symm.trans hnone, hhead'.mpr, htail',
      fun hb => (returnedBefore_append fun v hv => (hes.call hv).1 u hb).mp,
      fun hcl hno v w hmem => (List.mem_append.mp hmem).elim (hno v w) (hopen hcl v w)⟩
  refine ⟨{ deq := ?deq, enq := ?enq, claim := ?claim, claimed := ?claimed, claimOnce := ?claimOnce,
            take := ?take, put := ?put, passed := ?passed, returned := ?returned, order := ?order },
    hl fun hquiet hno => hrely t hquiet fun _ v w => hno v _ _ w, fun u hu =>
      hrely u (hes.boundary u hu) fun hcl v w hmem => ?_⟩
  case deq =>
    intro n hn
    rw [hchain] at hn
    exact (hs.deq n hn).trans (hdeq n hn).ge
  case enq =>
    intro n hn
    rw [hchain] at hn
    exact (hs.enq n hn).trans (henq n hn)
  case claim =>
    intro u n idx hn
    obtain ⟨hidx, hlt, q, hq, hfrom⟩ := hs.claim (hclaim.mp hn)
    exact ⟨hidx, lt_of_lt_of_le hlt (hdeq n hq.mem).ge, q, hat.mpr hq, hhead'.mpr hfrom⟩
  case claimed =>
    intro n idx hn hidx hlt
    rw [hchain] at hn
    exact (hs.claimed hn hidx (lt_of_lt_of_le hlt (hdeq n hn).le)).append es
  case claimOnce =>
    exact fun hn hm => hs.claimOnce (hclaim.mp hn) (hclaim.mp hm)
  case take =>
    intro u n idx v hn
    rw [hclaim]
    rcases List.mem_append.mp hn with hn | hn
    · exact hs.take hn
    · obtain ⟨rfl, hcl⟩ := hes.take hn
      exact hcl
  case put =>
    intro a n idx hn
    rcases put_append.mp hn with hn | hn
    · exact lt_of_lt_of_le (hs.put hn) (henq n (hput hn))
    · exact (hes.put hn).1
  case passed =>
    intro n p k hk hp hn
    rw [hat] at hk hn
    exact (hs.passed (hhead ▸ hk) hp hn).trans (hdeq n hn.mem).ge
  case returned =>
    intro u a hn
    have harrived : Arrived ⟨(), g, h⟩ a := by
      rcases List.mem_append.mp hn with hn | hn
      · exact hs.returned hn
      · exact hes.ret hn
    obtain ⟨n, idx, q, hn', hq, hfrom⟩ := harrived
    exact ⟨n, idx, q, hold hn', hat.mpr hq, htail' hfrom⟩
  case order =>
    intro a b m j hab hb
    by_cases hcall : ∃ u, .call u (.enqueue b) ∈ es
    · obtain ⟨u, hu⟩ := hcall
      exact absurd hb ((hes.call hu).2 m j)
    · rw [returnedBefore_append fun u hu => hcall ⟨u, hu⟩] at hab
      have hbefore : ∃ n idx, Put h a n idx ∧ CellBefore h n idx m j := by
        rcases put_append.mp hb with hb | hb
        · exact hs.order hab hb
        · exact (hes.put hb).2 a hab
      obtain ⟨n, idx, hn, hlt⟩ := hbefore
      exact ⟨n, idx, hold hn, hlt.mono (hchain ▸ List.prefix_refl _)⟩
  · obtain ⟨rfl, hcl'⟩ := hes.take hmem
    exact hu (hs.claimOnce hcl hcl')

/-- Events of thread `t` that put nothing, take nothing and return nothing. -/
def Event.Plain (t : Tid) : Event → Prop
  | .alloc u _ | .stampEnq u _ _ | .stampDeq u _ _ | .retDeq u _ | .call u .dequeue => u = t
  | _ => False

theorem events_plain {w w' : W} (hes : ∀ e ∈ es, e.Plain t) : Events t w w' es where
  link := List.filterMap_eq_nil_iff.mpr fun e he => by
    have := hes e he
    cases e <;> first | rfl | exact absurd this id
  claim _ _ _ hmem := hes _ hmem
  take hmem := (hes _ hmem).elim
  put hput := by
    rcases hput with ⟨u, hu⟩ | ⟨-, u, hu⟩
    · exact (hes _ hu).elim
    · exact (hes _ hu).elim
  ret hmem := (hes _ hmem).elim
  call hmem := (hes _ hmem).elim
  boundary u hu e he hb := by
    have := hes e he
    cases e with
    | call v op =>
        cases op with
        | enqueue a => exact this
        | dequeue => exact hu (hb.symm.trans this)
    | retDeq v _ => exact hu (hb.symm.trans this)
    | retEnq => exact this
    | _ => exact hb

/-- A step that writes neither the nodes nor `head` nor `tail`. -/
theorem counts_of_eq (hw : Glob L ⟨(), g, h⟩) (hs : Counts L ⟨(), g, h⟩)
    (hes : Events t ⟨(), g, h⟩ ⟨(), g', h ++ es⟩ es) (hnodes : g'.nodes = g.nodes)
    (hhead : g'.head = g.head) (htail : g'.tail = g.tail)
    (hl : ((∀ e ∈ es, ¬ e.Boundary t) → (∀ u n idx v, .take u n idx v ∉ es) →
      CountRely t ⟨(), g, h⟩ ⟨(), g', h ++ es⟩) → CountLoc L ⟨(), g', h ++ es⟩ t l) :
    CountsPreserved L t ⟨(), g, h⟩ g' l es := by
  refine counts_step hs hes (fun n _ => by rw [hnodes]) (fun n _ => by rw [hnodes])
    (fun hn => (hw.put hn).1) (fun n _ => by rw [nextPtr, hnodes, nextPtr]) hhead (fun hq => ?_) hl
  obtain ⟨k, hk, hat⟩ := hq
  exact ⟨k, hk, htail ▸ hat⟩

theorem Glob.at_unique {w : W} (hw : Glob L w) {n p q : Nat} (hp : At w.history n p)
    (hq : At w.history n q) : p = q :=
  hw.linked.index_unique hp hq

/-- A compare-and-swap on `tail`, from a node to the one behind it. -/
theorem casTail_counts (hw : Glob L ⟨(), g, h⟩) (hs : Counts L ⟨(), g, h⟩) {n m : Nat}
    (hl : Linking ⟨(), g, h⟩ n m)
    (hloc : ∀ g', CountRely t ⟨(), g, h⟩ ⟨(), g', h ++ []⟩ →
      (∀ q, At h n q → TailFrom ⟨(), g, h⟩ q → TailFrom ⟨(), g', h ++ []⟩ (q + 1)) →
      CountLoc L ⟨(), g', h ++ []⟩ t l) :
    CountsPreserved L t ⟨(), g, h⟩ (if g.tail = n then { g with tail := m } else g) l [] := by
  obtain ⟨p, hn, hm⟩ := hl
  by_cases htail : g.tail = n
  · rw [if_pos htail]
    have hstep : ∀ {q}, TailFrom ⟨(), g, h⟩ q → TailFrom ⟨(), { g with tail := m }, h⟩ q := by
      rintro q ⟨k, hk, hat⟩
      obtain rfl : k = p := hw.at_unique (htail ▸ hat) hn
      exact ⟨k + 1, Nat.le_succ_of_le hk, hm⟩
    refine counts_step hs (events_plain (by simp)) (fun _ _ => rfl) (fun _ _ => le_rfl)
      (fun hput => (hw.put hput).1) (fun _ _ => rfl) rfl hstep fun hr =>
        hloc _ (hr (by simp) (by simp)) fun q hq _ => ?_
    obtain rfl : q = p := hw.at_unique hq hn
    exact ⟨q + 1, le_rfl, by simpa using hm⟩
  · rw [if_neg htail]
    refine counts_of_eq hw hs (events_plain (by simp)) rfl rfl rfl fun hr =>
      hloc _ (hr (by simp) (by simp)) fun q hq hfrom => ?_
    obtain ⟨k, hk, hat⟩ := hfrom
    have hne : q ≠ k := by
      rintro rfl
      exact htail (Option.some.inj (hat.symm.trans hq))
    exact ⟨k, by omega, by simpa using hat⟩

/-- Events of thread `t` that put nothing, take nothing, return nothing and call nothing: none. -/
theorem events_nil {w w' : W} : Events t w w' [] := events_plain (by simp)

/-- If `lhead` is the last node, `head` has reached it, and all its cells with an item are drawn,
then every item is in a cell that was claimed. -/
theorem allClaimed_of_last (hw : Glob L ⟨(), g, h⟩) (hs : Counts L ⟨(), g, h⟩) {lhead : Nat}
    (hhead : ∃ q, At h lhead q ∧ HeadFrom ⟨(), g, h⟩ q) (hlast : nextPtr g lhead = none)
    (hdrawn : ∀ idx, InNode L idx → idx < (g.nodes lhead).enqidx → idx < (g.nodes lhead).deqidx) :
    AllClaimed h := by
  intro u a hret
  obtain ⟨n, idx, p, hput, hn, -⟩ := hs.returned hret
  obtain ⟨-, hidx, -⟩ := hw.put hput
  refine ⟨n, idx, hput, hs.claimed hn.mem hidx ?_⟩
  obtain ⟨q, hq, k, hk, hat⟩ := hhead
  have hlen : (chain h).length = q + 1 := hw.linked.length_of_next_none hq hlast
  have hp : p < (chain h).length := (List.getElem?_eq_some_iff.mp hn).1
  rcases Nat.lt_or_ge p q with hlt | hge
  · have := hs.passed hat (lt_of_lt_of_le hlt hk) hn
    have := hidx.2
    omega
  · obtain rfl : p = q := by omega
    obtain rfl : n = lhead := Option.some.inj (hn.symm.trans hq)
    exact hdrawn idx hidx (hs.put hput)

/-- A fetch-and-add on `deqidx` draws the index `deqidx` of the node, if it is one of a cell. -/
theorem draw_counts (hs : Counts L ⟨(), g, h⟩) {lhead : Nat}
    (hhead : OnHead ⟨(), g, h⟩ t lhead)
    (hes : es = if (g.nodes lhead).deqidx < L.size then [.claim t lhead (g.nodes lhead).deqidx]
      else [])
    (hl : CountRely t ⟨(), g, h⟩ ⟨(), g.setNode lhead
        { g.nodes lhead with deqidx := (g.nodes lhead).deqidx + 1 }, h ++ es⟩ →
      CountLoc L ⟨(), g.setNode lhead
        { g.nodes lhead with deqidx := (g.nodes lhead).deqidx + 1 }, h ++ es⟩ t l) :
    CountsPreserved L t ⟨(), g, h⟩
      (g.setNode lhead { g.nodes lhead with deqidx := (g.nodes lhead).deqidx + 1 }) l es := by
  set idx := (g.nodes lhead).deqidx with hidx
  set g' := g.setNode lhead { g.nodes lhead with deqidx := idx + 1 } with hg'
  obtain ⟨hcall, q, hq, hfrom⟩ := hhead
  have hmem : ∀ e, e ∈ es ↔ idx < L.size ∧ e = .claim t lhead idx := by
    intro e
    rw [hes]
    split <;> simp_all
  have hquiet : ∀ e ∈ es, e.Quiet := fun e he => by
    obtain ⟨-, rfl⟩ := (hmem e).mp he
    trivial
  have hchain : chain (h ++ es) = chain h := chain_quiet hquiet
  have hat : ∀ {n q}, At (h ++ es) n q ↔ At h n q := by simp [At, hchain]
  have hput : ∀ {a n j}, Put (h ++ es) a n j ↔ Put h a n j := put_quiet hquiet
  have htake : ∀ {u n j v}, .take u n j v ∈ h ++ es ↔ .take u n j v ∈ h := mem_quiet hquiet id
  have hclaim : ∀ {u n j}, .claim u n j ∈ h ++ es ↔
      .claim u n j ∈ h ∨ idx < L.size ∧ u = t ∧ n = lhead ∧ j = idx := by
    intro u n j
    rw [List.mem_append, hmem]
    simp
  have hhead' : ∀ {q}, HeadFrom ⟨(), g', h ++ es⟩ q ↔ HeadFrom ⟨(), g, h⟩ q := by
    simp [HeadFrom, hat, hg']
  have htail' : ∀ {q}, TailFrom ⟨(), g', h ++ es⟩ q ↔ TailFrom ⟨(), g, h⟩ q := by
    simp [TailFrom, hat, hg']
  have hret : ∀ {u a}, .retEnq u a ∈ h ++ es ↔ .retEnq u a ∈ h := by
    intro u a
    rw [List.mem_append, hmem]
    simp
  have hreturned : ∀ {a b}, ReturnedBefore (h ++ es) a b ↔ ReturnedBefore h a b :=
    returnedBefore_append fun u hu => by simpa using (hmem _).mp hu
  have hdeq : ∀ n, (g.nodes n).deqidx ≤ (g'.nodes n).deqidx := by
    intro n
    by_cases hn : n = lhead
    · subst hn
      simp [hg', hidx]
    · simp [hg', hn]
  have henq : ∀ n, (g'.nodes n).enqidx = (g.nodes n).enqidx := by
    intro n
    by_cases hn : n = lhead
    · subst hn
      simp [hg']
    · simp [hg', hn]
  have hnext : ∀ n, nextPtr g' n = nextPtr g n := by
    intro n
    by_cases hn : n = lhead
    · subst hn
      simp [nextPtr, hg']
    · simp [nextPtr, hg', hn]
  -- The index is drawn for the first time.
  have hnew : ∀ u, .claim u lhead idx ∉ h := fun u hu => by
    obtain ⟨-, hlt, -⟩ := hs.claim hu
    exact absurd hlt (lt_irrefl _)
  have hrely : ∀ u, CountRely u ⟨(), g, h⟩ ⟨(), g', h ++ es⟩ := fun u =>
    ⟨⟨es, rfl, fun e he hb => by
        obtain ⟨-, rfl⟩ := (hmem e).mp he
        exact hb⟩,
      hchain ▸ List.prefix_refl _, fun n _ => hdeq n, fun n _ => (henq n).ge,
      fun n _ hnone => (hnext n).symm.trans hnone, hhead'.mpr, htail'.mpr,
      fun _ => hreturned.mp, fun _ hno v w hv => hno v w (htake.mp hv)⟩
  refine ⟨{ deq := ?deq, enq := ?enq, claim := ?claim, claimed := ?claimed, claimOnce := ?claimOnce,
            take := ?take, put := ?put, passed := ?passed, returned := ?returned, order := ?order },
    hl (hrely t), fun u _ => hrely u⟩
  case deq =>
    intro n hn
    rw [hchain] at hn
    exact (hs.deq n hn).trans (hdeq n)
  case enq =>
    intro n hn
    rw [hchain] at hn
    exact (hs.enq n hn).trans (henq n).ge
  case claim =>
    intro u n j hn
    rcases hclaim.mp hn with hn | ⟨hlt, -, rfl, rfl⟩
    · obtain ⟨hj, hlt, p, hp, hpfrom⟩ := hs.claim hn
      exact ⟨hj, hlt.trans_le (hdeq n), p, hat.mpr hp, hhead'.mpr hpfrom⟩
    · exact ⟨⟨hs.deq n hq.mem, hlt⟩, by simp [hg'], q, hat.mpr hq, hhead'.mpr hfrom⟩
  case claimed =>
    intro n j hn hj hlt
    rw [hchain] at hn
    by_cases hnew' : n = lhead ∧ j = idx
    · obtain ⟨rfl, rfl⟩ := hnew'
      rw [hes, if_pos hj.2]
      exact hcall.claimed n idx
    · refine (hs.claimed hn hj ?_).append es
      by_cases heq : n = lhead
      · subst heq
        have hne : j ≠ idx := fun hji => hnew' ⟨rfl, hji⟩
        have hraised : (g'.nodes n).deqidx = idx + 1 := by simp [hg']
        have hle : j ≤ idx := Int.lt_add_one_iff.mp (hraised ▸ hlt)
        exact lt_of_le_of_ne hle hne
      · simpa [hg', heq] using hlt
  case claimOnce =>
    intro u v n j hu hv
    rcases hclaim.mp hu with hu' | ⟨-, rfl, rfl, rfl⟩ <;>
      rcases hclaim.mp hv with hv' | ⟨-, rfl, hn, hj⟩
    · exact hs.claimOnce hu' hv'
    · exact absurd (hj ▸ hn ▸ hu') (hnew u)
    · exact absurd hv' (hnew v)
    · rfl
  case take =>
    exact fun hn => hclaim.mpr (.inl (hs.take (htake.mp hn)))
  case put =>
    exact fun hn => (henq _).symm ▸ hs.put (hput.mp hn)
  case passed =>
    intro n p k hk hp hn
    rw [hat] at hk hn
    exact (hs.passed hk hp hn).trans (hdeq n)
  case returned =>
    intro u a hn
    obtain ⟨n, j, p, hput', hp, hpfrom⟩ := hs.returned (hret.mp hn)
    exact ⟨n, j, p, hput.mpr hput', hat.mpr hp, htail'.mpr hpfrom⟩
  case order =>
    intro a b m j hab hb
    obtain ⟨n, i, hput', hlt⟩ := hs.order (hreturned.mp hab) (hput.mp hb)
    exact ⟨n, i, hput.mpr hput', hlt.mono (hchain ▸ List.prefix_refl _)⟩

/-- The compare-and-swap on `next` puts the item in a node behind all others. -/
theorem link_counts (hw : Glob L ⟨(), g, h⟩) (hs : Counts L ⟨(), g, h⟩) {a ltail n : Nat}
    (hown : Private L ⟨(), g, h⟩ t n a) (htail : OnTail ⟨(), g, h⟩ t a ltail)
    (hlast : (g.nodes ltail).next = none) :
    CountsPreserved L t ⟨(), g, h⟩ (g.setNode ltail { g.nodes ltail with next := some n })
      (.enqNowLinked a ltail n) [.link t n a] := by
  obtain ⟨q, hq, hfrom⟩ := htail.tail
  obtain ⟨offset, hnode⟩ : ∃ offset, g.nodes n = newNode L (.item a) offset := hown.node
  set g' := g.setNode ltail { g.nodes ltail with next := some n } with hg'
  have hne : n ≠ ltail := fun heq => hown.notMem (heq ▸ hq.mem)
  have hchain : chain (h ++ [.link t n a]) = chain h ++ [n] := by simp [chain_append, linkedNode]
  have hprefix : chain h <+: chain (h ++ [.link t n a]) := ⟨[n], hchain.symm⟩
  have hlen : (chain h).length = q + 1 := hw.linked.length_of_next_none hq hlast
  have hnew : At (h ++ [.link t n a]) n (q + 1) := by simp [At, hchain, hlen]
  have hold : ∀ {m k}, At (h ++ [.link t n a]) m k → At h m k ∨ m = n ∧ k = q + 1 := by
    intro m k hm
    rcases Nat.lt_or_ge k (chain h).length with hk | hk
    · exact .inl (by rwa [At, hchain, List.getElem?_append_left hk] at hm)
    · rw [At, hchain, List.getElem?_append_right hk, List.getElem?_singleton] at hm
      split at hm
      · exact .inr ⟨by simpa using hm.symm, by omega⟩
      · cases hm
  have hheadAt : ∀ {k}, At (h ++ [.link t n a]) g.head k → At h g.head k := by
    intro k hk
    refine (hold hk).resolve_right fun hnew => ?_
    obtain ⟨heq, -⟩ := hnew
    obtain ⟨p, hp⟩ := hw.head
    exact hown.notMem (heq ▸ At.mem hp)
  have hhead' : ∀ {k}, HeadFrom ⟨(), g, h⟩ k → HeadFrom ⟨(), g', h ++ [.link t n a]⟩ k := by
    rintro _ ⟨k, hk, hat⟩
    exact ⟨k, hk, hat.mono hprefix⟩
  have htail' : ∀ {k}, TailFrom ⟨(), g, h⟩ k → TailFrom ⟨(), g', h ++ [.link t n a]⟩ k := by
    rintro _ ⟨k, hk, hat⟩
    exact ⟨k, hk, hat.mono hprefix⟩
  have hput : ∀ {b m j}, Put (h ++ [.link t n a]) b m j →
      Put h b m j ∨ b = a ∧ m = n ∧ j = 0 := by
    intro b m j hm
    rcases put_append.mp hm with hm | ⟨u, hu⟩ | ⟨rfl, u, hu⟩
    · exact .inl hm
    · simp at hu
    · obtain ⟨-, rfl, rfl⟩ : u = t ∧ m = n ∧ b = a := by simpa using hu
      exact .inr ⟨rfl, rfl, rfl⟩
  have hputOld : ∀ {b m j}, Put h b m j → Put (h ++ [.link t n a]) b m j :=
    fun hm => put_append.mpr (.inl hm)
  have hreturned : ∀ {b c}, ReturnedBefore (h ++ [.link t n a]) b c ↔ ReturnedBefore h b c :=
    returnedBefore_append (by simp)
  have hdeq : ∀ m, (g'.nodes m).deqidx = (g.nodes m).deqidx := by
    intro m
    by_cases hm : m = ltail
    · subst hm
      simp [hg']
    · simp [hg', hm]
  have henq : ∀ m, (g'.nodes m).enqidx = (g.nodes m).enqidx := by
    intro m
    by_cases hm : m = ltail
    · subst hm
      simp [hg']
    · simp [hg', hm]
  have hmem : ∀ {m}, m ∈ chain (h ++ [.link t n a]) → m ∈ chain h ∨ m = n := by
    intro m hm
    rw [hchain] at hm
    exact (List.mem_append.mp hm).imp_right List.mem_singleton.mp
  have hrely : ∀ u, CountRely u ⟨(), g, h⟩ ⟨(), g', h ++ [.link t n a]⟩ := by
    refine fun u => ⟨⟨_, rfl, by simp [Event.Boundary]⟩, hprefix, fun m _ => (hdeq m).ge,
      fun m _ => (henq m).ge, fun m _ hnone => ?_, hhead', htail', fun _ => hreturned.mp,
      fun _ hno v w hv => hno v w (by simpa using hv)⟩
    by_cases hm : m = ltail
    · subst hm
      simp [nextPtr, hg'] at hnone
    · simpa [nextPtr, hg', hm] using hnone
  refine ⟨{ deq := ?deq, enq := ?enq, claim := ?claim, claimed := ?claimed, claimOnce := ?claimOnce,
            take := ?take, put := ?put, passed := ?passed, returned := ?returned, order := ?order },
    (hrely t).reached htail.tail,
    fun u _ => hrely u⟩
  case deq =>
    intro m hm
    rw [hdeq]
    rcases hmem hm with hm | rfl
    · exact hs.deq m hm
    · simp [hnode, newNode]
  case enq =>
    intro m hm
    rw [henq]
    rcases hmem hm with hm | rfl
    · exact hs.enq m hm
    · simp [hnode, newNode]
  case claim =>
    intro u m j hm
    obtain ⟨hj, hlt, p, hp, hpfrom⟩ := hs.claim (show .claim u m j ∈ h by simpa using hm)
    exact ⟨hj, (hdeq m).symm ▸ hlt, p, hp.mono hprefix, hhead' hpfrom⟩
  case claimed =>
    intro m j hm hj hlt
    rw [hdeq] at hlt
    rcases hmem hm with hm | rfl
    · exact (hs.claimed hm hj hlt).append _
    · have hzero : (g.nodes m).deqidx = 0 := by simp [hnode, newNode]
      exact absurd hj.1 (by omega)
  case claimOnce =>
    intro u v m j hu hv
    have hu' : .claim u m j ∈ h := by simpa using hu
    have hv' : .claim v m j ∈ h := by simpa using hv
    exact hs.claimOnce hu' hv'
  case take =>
    intro u m j v hu
    have htake : .claim u m j ∈ h := hs.take (v := v) (by simpa using hu)
    simp [htake]
  case put =>
    intro b m j hm
    rw [henq]
    rcases hput hm with hm | ⟨rfl, rfl, rfl⟩
    · exact hs.put hm
    · simp [hnode, newNode]
  case passed =>
    intro m p k hk hp hm
    rw [hdeq]
    have hk' : At h g.head k := hheadAt hk
    refine hs.passed hk' hp ((hold hm).resolve_right fun hnew => ?_)
    obtain ⟨-, heq⟩ := hnew
    have hklt : k < (chain h).length := (List.getElem?_eq_some_iff.mp hk').1
    omega
  case returned =>
    intro u b hb
    obtain ⟨m, j, p, hm, hp, hpfrom⟩ := hs.returned (t := u) (a := b) (by simpa using hb)
    exact ⟨m, j, p, hputOld hm, hp.mono hprefix, htail' hpfrom⟩
  case order =>
    intro b c m j hbc hc
    rw [hreturned] at hbc
    rcases hput hc with hc | ⟨rfl, rfl, rfl⟩
    · obtain ⟨k, i, hk, hlt⟩ := hs.order hbc hc
      exact ⟨k, i, hputOld hk, hlt.mono hprefix⟩
    · obtain ⟨k, i, p, p', hk, hp, hp', hle⟩ := htail.order b hbc
      obtain rfl : p' = q := hw.at_unique hp' hq
      exact ⟨k, i, hputOld hk, p, p' + 1, hp.mono hprefix, hnew, .inl (Nat.lt_succ_of_le hle)⟩

/-- The compare-and-swap on `head`, past a node all of whose cells are drawn. -/
theorem casHead_counts (hw : Glob L ⟨(), g, h⟩) (hs : Counts L ⟨(), g, h⟩) {n m : Nat}
    (hl : Linking ⟨(), g, h⟩ n m) (hdrained : L.size ≤ (g.nodes n).deqidx) (hhead : g.head = n)
    (hloc : CountRely t ⟨(), g, h⟩ ⟨(), { g with head := m }, h ++ []⟩ →
      CountLoc L ⟨(), { g with head := m }, h ++ []⟩ t l) :
    CountsPreserved L t ⟨(), g, h⟩ { g with head := m } l [] := by
  obtain ⟨p, hn, hm⟩ := hl
  have hhead' : ∀ {q}, HeadFrom ⟨(), g, h⟩ q → HeadFrom ⟨(), { g with head := m }, h⟩ q := by
    rintro q ⟨k, hk, hat⟩
    obtain rfl : k = p := hw.at_unique (hhead ▸ hat) hn
    exact ⟨k + 1, Nat.le_succ_of_le hk, hm⟩
  have hrely : ∀ u, CountRely u ⟨(), g, h⟩ ⟨(), { g with head := m }, h ++ []⟩ := by
    rw [List.append_nil]
    exact fun u => ⟨⟨[], by simp, by simp⟩, List.prefix_refl _, fun _ _ => le_rfl,
      fun _ _ => le_rfl, fun _ _ hnone => hnone, hhead', fun hq => hq, fun _ hb => hb,
      fun _ hno => hno⟩
  refine ⟨?_, hloc (hrely t), fun u _ => hrely u⟩
  rw [List.append_nil]
  refine ⟨hs.deq, hs.enq, fun hc => ?_, hs.claimed, hs.claimOnce, hs.take, hs.put, ?_, hs.returned,
    hs.order⟩
  · obtain ⟨hj, hlt, q, hq, hfrom⟩ := hs.claim hc
    exact ⟨hj, hlt, q, hq, hhead' hfrom⟩
  · intro k q r hr hlt hk
    obtain rfl : r = p + 1 := hw.at_unique hr hm
    rcases Nat.lt_succ_iff_lt_or_eq.mp hlt with hq | rfl
    · exact hs.passed (hhead ▸ hn) hq hk
    · obtain rfl : k = n := Option.some.inj (hk.symm.trans hn)
      exact hdrained

/-- A step that writes neither the nodes nor `head` nor `tail`, inside a call. -/
theorem counts_inside (hw : Glob L ⟨(), g, h⟩) (hs : Counts L ⟨(), g, h⟩)
    (hplain : ∀ e ∈ es, e.Plain t) (hinside : ∀ e ∈ es, ¬ e.Boundary t)
    (hnodes : g'.nodes = g.nodes) (hhead : g'.head = g.head) (htail : g'.tail = g.tail)
    (hl : CountRely t ⟨(), g, h⟩ ⟨(), g', h ++ es⟩ → CountLoc L ⟨(), g', h ++ es⟩ t l) :
    CountsPreserved L t ⟨(), g, h⟩ g' l es :=
  counts_of_eq hw hs (events_plain hplain) hnodes hhead htail fun hr =>
    hl (hr hinside fun _ _ _ _ hmem => (hplain _ hmem).elim)

/-- A call to enqueue an item nobody has enqueued before. -/
theorem call_counts (hw : Glob L ⟨(), g, h⟩) (hs : Counts L ⟨(), g, h⟩) {a : Nat}
    (hfresh : ∀ u, .call u (.enqueue a) ∉ h) :
    CountsPreserved L t ⟨(), g, h⟩ g (.enqProtect a none) [.call t (.enqueue a)] := by
  refine counts_of_eq hw hs ⟨rfl, by simp, by simp, by simp [Put], by simp, fun {u b} hmem => ?_,
    fun u hu e he hb => ?_⟩ rfl rfl rfl fun _ => trivial
  · obtain ⟨-, rfl⟩ : u = t ∧ b = a := by simpa using hmem
    refine ⟨hfresh, fun m j hput => ?_⟩
    have hput' : Put h b m j := by simpa [Put] using hput
    obtain ⟨-, -, ⟨v, hv⟩, -⟩ := hw.put hput'
    exact hfresh v hv
  · obtain rfl := List.mem_singleton.mp he
    exact hu hb.symm

/-- A return from enqueuing an item. -/
theorem return_counts (hw : Glob L ⟨(), g, h⟩) (hs : Counts L ⟨(), g, h⟩) {a : Nat}
    (harrived : Arrived ⟨(), g, h⟩ a) (hnodes : g'.nodes = g.nodes) (hhead : g'.head = g.head)
    (htail : g'.tail = g.tail) :
    CountsPreserved L t ⟨(), g, h⟩ g' .idle [.retEnq t a] := by
  refine counts_of_eq hw hs ⟨rfl, by simp, by simp, by simp [Put], fun {u b} hmem => ?_, by simp,
    fun u hu e he hb => ?_⟩ hnodes hhead htail fun _ => trivial
  · obtain ⟨-, rfl⟩ : u = t ∧ b = a := by simpa using hmem
    exact harrived
  · obtain rfl := List.mem_singleton.mp he
    exact hu hb.symm

/-- `tail` is read by a call that has not put its item yet. -/
theorem Pending.onTail (hw : Glob L ⟨(), g, h⟩) (hs : Counts L ⟨(), g, h⟩) {a : Nat}
    (hpending : Pending ⟨(), g, h⟩ t a) : OnTail ⟨(), g, h⟩ t a g.tail where
  call := hpending.call
  tail := by
    obtain ⟨q, hq⟩ := hw.tail
    exact ⟨q, hq, q, le_rfl, hq⟩
  order b hb := by
    obtain ⟨before, v, u, hle, hmem⟩ := hb
    have hret : .retEnq v b ∈ h := hle.subset (List.mem_append_left _ hmem)
    obtain ⟨n, idx, p, hput, hn, k, hk, hat⟩ := hs.returned hret
    exact ⟨n, idx, p, k, hput, hn, hat, hk⟩

/-- A write to `enqidx` that raises it. -/
theorem raise_counts (hw : Glob L ⟨(), g, h⟩) (hs : Counts L ⟨(), g, h⟩) {n : Nat} {k : Int}
    (hk : (g.nodes n).enqidx ≤ k)
    (hl : CountRely t ⟨(), g, h⟩ ⟨(), g.setNode n { g.nodes n with enqidx := k }, h ++ []⟩ →
      CountLoc L ⟨(), g.setNode n { g.nodes n with enqidx := k }, h ++ []⟩ t l) :
    CountsPreserved L t ⟨(), g, h⟩ (g.setNode n { g.nodes n with enqidx := k }) l [] := by
  refine counts_step hs events_nil (fun m _ => ?_) (fun m _ => ?_) (fun hput => (hw.put hput).1)
    (fun m _ => ?_) rfl (fun hq => hq) fun hr => hl (hr (by simp) (by simp))
  all_goals
    by_cases hm : m = n
    · subst hm
      simp [nextPtr, hk]
    · simp [nextPtr, hm]

/-- The fetch-and-add on `enqidx` draws an index behind those of the items that came before. -/
theorem OnTail.drawn (hs : Counts L ⟨(), g, h⟩) {a ltail : Nat}
    (htail : OnTail ⟨(), g, h⟩ t a ltail)
    (hr : CountRely t ⟨(), g, h⟩ ⟨(), g', h ++ []⟩)
    (hlt : (g.nodes ltail).enqidx < (g'.nodes ltail).enqidx) :
    Drawn ⟨(), g', h ++ []⟩ t a ltail (g.nodes ltail).enqidx where
  call := hr.mem htail.call
  tail := hr.reached htail.tail
  lt := hlt
  order b hb := by
    obtain ⟨n, idx, p, q, hput, hn, hq, hle⟩ := htail.order b (hr.calls htail.call hb)
    refine ⟨n, idx, hput.mono hr.mem, p, q, hn.mono hr.chain, hq.mono hr.chain, ?_⟩
    rcases Nat.lt_or_eq_of_le hle with hlt | rfl
    · exact .inl hlt
    · obtain rfl : n = ltail := Option.some.inj (hn.symm.trans hq)
      exact .inr ⟨rfl, hs.put hput⟩

/-- The compare-and-swap on a cell puts the item at the index drawn. -/
theorem fill_counts (hw : Glob L ⟨(), g, h⟩) (hs : Counts L ⟨(), g, h⟩) {a n : Nat} {idx : Int}
    (hd : Drawn ⟨(), g, h⟩ t a n idx) :
    CountsPreserved L t ⟨(), g, h⟩ (g.setCell L n idx (.item a)) (.enqNowCell a)
      [.fill t a n idx] := by
  obtain ⟨q, hq, hfrom⟩ := hd.tail
  refine counts_step hs ⟨rfl, by simp, by simp, fun {b m j} hput => ?_, by simp, by simp,
    by simp [Event.Boundary]⟩ (fun m _ => by simp) (fun m _ => by simp)
    (fun hput => (hw.put hput).1) (fun m _ => by simp [nextPtr]) rfl (fun hq => hq) fun hr =>
      ⟨n, idx, q, .inl ⟨t, by simp⟩, hq.mono (hr (by simp [Event.Boundary]) (by simp)).chain,
        (hr (by simp [Event.Boundary]) (by simp)).tail hfrom⟩
  obtain ⟨rfl, rfl, rfl⟩ : b = a ∧ m = n ∧ j = idx := by simpa [Put] using hput
  exact ⟨by simpa using hd.lt, hd.order⟩

/-- The exchange takes out what the cell of a drawn index holds, which is not the marker. -/
theorem take_counts (hw : Glob L ⟨(), g, h⟩) (hs : Counts L ⟨(), g, h⟩) {n : Nat} {idx : Int}
    {v : Slot} (ho : Open ⟨(), g, h⟩ t n idx) (hidx : InNode L idx) (hv : g.cell L n idx = v)
    (hl : OnHead ⟨(), g.setCell L n idx .taken, h ++ [.take t n idx v]⟩ t n → v ≠ .taken →
      CountLoc L ⟨(), g.setCell L n idx .taken, h ++ [.take t n idx v]⟩ t l) :
    CountsPreserved L t ⟨(), g, h⟩ (g.setCell L n idx .taken) l [.take t n idx v] := by
  obtain ⟨hcall, q, hq, k, hk, hat⟩ := ho.head
  have hchain : chain h <+: chain (h ++ [.take t n idx v]) := by
    rw [chain_append]
    exact List.prefix_append _ _
  have hhead : OnHead ⟨(), g.setCell L n idx .taken, h ++ [.take t n idx v]⟩ t n :=
    ⟨hcall.append (by simp [Event.Boundary]), q, hq.mono hchain, k, hk, hat.mono hchain⟩
  have hfirst : v ≠ .taken := by
    rintro rfl
    obtain ⟨u, w, hu⟩ := hw.takenCell hq.mem hidx hv
    exact ho.take u w hu
  refine counts_step hs ⟨rfl, by simp, fun {u m j w} hmem => ?_, by simp [Put], by simp, by simp,
    by simp [Event.Boundary]⟩ (fun m _ => by simp) (fun m _ => by simp)
    (fun hput => (hw.put hput).1) (fun m _ => by simp [nextPtr]) rfl (fun hq => hq)
    fun _ => hl hhead hfirst
  obtain ⟨rfl, rfl, rfl, -⟩ : u = t ∧ m = n ∧ j = idx ∧ w = v := by simpa using hmem
  exact ⟨rfl, ho.claim⟩

theorem loc_afterScan_counts {w : W} {scan : Option HazardPointers.Scan}
    (hd : InDequeue w.history t) : CountLoc L w t (afterScan scan) := by
  cases scan <;> exact hd

/-- The counter that a fetch-and-add is about to increment is below the largest `int`. -/
def NoWrapAt (g : Shared) : Local → Prop
  | .enqFetchAdd _ ltail => (g.nodes ltail).enqidx < 2 ^ 31 - 1
  | .deqFetchAdd lhead => (g.nodes lhead).deqidx < 2 ^ 31 - 1
  | _ => True

theorem succ32_eq {i : Int} (h0 : 0 ≤ i) (hi : i < 2 ^ 31 - 1) : succ32 i = i + 1 := by
  have hcast : ((2 ^ 32 : Nat) : Int) = 4294967296 := rfl
  rw [succ32, Int.bmod_def, hcast]
  omega

/-! One lemma for each control state with more than one way on. -/

section States

variable {maxThreads : Nat} {i : Input} (hw : Glob L ⟨(), g, h⟩) (hs : Counts L ⟨(), g, h⟩)

include hw hs

theorem idle_counts (hfresh : ∀ a, i.op = some (.enqueue a) → ∀ u, .call u (.enqueue a) ∉ h) :
    Leads (CountsPreserved L t ⟨(), g, h⟩) (step L maxThreads t i g .idle) := by
  refine .map fun op hop => ?_
  cases op with
  | enqueue a => exact call_counts hw hs (hfresh a hop)
  | dequeue =>
      exact counts_of_eq hw hs (events_plain (by simp [Event.Plain])) rfl rfl rfl fun _ =>
        ⟨h, [], rfl, by simp⟩

theorem enqProtect_counts {a : Nat} {n : Option Nat} (hpending : Pending ⟨(), g, h⟩ t a) :
    Leads (CountsPreserved L t ⟨(), g, h⟩) (step L maxThreads t i g (.enqProtect a n)) := by
  refine .ite (fun _ => .into ?_) fun _ => .into ?_
  · exact counts_inside hw hs (by simp) (by simp) rfl rfl rfl fun hr =>
      hr.onTail (hpending.onTail hw hs)
  · exact counts_inside hw hs (by simp) (by simp) rfl rfl rfl fun _ => trivial

theorem enqFetchAdd_counts {a ltail : Nat} (hwrap : NoWrapAt g (.enqFetchAdd a ltail))
    (hl : CountLoc L ⟨(), g, h⟩ t (.enqFetchAdd a ltail)) :
    Leads (CountsPreserved L t ⟨(), g, h⟩) (step L maxThreads t i g (.enqFetchAdd a ltail)) := by
  obtain ⟨q, hq, -⟩ := hl.tail
  have hsucc : succ32 (g.nodes ltail).enqidx = (g.nodes ltail).enqidx + 1 :=
    succ32_eq (hs.enq ltail hq.mem) hwrap
  simp only [step, hsucc]
  refine .ite (fun _ => .into ?_) fun _ => .into ?_
  · exact raise_counts hw hs (by omega) fun hr => hr.onTail hl
  · exact raise_counts hw hs (by omega) fun hr => hl.drawn hs hr (by simp)

theorem enqCheckTail_counts {a ltail : Nat}
    (hl : CountLoc L ⟨(), g, h⟩ t (.enqCheckTail a ltail)) :
    Leads (CountsPreserved L t ⟨(), g, h⟩) (step L maxThreads t i g (.enqCheckTail a ltail)) := by
  refine .ite (fun _ => .into ?_) fun _ => .into ?_
  · exact counts_inside hw hs (by simp) (by simp) rfl rfl rfl fun _ => trivial
  · exact counts_inside hw hs (by simp) (by simp) rfl rfl rfl fun hr => hr.onTail hl

theorem enqLoadNext_counts {a ltail : Nat}
    (hl : CountLoc L ⟨(), g, h⟩ t (.enqLoadNext a ltail)) :
    Leads (CountsPreserved L t ⟨(), g, h⟩) (step L maxThreads t i g (.enqLoadNext a ltail)) := by
  simp only [step]
  split
  · exact .into <| counts_inside hw hs (by simp) (by simp) rfl rfl rfl fun hr => hr.onTail hl
  · exact .into <| counts_inside hw hs (by simp) (by simp) rfl rfl rfl fun _ => trivial

/-- The node being allocated is not in the list. -/
theorem enqNewNode_counts {a ltail : Nat} (hl : CountLoc L ⟨(), g, h⟩ t (.enqNewNode a ltail)) :
    Leads (CountsPreserved L t ⟨(), g, h⟩) (step L maxThreads t i g (.enqNewNode a ltail)) := by
  refine .ite (fun hfree => .into ?_) fun _ => .nowhere
  have hne : ∀ m ∈ chain h, m ≠ i.addr := fun m hm heq => hw.used m hm (heq ▸ hfree)
  refine counts_step hs (events_plain (by simp [Event.Plain])) (fun m hm => ?_) (fun m hm => ?_)
    (fun hput => (hw.put hput).1) (fun m hm => ?_) rfl (fun hq => hq) fun hr =>
      (hr (by simp [Event.Boundary]) (by simp)).onTail hl
  all_goals simp [nextPtr, hne m hm]

theorem enqCasNext_counts {a ltail n : Nat} (hloc : Loc L ⟨(), g, h⟩ t (.enqCasNext a ltail n))
    (hl : CountLoc L ⟨(), g, h⟩ t (.enqCasNext a ltail n)) :
    Leads (CountsPreserved L t ⟨(), g, h⟩) (step L maxThreads t i g (.enqCasNext a ltail n)) := by
  refine .ite (fun hnext => .into ?_) fun _ => .into ?_
  · exact link_counts hw hs hloc.2.2 hl hnext
  · exact counts_inside hw hs (by simp) (by simp) rfl rfl rfl fun _ => trivial

/-- Whoever moved `tail` past the node, the item is in a node that `tail` has reached. -/
theorem enqCasTail_counts {a ltail n : Nat} (hloc : Loc L ⟨(), g, h⟩ t (.enqCasTail a ltail n))
    (hl : CountLoc L ⟨(), g, h⟩ t (.enqCasTail a ltail n)) :
    Leads (CountsPreserved L t ⟨(), g, h⟩) (step L maxThreads t i g (.enqCasTail a ltail n)) := by
  obtain ⟨hlinking, hput⟩ := hloc
  refine .into <| casTail_counts hw hs hlinking fun g' hr hnext => ?_
  obtain ⟨q, hq, hfrom⟩ := hl
  obtain ⟨p, hp, hn⟩ := hlinking
  obtain rfl : p = q := hw.at_unique hp hq
  exact ⟨n, 0, p + 1, hput.mono hr.mem, hn.mono hr.chain, hnext p hq hfrom⟩

theorem enqCasCell_counts {a ltail : Nat} {idx : Int}
    (hl : CountLoc L ⟨(), g, h⟩ t (.enqCasCell a ltail idx)) :
    Leads (CountsPreserved L t ⟨(), g, h⟩)
      (step L maxThreads t i g (.enqCasCell a ltail idx)) := by
  refine .ite (fun _ => .nowhere) fun _ => .ite (fun _ => .into ?_) fun _ => .into ?_
  · exact fill_counts hw hs hl
  · exact counts_inside hw hs (by simp) (by simp) rfl rfl rfl fun _ => trivial

theorem deqProtect_counts {n : Option Nat} (hl : CountLoc L ⟨(), g, h⟩ t (.deqProtect n)) :
    Leads (CountsPreserved L t ⟨(), g, h⟩) (step L maxThreads t i g (.deqProtect n)) := by
  refine .ite (fun _ => .into ?_) fun _ => .into ?_
  · obtain ⟨q, hq⟩ : ∃ q, At h g.head q := hw.head
    exact counts_inside hw hs (by simp) (by simp) rfl rfl rfl fun hr =>
      hr.onHead ⟨hl, q, hq, q, le_rfl, hq⟩
  · exact counts_inside hw hs (by simp) (by simp) rfl rfl rfl fun hr => hr.inDequeue hl

omit hw in
/-- The index drawn was nobody's before. -/
theorem deqFetchAdd_counts {lhead : Nat} (hwrap : NoWrapAt g (.deqFetchAdd lhead))
    (hl : CountLoc L ⟨(), g, h⟩ t (.deqFetchAdd lhead)) :
    Leads (CountsPreserved L t ⟨(), g, h⟩) (step L maxThreads t i g (.deqFetchAdd lhead)) := by
  obtain ⟨q, hq, -⟩ := hl.head
  have h0 : 0 ≤ (g.nodes lhead).deqidx := hs.deq lhead hq.mem
  simp only [step, succ32_eq h0 hwrap]
  refine .ite (fun hsize => .into ?_) fun hsize => .into ?_
  · refine draw_counts hs hl (by rw [if_neg (by omega)]) fun hr => ⟨hr.onHead hl, ?_⟩
    simp only [Shared.setNode_self]
    omega
  · refine draw_counts hs hl (by rw [if_pos (by omega)]) fun hr => ⟨hr.onHead hl, by simp, ?_⟩
    intro u v hmem
    have htake : .take u lhead (g.nodes lhead).deqidx v ∈ h := by simpa using hmem
    obtain ⟨-, hlt, -⟩ := hs.claim (hs.take htake)
    exact absurd hlt (lt_irrefl _)

/-- A drained node with nothing behind it: the queue is empty now. -/
theorem deqLoadNext_counts {lhead : Nat} (hl : CountLoc L ⟨(), g, h⟩ t (.deqLoadNext lhead)) :
    Leads (CountsPreserved L t ⟨(), g, h⟩) (step L maxThreads t i g (.deqLoadNext lhead)) := by
  obtain ⟨hhead, hdrained⟩ := hl
  simp only [step]
  split
  · have hall : AllClaimed h := allClaimed_of_last hw hs hhead.head ‹_› fun idx hidx _ =>
      hidx.2.trans_le hdrained
    exact .into <| counts_inside hw hs (by simp) (by simp) rfl rfl rfl fun hr =>
      ⟨hr.inDequeue hhead.call, fun _ => hr.emptied (hhead.call.emptied hall), by simp⟩
  · exact .into <| counts_inside hw hs (by simp) (by simp) rfl rfl rfl fun hr =>
      hr.drained ⟨hhead, hdrained⟩

theorem deqCasHead_counts {lhead lnext : Nat}
    (hloc : Loc L ⟨(), g, h⟩ t (.deqCasHead lhead lnext))
    (hl : CountLoc L ⟨(), g, h⟩ t (.deqCasHead lhead lnext)) :
    Leads (CountsPreserved L t ⟨(), g, h⟩)
      (step L maxThreads t i g (.deqCasHead lhead lnext)) := by
  refine .ite (fun hhead => .into ?_) fun _ => .into ?_
  · exact casHead_counts hw hs hloc hl.2 hhead fun hr => hr.inDequeue hl.1.call
  · exact counts_inside hw hs (by simp) (by simp) rfl rfl rfl fun hr => hr.inDequeue hl.1.call

theorem deqScan_counts {scan : HazardPointers.Scan} (hd : InDequeue h t) :
    Leads (CountsPreserved L t ⟨(), g, h⟩) (step L maxThreads t i g (.deqScan scan)) := by
  refine .into ?_
  cases (HazardPointers.scanStep maxThreads t g.hp scan).2.2 <;>
    exact counts_inside hw hs (by simp) (by simp) rfl rfl rfl fun hr =>
      loc_afterScan_counts (hr.inDequeue hd)

theorem deqLoadCell_counts {lhead : Nat} {idx : Int} (hl : Open ⟨(), g, h⟩ t lhead idx) :
    Leads (CountsPreserved L t ⟨(), g, h⟩) (step L maxThreads t i g (.deqLoadCell lhead idx)) := by
  refine .ite (fun _ => .nowhere) fun _ => .ite (fun _ => .into ?_) fun _ => .into ?_ <;>
    exact counts_inside hw hs (by simp) (by simp) rfl rfl rfl fun hr => hr.open hl

theorem deqExchange_counts {lhead : Nat} {idx : Int}
    (hloc : Loc L ⟨(), g, h⟩ t (.deqExchange lhead idx)) (hl : Open ⟨(), g, h⟩ t lhead idx) :
    Leads (CountsPreserved L t ⟨(), g, h⟩) (step L maxThreads t i g (.deqExchange lhead idx)) := by
  refine .ite (fun _ => .into ?_) fun hv => .into ?_
  · exact take_counts hw hs hl hloc.2 rfl fun hhead _ =>
      ⟨hhead, List.mem_append_left _ hl.claim⟩
  · exact take_counts hw hs hl hloc.2 rfl fun hhead hfirst => ⟨hhead.call, hv, hfirst⟩

/-- If the index drawn is the last and the node has no successor, the queue is empty now. -/
theorem deqReloadEnqidx_counts {lhead : Nat} {idx : Int}
    (hl : CountLoc L ⟨(), g, h⟩ t (.deqReloadEnqidx lhead idx)) :
    Leads (CountsPreserved L t ⟨(), g, h⟩)
      (step L maxThreads t i g (.deqReloadEnqidx lhead idx)) := by
  obtain ⟨hhead, hclaim⟩ := hl
  refine .ite (fun hle => .into ?_) fun _ => .into ?_
  · refine counts_inside hw hs (by simp) (by simp) rfl rfl rfl fun hr =>
      ⟨hr.onHead hhead, hle, fun hlast => hr.emptied (hhead.call.emptied ?_)⟩
    obtain ⟨-, hlt, -⟩ := hs.claim hclaim
    exact allClaimed_of_last hw hs hhead.head hlast fun j _ hj => by
      have hlt' : idx < (g.nodes lhead).deqidx := hlt
      omega
  · exact counts_inside hw hs (by simp) (by simp) rfl rfl rfl fun hr => hr.onHead hhead

theorem deqCheckNext_counts {lhead : Nat} {idx enqidx : Int}
    (hl : CountLoc L ⟨(), g, h⟩ t (.deqCheckNext lhead idx enqidx)) :
    Leads (CountsPreserved L t ⟨(), g, h⟩)
      (step L maxThreads t i g (.deqCheckNext lhead idx enqidx)) := by
  obtain ⟨hhead, hle, hempty⟩ := hl
  refine .ite (fun hnext => .into ?_) fun _ => .into ?_
  · exact counts_inside hw hs (by simp) (by simp) rfl rfl rfl fun hr =>
      ⟨hr.onHead hhead, hle, hr.emptied (hempty hnext)⟩
  · exact counts_inside hw hs (by simp) (by simp) rfl rfl rfl fun hr => hr.onHead hhead

theorem deqCasEnqidx_counts {lhead : Nat} {idx enqidx : Int}
    (hl : CountLoc L ⟨(), g, h⟩ t (.deqCasEnqidx lhead idx enqidx)) :
    Leads (CountsPreserved L t ⟨(), g, h⟩)
      (step L maxThreads t i g (.deqCasEnqidx lhead idx enqidx)) := by
  obtain ⟨hhead, hle, hempty⟩ := hl
  refine .into ?_
  split
  · exact raise_counts hw hs (by omega) fun hr =>
      ⟨hr.inDequeue hhead.call, fun _ => hr.emptied hempty, by simp⟩
  · exact counts_inside hw hs (by simp) (by simp) rfl rfl rfl fun hr =>
      ⟨hr.inDequeue hhead.call, fun _ => hr.emptied hempty, by simp⟩

end States

/-- **Every step that wraps no counter keeps the counters' invariant** and stays within what the
other threads rely on. -/
theorem step_counts {maxThreads : Nat} {i : Input} {l' : Local}
    (hfresh : ∀ a, l = .idle → i.op = some (.enqueue a) → ∀ u, .call u (.enqueue a) ∉ h)
    (hwrap : NoWrapAt g l) (hw : Glob L ⟨(), g, h⟩) (hloc : Loc L ⟨(), g, h⟩ t l)
    (hs : Counts L ⟨(), g, h⟩) (hl : CountLoc L ⟨(), g, h⟩ t l)
    (hstep : step L maxThreads t i g l = some (g', l', es)) :
    CountsPreserved L t ⟨(), g, h⟩ g' l' es := by
  suffices hleads : Leads (CountsPreserved L t ⟨(), g, h⟩) (step L maxThreads t i g l) from
    hleads.of_some hstep
  cases l with
  | idle => exact idle_counts hw hs fun a => hfresh a rfl
  | enqProtect a n => exact enqProtect_counts hw hs hloc
  | enqPublish a ret =>
      exact .into <| counts_inside hw hs (by simp) (by simp) rfl rfl rfl fun _ => trivial
  | enqFetchAdd a ltail => exact enqFetchAdd_counts hw hs hwrap hl
  | enqCheckTail a ltail => exact enqCheckTail_counts hw hs hl
  | enqLoadNext a ltail => exact enqLoadNext_counts hw hs hl
  | enqHelpTail a ltail lnext =>
      exact .into <| casTail_counts hw hs hloc.2 fun _ _ _ => trivial
  | enqNewNode a ltail => exact enqNewNode_counts hw hs hl
  | enqCasNext a ltail n => exact enqCasNext_counts hw hs hloc hl
  | enqNowLinked a ltail n =>
      exact .into <| counts_inside hw hs (by simp) (by simp) rfl rfl rfl fun hr => hr.reached hl
  | enqStampLinked a ltail n ts =>
      exact .into <| counts_inside hw hs (by simp [Event.Plain]) (by simp [Event.Boundary])
        rfl rfl rfl fun hr => hr.reached hl
  | enqCasTail a ltail n => exact enqCasTail_counts hw hs hloc hl
  | enqCasCell a ltail idx => exact enqCasCell_counts hw hs hl
  | enqNowCell a =>
      exact .into <| counts_inside hw hs (by simp) (by simp) rfl rfl rfl fun hr => hr.arrived hl
  | enqStampCell a ts =>
      exact .into <| counts_inside hw hs (by simp [Event.Plain]) (by simp [Event.Boundary])
        rfl rfl rfl fun hr => hr.arrived hl
  | enqClear a => exact .into <| return_counts hw hs hl rfl rfl rfl
  | deqProtect n => exact deqProtect_counts hw hs hl
  | deqPublish ret =>
      exact .into <| counts_inside hw hs (by simp) (by simp) rfl rfl rfl fun hr => hr.inDequeue hl
  | deqFetchAdd lhead => exact deqFetchAdd_counts hs hwrap hl
  | deqLoadNext lhead => exact deqLoadNext_counts hw hs hl
  | deqCasHead lhead lnext => exact deqCasHead_counts hw hs hloc hl
  | deqRetire lhead =>
      exact .into <| counts_inside hw hs (by simp) (by simp) rfl rfl rfl fun hr =>
        loc_afterScan_counts (hr.inDequeue hl)
  | deqScan scan => exact deqScan_counts hw hs hl
  | deqLoadCell lhead idx => exact deqLoadCell_counts hw hs hl
  | deqLoadEnqidx lhead idx | deqSpin lhead idx n =>
      refine .ite (fun _ => .into ?_) fun _ => .into ?_ <;>
        exact counts_inside hw hs (by simp) (by simp) rfl rfl rfl fun hr => hr.open hl
  | deqExchange lhead idx => exact deqExchange_counts hw hs hloc hl
  | deqNowLin v =>
      exact .into <| counts_inside hw hs (by simp) (by simp) rfl rfl rfl fun hr =>
        ⟨hr.inDequeue hl.1, hl.2⟩
  | deqStampLin v ts =>
      exact .into <| counts_inside hw hs (by simp [Event.Plain]) (by simp [Event.Boundary])
        rfl rfl rfl fun hr => ⟨hr.inDequeue hl.1, fun hv => absurd hv hl.2.1, hl.2.2⟩
  | deqReloadEnqidx lhead idx => exact deqReloadEnqidx_counts hw hs hl
  | deqCheckNext lhead idx enqidx => exact deqCheckNext_counts hw hs hl
  | deqCasEnqidx lhead idx enqidx => exact deqCasEnqidx_counts hw hs hl
  | deqClear v =>
      exact .into <| counts_of_eq hw hs (events_plain (by simp [Event.Plain])) rfl rfl rfl
        fun _ => trivial

end Steps

theorem counts_init {L : Layout} {maxThreads : Nat} :
    Counts L ⟨(), (program L maxThreads).start, []⟩ where
  deq n _ := by simp [program, newNode]
  enq n _ := by simp [program]
  claim h := by simp at h
  claimed {n idx} _ hidx hlt := by
    have h0 : ((program L maxThreads).start.nodes n).deqidx = 0 := rfl
    exact absurd hidx.1 (Int.not_le.mpr (h0 ▸ hlt))
  claimOnce h := by simp at h
  take h := by simp at h
  put h := by simp [Put] at h
  passed {n p k} hk hp _ := by
    have hk' : k < 1 := (List.getElem?_eq_some_iff.mp hk).1
    omega
  returned h := by simp at h
  order hab hb := by simp [Put] at hb

/-- No counter wraps. -/
def NoWrap (c : Config Shared Local Event) (t : Tid) (_ : Input) : Prop :=
  NoWrapAt c.shared (c.locals t)

/-- The counters' invariant as a rely-guarantee proof, over the cells' one. -/
def countInvariant (L : Layout) (maxThreads : Nat) :
    RelyGuarantee (program L maxThreads)
      (fun c t i => (program L maxThreads).Reach FreshItem c ∧ FreshItem c t i ∧ NoWrap c t i)
      Unit where
  glob := Counts L
  loc := CountLoc L
  rely := CountRely
  init := ⟨(), counts_init, fun _ => trivial⟩
  stable := CountRely.loc
  step hok hs hl hstep := by
    obtain ⟨hreach, hfresh, hwrap⟩ := hok
    obtain ⟨hw, hloc⟩ := Reach.cells hreach
    exact ⟨(), step_counts hfresh hwrap hw (hloc _) hs (hl _) hstep⟩

/-- The assumptions on a run: no item is enqueued twice and no counter wraps. -/
def Proper (c : Config Shared Local Event) (t : Tid) (i : Input) : Prop :=
  FreshItem c t i ∧ NoWrap c t i

theorem Reach.counts {L : Layout} {maxThreads : Nat} {c : Config Shared Local Event}
    (h : (program L maxThreads).Reach Proper c) :
    Counts L ⟨(), c.shared, c.history⟩
      ∧ ∀ t, CountLoc L ⟨(), c.shared, c.history⟩ t (c.locals t) := by
  have hreach := h.along.mono fun c t i hok =>
    (⟨hok.1.mono fun _ _ _ hok => hok.1, hok.2⟩ :
      (program L maxThreads).Reach FreshItem c ∧ FreshItem c t i ∧ NoWrap c t i)
  obtain ⟨_, hc⟩ := (countInvariant L maxThreads).holds hreach
  exact hc

end QueueFairness.FAAArrayQueue
