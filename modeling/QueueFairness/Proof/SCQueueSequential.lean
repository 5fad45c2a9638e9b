import QueueFairness.Lib.Solo
import QueueFairness.Proof.SCQueue

/-!
# The scalable circular queue used by one thread at a time

The ring holds the indices between its head and its tail, each in the entry of its ticket at the
cycle of its ticket; the other entries are empty at an earlier cycle than that of the next ticket
that names them. So the first ticket of an enqueue serves, and a dequeue that finds nothing moves
its entry on and then the tail, so that the ring is as it was.
-/

namespace QueueFairness.SCQueue

open Interleaving

variable {P : Params}

/-- An entry that the next enqueue of this ticket may use. -/
structure Usable (e : CycleRing.Entry) (k : Nat) : Prop where
  safe : e.safe = true
  item : e.item = none
  low : -1 ≤ e.cycle
  cycle : e.cycle < CycleRing.cycleOf (slots P) k

/-- The ring holds `xs`, from ticket `h` on. -/
structure Holds (s : Ring P) (h : Nat) (xs : List Nat) : Prop where
  head : s.head.toNat = h
  tail : s.tail.toNat = h + xs.length
  length : xs.length ≤ slots P
  full : ∀ i (hi : i < xs.length), (view s).entry (slots P) (h + i)
    = ⟨CycleRing.cycleOf (slots P) (h + i), true, some xs[i]⟩
  free : ∀ k, h + xs.length ≤ k → k < h + slots P →
    Usable ((view s).entry (slots P) k) k (P := P)
  threshold : xs ≠ [] → 0 ≤ s.threshold

variable {s s' : Ring P} {h k a x : Nat} {xs : List Nat} {t : Tid}

theorem Fresh.holds {first : Nat} (hs : Fresh s first xs) : Holds s first xs := by
  have hle := hs.tail_le
  refine ⟨hs.head, hs.tail, by omega, fun i hi => ?_, fun k hk hk' => ?_, hs.threshold⟩
  · have hlt : first + i < slots P := by omega
    have hcycle : CycleRing.cycleOf (slots P) (first + i) = 0 := by
      rw [CycleRing.cycleOf, Nat.div_eq_of_lt hlt]
      rfl
    rw [CycleRing.State.entry, Nat.mod_eq_of_lt hlt, hs.cell _ hlt, hcycle, contentOf,
      if_neg (by omega), dif_pos (by omega)]
    simp only [Nat.add_sub_cancel_left]
  · rw [CycleRing.State.entry, hs.cell _ (Nat.mod_lt _ slots_pos)]
    rcases Nat.lt_or_ge k (slots P) with hlt | hge
    · have hcycle : CycleRing.cycleOf (slots P) k = 0 := by
        rw [CycleRing.cycleOf, Nat.div_eq_of_lt hlt]
        rfl
      rw [Nat.mod_eq_of_lt hlt, contentOf, if_neg (by omega), dif_neg (by omega)]
      exact ⟨rfl, rfl, le_refl _, by rw [hcycle]; decide⟩
    -- The entries before the first ticket are used again in the second round.
    · have hdiv : k / slots P = 1 := by
        rw [Nat.div_eq_sub_div slots_pos hge, Nat.div_eq_of_lt (by omega)]
      have hmod : k % slots P = k - slots P := by
        rw [Nat.mod_eq_sub_mod hge, Nat.mod_eq_of_lt (by omega)]
      have hcycle : CycleRing.cycleOf (slots P) k = 1 := by
        rw [CycleRing.cycleOf, hdiv]
        rfl
      rw [hmod, contentOf, if_pos (by omega)]
      exact ⟨rfl, rfl, by decide, by rw [hcycle]; decide⟩

/-- Within a round, different tickets have different entries. -/
theorem entry_ne {j : Nat} (hj : h ≤ j) (hj' : j < h + slots P) (hk : h ≤ k) (hk' : k < h + slots P)
    (hne : j ≠ k) : j % slots P ≠ k % slots P := fun hmod =>
  hne (Nat.le_antisymm (PRQueue.le_of_residue hmod (by omega))
    (PRQueue.le_of_residue hmod.symm (by omega)))

theorem cycleOf_next :
    CycleRing.cycleOf (slots P) k < CycleRing.cycleOf (slots P) (k + slots P) := by
  rw [CycleRing.cycleOf, CycleRing.cycleOf, Nat.add_div_right _ slots_pos]
  push_cast
  omega

/-- The item of the next ticket is put in. -/
theorem Holds.put (hs : Holds s h xs) (hroom : xs.length < slots P) (hhead : s'.head = s.head)
    (htail : s'.tail.toNat = h + xs.length + 1)
    (hcell : (view s').cell = ((view s).set (slots P) (h + xs.length)
      ⟨CycleRing.cycleOf (slots P) (h + xs.length), true, some a⟩).cell)
    (hthreshold : 0 ≤ s'.threshold) : Holds s' h (xs ++ [a]) := by
  have hentry : ∀ j, h ≤ j → j < h + slots P → j ≠ h + xs.length →
      (view s').entry (slots P) j = (view s).entry (slots P) j := fun j hj hj' hne => by
    rw [CycleRing.State.entry, hcell]
    exact (CycleRing.State.entry_set ..).trans
      (if_neg (entry_ne hj hj' (by omega) (by omega) hne))
  have hself : (view s').entry (slots P) (h + xs.length)
      = ⟨CycleRing.cycleOf (slots P) (h + xs.length), true, some a⟩ := by
    rw [CycleRing.State.entry, hcell]
    exact CycleRing.State.entry_set_self ..
  have hlength : (xs ++ [a]).length = xs.length + 1 := by simp
  refine ⟨by rw [hhead, hs.head], by rw [htail, hlength, Nat.add_assoc], by omega, fun i hi => ?_,
    fun k hk hk' => ?_, fun _ => hthreshold⟩
  · rcases Nat.lt_succ_iff_lt_or_eq.mp (hlength ▸ hi) with hlt | rfl
    · rw [hentry _ (by omega) (by omega) (by omega), hs.full i hlt, List.getElem_append_left hlt]
    · rw [hself]
      simp
  · rw [hentry k (by omega) hk' (by omega)]
    exact hs.free k (by omega) hk'

/-- The entry of the first ticket is left behind, empty. -/
theorem Holds.advance (hs : Holds s h xs) {ys : List Nat} (hys : ys = xs.tail)
    (hhead : s'.head.toNat = h + 1) (htail : s'.tail.toNat = h + 1 + ys.length)
    (hcell : (view s').cell = ((view s).set (slots P) h
      ⟨CycleRing.cycleOf (slots P) h, true, none⟩).cell)
    (hthreshold : ys ≠ [] → 0 ≤ s'.threshold) : Holds s' (h + 1) ys := by
  have hpos := slots_pos (P := P)
  have hentry : ∀ j, h < j → j < h + slots P →
      (view s').entry (slots P) j = (view s).entry (slots P) j := fun j hj hj' => by
    rw [CycleRing.State.entry, hcell]
    exact (CycleRing.State.entry_set ..).trans
      (if_neg (entry_ne (by omega) hj' (le_refl h) (by omega) (by omega)))
  have hlength : ys.length = xs.length - 1 := by rw [hys, List.length_tail]
  have hle := hs.length
  refine ⟨hhead, htail, by omega, fun i hi => ?_, fun k hk hk' => ?_, hthreshold⟩
  · have hi' : i + 1 < xs.length := by omega
    have hadd : h + 1 + i = h + (i + 1) := by omega
    rw [hadd, hentry _ (by omega) (by omega), hs.full (i + 1) hi']
    simp only [hys, List.getElem_tail]
  · by_cases hlast : k = h + slots P
    · subst hlast
      have hself : (view s').entry (slots P) (h + slots P)
          = ⟨CycleRing.cycleOf (slots P) h, true, none⟩ := by
        rw [CycleRing.State.entry_congr _ (Nat.add_mod_right h _), CycleRing.State.entry, hcell]
        exact CycleRing.State.entry_set_self ..
      rw [hself]
      exact ⟨rfl, rfl, le_trans (by decide) (CycleRing.cycleOf_nonneg h), cycleOf_next⟩
    · rw [hentry k (by omega) (by omega)]
      exact hs.free k (by omega) (by omega)

/-! ### What the words say -/

section Words

variable {ticket entry : P.Atomic}

theorem Usable.unequal (he : Usable (decode entry) ticket.toNat (P := P))
    (hk : ticket.toNat < bound P) :
    cmp (ecycle entry) (cycleOf ticket) < 0 ∧ ecycle entry ≠ cycleOf ticket := by
  refine ⟨(cmp_ecycle_iff _ hk he.low).mpr he.cycle, fun heq => ?_⟩
  exact absurd ((ecycle_eq_iff _ hk).mp heq) (ne_of_lt he.cycle)

theorem Usable.vacant (he : Usable (decode entry) ticket.toNat (P := P)) : Vacant entry :=
  item_eq_none_iff.mp he.item

theorem retry_usable (he : Usable (decode entry) ticket.toNat (P := P))
    (hk : ticket.toNat < bound P) : Enq.retry ticket entry = .cas ticket entry := by
  rw [Enq.retry, if_pos (he.unequal hk).1, if_pos ((eq_ecycle_iff _).mpr ⟨he.safe, he.vacant⟩)]

theorem examine_full {b : Bool} {o : Option Nat} (hk : ticket.toNat < bound P)
    (he : decode entry = ⟨CycleRing.cycleOf (slots P) ticket.toNat, b, o⟩) (attempt : Nat) :
    Deq.examine ticket entry attempt = some (.fetchOr ticket entry) :=
  if_pos ((ecycle_eq_iff _ hk).mpr (congrArg CycleRing.Entry.cycle he))

theorem examine_usable (he : Usable (decode entry) ticket.toNat (P := P))
    (hk : ticket.toNat < bound P) (attempt : Nat) :
    Deq.examine ticket entry attempt
      = if attempt + 1 ≤ 10000 then some (.loadEntry ticket (attempt + 1))
        else some (.cas ticket entry (cycleOf ticket ^^^ (~~~entry &&& n P)) (attempt + 1)) := by
  have hunequal := he.unequal hk
  have hvacant : entry ||| n P = ecycle entry := (or_n_eq_iff _).mpr he.vacant
  simp only [Deq.examine]
  rw [if_neg hunequal.2, if_neg (not_not.mpr hvacant), if_pos hunequal.1]

end Words

/-! ### The calls -/

/-- A step of `lfring_enqueue` whose compare-and-swap does not fail without cause. -/
abbrev enqueueAlone (t : Tid) (eidx : P.Atomic) (nonempty : Bool) (_ : Unit) (s : Ring P)
    (l : Enq P) : Ring P × (Enq P ⊕ Unit) × List (Event P) :=
  enqueueStep t false eidx nonempty s l

abbrev dequeueAlone (t : Tid) (nonempty : Bool) (_ : Unit) (s : Ring P) (l : Deq P) :
    Ring P × (Deq P ⊕ Option P.Atomic) × List (Event P) :=
  dequeueStep t false nonempty s l

theorem view_setEntry_cell (s : Ring P) (k e : P.Atomic) : (view (s.setEntry k e)).cell
    = ((view s).set (slots P) k.toNat (decode e)).cell := by
  rw [view_setEntry]

theorem Holds.enqueue (hs : Holds s h xs) (t : Tid) {eidx : P.Atomic} {nonempty : Bool}
    (hroom : xs.length < slots P) (hfits : eidx.toNat < slots P - 1)
    (hbound : h + xs.length < bound P) (hnonempty : nonempty = true → xs ≠ []) :
    Completes (enqueueAlone t (eidx ^^^ (n P - 1)) nonempty)
      (fun s' _ => Holds s' h (xs ++ [eidx.toNat])) s .fetchAdd := by
  let s₁ : Ring P := { s with tail := s.tail + 1 }
  let s₂ := s₁.setEntry s.tail (cycleOf s.tail ^^^ (eidx ^^^ (n P - 1)))
  have hticket : s.tail.toNat = h + xs.length := hs.tail
  have hk : s.tail.toNat < bound P := by omega
  have hentry : entryOf (view s₁) s.tail = decode (s₁.entry s.tail) := view_entry s₁ s.tail
  have husable : Usable (decode (s₁.entry s.tail)) s.tail.toNat (P := P) := by
    rw [← hentry, hticket]
    change Usable ((view s).entry (slots P) s.tail.toNat) (h + xs.length)
    rw [hticket]
    exact hs.free _ (le_refl _) (by omega)
  have hload : ∀ i, enqueueAlone t (eidx ^^^ (n P - 1)) nonempty i s₁ (.loadEntry s.tail)
      = (s₁, .inl (.cas s.tail (s₁.entry s.tail)), []) := fun _ => by
    rw [enqueueAlone, enqueueStep, retry_usable husable hk]
  have hput : ∀ s', s'.head = s₂.head → s'.tail = s₂.tail → s'.array = s₂.array →
      0 ≤ s'.threshold → Holds s' h (xs ++ [eidx.toNat]) := by
    intro s' hhead htail harray hthreshold
    refine hs.put hroom hhead ?_ ?_ hthreshold
    · rw [htail]
      exact (toNat_succ hk).trans (by rw [hticket])
    · have hfits' : ((eidx ^^^ (n P - 1)) ^^^ (n P - 1)).toNat < slots P - 1 := by
        rwa [flip_flip]
      have hcell := view_setEntry_cell s₁ s.tail (cycleOf s.tail ^^^ (eidx ^^^ (n P - 1)))
      rw [decode_deposit hk hfits', flip_flip, hticket] at hcell
      simp only [view, harray]
      exact hcell
  refine .next (fun _ => rfl) (.next hload ?_)
  have hcas : ∀ i, enqueueAlone t (eidx ^^^ (n P - 1)) nonempty i s₁
        (.cas s.tail (s₁.entry s.tail))
      = (s₂, if nonempty then .inr () else .inl .loadThreshold,
        [.deposit t ((eidx ^^^ (n P - 1)) ^^^ (n P - 1)) s.tail]) := fun _ => by
    rw [enqueueAlone, enqueueStep, if_pos ⟨rfl, by decide⟩]
  cases nonempty with
  | true => exact .last hcas (hput s₂ rfl rfl rfl (hs.threshold (hnonempty rfl)))
  | false =>
      refine .next hcas ?_
      have hnonneg := threshold3_nonneg (P := P)
      by_cases hthreshold : s₂.threshold ≠ threshold3 P
      · have hset : ∀ i, enqueueAlone t (eidx ^^^ (n P - 1)) false i s₂ .loadThreshold
            = (s₂, .inl .storeThreshold, []) := fun _ => by
          rw [enqueueAlone, enqueueStep, if_pos hthreshold]
        exact .next hset (.last (fun _ => rfl) (hput _ rfl rfl rfl hnonneg))
      · have hkeep : ∀ i, enqueueAlone t (eidx ^^^ (n P - 1)) false i s₂ .loadThreshold
            = (s₂, .inr (), []) := fun _ => by
          rw [enqueueAlone, enqueueStep, if_neg hthreshold]
        exact .last hkeep (hput s₂ rfl rfl rfl (by rw [not_not.mp hthreshold]; exact hnonneg))

/-- A dequeue that finds an index: its ticket is the one of the oldest. -/
theorem Holds.dequeue_cons (hs : Holds s h (x :: xs)) (t : Tid) (nonempty : Bool)
    (hbound : h < bound P) :
    Completes (dequeueAlone t nonempty)
      (fun s' r => r.map BitVec.toNat = some x ∧ Holds s' (h + 1) xs) s .fetchAdd := by
  let s₁ : Ring P := { s with head := s.head + 1 }
  let entry := s₁.entry s.head
  let s₂ := s₁.setEntry s.head (entry ||| (n P - 1))
  have hticket : s.head.toNat = h := hs.head
  have hk : s.head.toNat < bound P := by omega
  have hfull : decode entry
      = ⟨CycleRing.cycleOf (slots P) s.head.toNat, true, some x⟩ := by
    have hentry : entryOf (view s₁) s.head = decode entry := view_entry s₁ s.head
    rw [← hentry, hticket]
    change (view s).entry (slots P) s.head.toNat = _
    rw [hticket]
    exact hs.full 0 (by simp)
  have hload : ∀ i, dequeueAlone t nonempty i s₁ (.loadEntry s.head 0)
      = (s₁, .inl (.fetchOr s.head entry), []) := fun _ => by
    rw [dequeueAlone, dequeueStep, examine_full hk hfull]
    rfl
  obtain ⟨hcycle, hsafe, hitem⟩ := CycleRing.Entry.mk.inj hfull
  refine .next (fun _ => rfl) (.next hload (.last (fun _ => rfl) ⟨?_, ?_⟩))
  · have hfilled : ¬ Vacant entry := fun hvacant => by
      rw [item_vacant hvacant] at hitem
      cases hitem
    rw [item, if_neg hfilled] at hitem
    exact hitem
  · refine hs.advance rfl ((toNat_succ hk).trans (by rw [hticket])) ?_ ?_ fun hxs => ?_
    · change s.tail.toNat = _
      rw [hs.tail, List.length_cons]
      omega
    · have hcell := view_setEntry_cell s₁ s.head (entry ||| (n P - 1))
      rw [decode_or, hcycle, hsafe, hticket] at hcell
      exact hcell
    · exact hs.threshold (by simp)

/-- A dequeue that finds nothing leaves the ring as it was, a ticket further on. -/
theorem Holds.dequeue_nil (hs : Holds s h []) (t : Tid) (hbound : h < bound P) :
    Completes (dequeueAlone t false) (fun s' r => r = none ∧ Holds s' (h + 1) []) s .fetchAdd := by
  let s₁ : Ring P := { s with head := s.head + 1 }
  let entry := s₁.entry s.head
  let s₂ := s₁.setEntry s.head (cycleOf s.head ^^^ (~~~entry &&& n P))
  let s₃ : Ring P := { s₂ with tail := s.head + 1 }
  have hticket : s.head.toNat = h := hs.head
  have hk : s.head.toNat < bound P := by omega
  have husable : Usable (decode entry) s.head.toNat (P := P) := by
    have hentry : entryOf (view s₁) s.head = decode entry := view_entry s₁ s.head
    rw [← hentry, hticket]
    change Usable ((view s).entry (slots P) s.head.toNat) h
    rw [hticket]
    exact hs.free h (le_refl _) (Nat.lt_add_of_pos_right slots_pos)
  have hsucc := toNat_succ hk
  have htail : s.tail.toNat = h := hs.tail
  have hcmp : cmp s.tail (s.head + 1) ≤ 0 := by
    rw [cmp_tickets (by omega) (by omega)]
    omega
  have hcas : ∀ i attempt, dequeueAlone t false i s₁
        (.cas s.head entry (cycleOf s.head ^^^ (~~~entry &&& n P)) attempt)
      = (s₂, .inl (.loadTail s.head), [.leave t s.head]) := fun _ attempt => by
    rw [dequeueAlone, dequeueStep, if_pos ⟨rfl, by decide⟩]
    rfl
  have hloadTail : ∀ i, dequeueAlone t false i s₂ (.loadTail s.head)
      = (s₂, .inl (.catchup s.tail (s.head + 1)), []) := fun _ => by
    rw [dequeueAlone, dequeueStep, if_pos (show cmp s₂.tail (s.head + 1) ≤ 0 from hcmp)]
    rfl
  have hcatchup : ∀ i, dequeueAlone t false i s₂ (.catchup s.tail (s.head + 1))
      = (s₃, .inl .subEmpty, []) := fun _ => by
    rw [dequeueAlone, dequeueStep, if_pos ⟨rfl, by decide⟩]
  refine .next (fun _ => rfl) ?_
  -- The entry is loaded again and again before it is given up.
  have hwait : ∀ rest attempt, attempt + rest = 10000 →
      Completes (dequeueAlone t false) (fun s' r => r = none ∧ Holds s' (h + 1) []) s₁
        (.loadEntry s.head attempt) := by
    intro rest
    induction rest with
    | zero =>
        intro attempt hattempt
        have hload : ∀ i, dequeueAlone t false i s₁ (.loadEntry s.head attempt)
            = (s₁, .inl (.cas s.head entry (cycleOf s.head ^^^ (~~~entry &&& n P)) (attempt + 1)),
              []) := fun _ => by
          rw [dequeueAlone, dequeueStep, examine_usable husable hk, if_neg (by omega)]
          rfl
        refine .next hload (.next (fun i => hcas i _) (.next hloadTail (.next hcatchup
          (.last (fun _ => rfl) ⟨rfl, ?_⟩))))
        refine hs.advance rfl (hsucc.trans (by rw [hticket])) ?_ ?_ (by simp)
        · exact hsucc.trans (by rw [hticket]; rfl)
        · have hcell := view_setEntry_cell s₁ s.head (cycleOf s.head ^^^ (~~~entry &&& n P))
          have hsafe : safe entry = true := husable.safe
          rw [decode_skip _ hk, hsafe, hticket] at hcell
          exact hcell
    | succ rest ih =>
        intro attempt hattempt
        have hload : ∀ i, dequeueAlone t false i s₁ (.loadEntry s.head attempt)
            = (s₁, .inl (.loadEntry s.head (attempt + 1)), []) := fun _ => by
          rw [dequeueAlone, dequeueStep, examine_usable husable hk, if_pos (by omega)]
          rfl
        exact .next hload (ih (attempt + 1) (by omega))
  exact hwait 10000 0 rfl

/-! ### One call after another -/

/-- The results of the dequeues that have returned. -/
def returnOf : Event P → Option (Option Nat)
  | .dequeued _ r => some (r.map BitVec.toNat)
  | _ => none

def returns (history : List (Event P)) : List (Option Nat) := history.filterMap returnOf

@[simp] theorem returns_append (history es : List (Event P)) :
    returns (history ++ es) = returns history ++ returns es :=
  List.filterMap_append

/-- A weak compare-and-swap does not fail without cause. -/
def NoSpurious (_ : Config (Ring P) (Local P) (Event P)) (_ : Tid) (i : Input P) : Prop :=
  i.spurious = false

variable {r : Ring P} {ls : Tid → Local P}

theorem returns_enqueue (t : Tid) (eidx : P.Atomic) (nonempty : Bool) (s : Ring P) (l : Enq P) :
    returns (enqueueAlone t eidx nonempty () s l).2.2 = [] := by
  cases l <;> simp only [enqueueAlone, enqueueStep]
  case loadHead => split <;> rfl
  case cas => split <;> rfl
  all_goals rfl

theorem returns_goOn (t : Tid) (nonempty : Bool) (head : P.Atomic) (o : Option (Deq P)) :
    returns (Deq.goOn t nonempty head o).2 = [] := by
  cases o <;> rfl

theorem returns_dequeue (t : Tid) (nonempty : Bool) (s : Ring P) (l : Deq P) :
    returns (dequeueAlone t nonempty () s l).2.2 = [] := by
  cases l <;> simp only [dequeueAlone, dequeueStep]
  case loadEntry => exact returns_goOn ..
  case cas => split <;> exact returns_goOn ..
  case catchup => split <;> rfl
  all_goals rfl

/-- The call is over, `Q` holds of the ring, and the results are `out`. -/
def Over (t : Tid) (ls : Tid → Local P) (Q : Ring P → Prop) (out : List (Option Nat))
    (c : Config (Ring P) (Local P) (Event P)) : Prop :=
  c.locals = Function.update ls t .idle ∧ Q c.shared ∧ returns c.history = out

theorem finishes_idle {s : Ring P} {history : List (Event P)} {Q : Ring P → Prop}
    {out : List (Option Nat)} (hQ : Q s) (hout : returns history = out) :
    (program r).Finishes NoSpurious t (Over t ls Q out)
      ⟨s, Function.update ls t .idle, history⟩ :=
  .idle (Function.update_self ..) ⟨rfl, hQ, hout⟩

theorem finishes_enqueue {eidx : P.Atomic} {nonempty : Bool} {s : Ring P} {l : Enq P}
    {Q : Ring P → Prop} {out : List (Option Nat)}
    (hc : Completes (enqueueAlone t eidx nonempty) (fun s' _ => Q s') s l)
    {history : List (Event P)} (hout : returns history = out) :
    (program r).Finishes NoSpurious t (Over t ls Q out)
      ⟨s, Function.update ls t (.enqueue eidx nonempty l), history⟩ := by
  induction hc generalizing history with
  | @step s l hdone _ ih =>
      refine .next (by simp [program]) ⟨{}, rfl⟩ fun i hi => ?_
      have hreturns := returns_enqueue t eidx nonempty s l
      have hstep : (program r).step t i s (.enqueue eidx nonempty l)
          = some (step t i s (.enqueue eidx nonempty l)) := rfl
      have hspurious : i.spurious = false := hi
      rw [hstep, step, hspurious]
      change returns (enqueueStep t false eidx nonempty s l).2.2 = [] at hreturns
      cases hres : (enqueueStep t false eidx nonempty s l).2.1 with
      | inl l' =>
          refine ⟨_, _, _, rfl, ih () l' hres ?_⟩
          rw [returns_append, hout, hreturns, List.append_nil]
      | inr _ =>
          refine ⟨_, _, _, rfl, finishes_idle (hdone () () hres) ?_⟩
          rw [returns_append, returns_append, hout, hreturns, List.nil_append]
          exact List.append_nil _

theorem finishes_dequeue {nonempty : Bool} {s : Ring P} {l : Deq P}
    {Q : Ring P → Prop} {o : Option Nat} {out : List (Option Nat)}
    (hc : Completes (dequeueAlone t nonempty) (fun s' r => r.map BitVec.toNat = o ∧ Q s') s l)
    {history : List (Event P)} (hout : returns history = out) :
    (program r).Finishes NoSpurious t (Over t ls Q (out ++ [o]))
      ⟨s, Function.update ls t (.dequeue nonempty l), history⟩ := by
  induction hc generalizing history with
  | @step s l hdone _ ih =>
      refine .next (by simp [program]) ⟨{}, rfl⟩ fun i hi => ?_
      have hreturns := returns_dequeue t nonempty s l
      have hstep : (program r).step t i s (.dequeue nonempty l)
          = some (step t i s (.dequeue nonempty l)) := rfl
      have hspurious : i.spurious = false := hi
      rw [hstep, step, hspurious]
      change returns (dequeueStep t false nonempty s l).2.2 = [] at hreturns
      cases hres : (dequeueStep t false nonempty s l).2.1 with
      | inl l' =>
          refine ⟨_, _, _, rfl, ih () l' hres ?_⟩
          rw [returns_append, hout, hreturns, List.append_nil]
      | inr index =>
          obtain ⟨hindex, hQ⟩ := hdone () index hres
          refine ⟨_, _, _, rfl, finishes_idle hQ ?_⟩
          rw [returns_append, returns_append, hout, hreturns, List.nil_append, ← hindex]
          rfl

/-- The results of calls made one after another, when the ring holds `xs` at first. -/
def answers : List Nat → List (Tid × Call P) → List (Option Nat)
  | _, [] => []
  | xs, (_, .enqueue eidx _) :: calls => answers (xs ++ [eidx.toNat]) calls
  | xs, (_, .dequeue _) :: calls => xs.head? :: answers xs.tail calls

/-- What the ring asks of its clients: an enqueue finds room and its index fits, and a call that
says that the ring is not empty is right. -/
def Allowed (P : Params) : List Nat → List (Tid × Call P) → Prop
  | _, [] => True
  | xs, (_, .enqueue eidx nonempty) :: calls =>
      xs.length < slots P ∧ eidx.toNat < slots P - 1 ∧ (nonempty = true → xs ≠ [])
        ∧ Allowed P (xs ++ [eidx.toNat]) calls
  | xs, (_, .dequeue nonempty) :: calls =>
      (nonempty = true → xs ≠ []) ∧ Allowed P xs.tail calls

/-- What is left after a call of which no more than one ticket of the head was drawn. -/
def Rest (h : Nat) (xs ys : List Nat) (s : Ring P) : Prop :=
  ∃ h', Holds s h' ys ∧ h' + ys.length ≤ h + xs.length + 1

theorem Holds.dequeue (hs : Holds s h xs) (t : Tid) (nonempty : Bool) (hbound : h < bound P)
    (hnonempty : nonempty = true → xs ≠ []) :
    Completes (dequeueAlone t nonempty)
      (fun s' r => r.map BitVec.toNat = xs.head? ∧ Rest h xs xs.tail s') s .fetchAdd := by
  cases xs with
  | nil =>
      cases nonempty with
      | true => exact absurd rfl (hnonempty rfl)
      | false =>
          refine (hs.dequeue_nil t hbound).mono ?_
          rintro s' r ⟨rfl, hs'⟩
          exact ⟨rfl, h + 1, hs', le_refl _⟩
  | cons x xs =>
      refine (hs.dequeue_cons t nonempty hbound).mono ?_
      rintro s' r ⟨hr, hs'⟩
      refine ⟨hr, h + 1, hs', ?_⟩
      rw [List.tail_cons, List.length_cons]
      omega

/-- A dequeue is answered as a list would answer it. -/
theorem dequeue_finishes (hs : Holds s h xs) (t : Tid) {nonempty : Bool} (hbound : h < bound P)
    (hnonempty : nonempty = true → xs ≠ []) {history : List (Event P)} {out : List (Option Nat)}
    (hout : returns history = out) :
    (program r).Finishes NoSpurious t (Over t ls (Rest h xs xs.tail) (out ++ [xs.head?]))
      ⟨s, Function.update ls t (start (.dequeue nonempty)), history⟩ := by
  have hfetchAdd := hs.dequeue t nonempty hbound hnonempty
  rw [start]
  cases nonempty with
  | true => exact finishes_dequeue hfetchAdd hout
  | false =>
      refine finishes_dequeue ?_ hout
      by_cases hthreshold : s.threshold < 0
      · have hxs : xs = [] := by
          by_contra hne
          exact absurd hthreshold (not_lt_of_ge (hs.threshold hne))
        have hempty : ∀ i, dequeueAlone t false i s .loadThreshold = (s, .inr none, []) :=
          fun _ => by rw [dequeueAlone, dequeueStep, if_pos hthreshold]
        subst hxs
        exact .last hempty ⟨rfl, h, hs, Nat.le_succ _⟩
      · have hgoes : ∀ i, dequeueAlone t false i s .loadThreshold = (s, .inl .fetchAdd, []) :=
          fun _ => by rw [dequeueAlone, dequeueStep, if_neg hthreshold]
        exact .next hgoes hfetchAdd

theorem Holds.serves (hs : Holds s h xs) (calls : List (Tid × Call P))
    (hcalls : Allowed P xs calls) (hbound : h + xs.length + calls.length ≤ bound P)
    (history : List (Event P)) :
    (program r).Serves NoSpurious (calls.map fun (t, c) => (t, { call := c }))
      (fun c => returns c.history = returns history ++ answers xs calls)
      ⟨s, fun _ => .idle, history⟩ := by
  induction calls generalizing s h xs history with
  | nil => exact (List.append_nil _).symm
  | cons call calls ih =>
      obtain ⟨t, call⟩ := call
      rw [List.length_cons] at hbound
      have hidle : Function.update (fun _ => Local.idle) t Local.idle
          = fun _ => (Local.idle : Local P) := by simp
      have hcall : returns (history ++ [.call t call]) = returns history := by
        simp [returns, returnOf]
      refine
        ⟨⟨s, Function.update (fun _ => .idle) t (start call), history ++ [.call t call]⟩, rfl, ?_⟩
      cases call with
      | enqueue eidx nonempty =>
          obtain ⟨hroom, hfits, hnonempty, hcalls⟩ := hcalls
          refine (finishes_enqueue (hs.enqueue t hroom hfits (by omega) hnonempty) hcall).mono ?_
          rintro ⟨s', ls', history'⟩ ⟨hls, hs', hout⟩
          obtain rfl : ls' = fun _ => .idle := hls.trans hidle
          have hlength : (xs ++ [eidx.toNat]).length = xs.length + 1 := by simp
          have hserves := ih hs' hcalls (by omega) history'
          simp only at hout
          rwa [hout] at hserves
      | dequeue nonempty =>
          obtain ⟨hnonempty, hcalls⟩ := hcalls
          refine (dequeue_finishes hs t (by omega) hnonempty hcall).mono ?_
          rintro ⟨s', ls', history'⟩ ⟨hls, ⟨h', hs', hle⟩, hout⟩
          obtain rfl : ls' = fun _ => .idle := hls.trans hidle
          have hserves := ih hs' hcalls (by omega) history'
          simp only at hout
          rw [hout, List.append_assoc] at hserves
          exact hserves

/-- **Used by one thread at a time, the ring is a FIFO list.** From a ring as an initialiser leaves
it, whatever calls are made and by whichever threads, as long as no more indices are in than the
ring has entries: every call comes to its end, and every dequeue returns the oldest index that is
in, or `LFRING_EMPTY` when there is none. -/
theorem ring_serves_fifo (hr : Initial P r xs) (calls : List (Tid × Call P))
    (hcalls : Allowed P xs calls) (hbound : slots P + calls.length ≤ bound P) :
    (program r).Serves NoSpurious (calls.map fun (t, c) => (t, { call := c }))
      (fun c => returns c.history = answers xs calls) (program r).init := by
  have hfresh := hr.fresh
  have hle := hfresh.tail_le
  exact hfresh.holds.serves calls hcalls (by omega) []

/-- A full ring gives out its two indices and one that was put in, and then nothing. -/
theorem ring_serves_fifo_full : (program (initFull (P := tiny) fun _ => 0)).Serves NoSpurious
    ([(0, .dequeue false), (1, .enqueue 2 false), (1, .dequeue true), (0, .dequeue false),
      (0, .dequeue false)].map fun (t, c) => (t, { call := c }))
    (fun c => returns c.history = [some 0, some 1, some 2, none])
    (program (initFull (P := tiny) fun _ => 0)).init :=
  ring_serves_fifo (.full _) _ ⟨by decide, by decide, by decide, by decide, by decide, by decide,
    by decide, trivial⟩ (by decide)

end QueueFairness.SCQueue
