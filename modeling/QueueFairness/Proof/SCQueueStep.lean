import QueueFairness.Proof.SCQueueWords

/-!
# The steps of the scalable circular queue

The words of a ring are read as the entries of a ring with cycles. Every step of a thread is then
one of the steps of such a ring, as long as the tickets leave a word its sign.
-/

namespace QueueFairness.SCQueue

open Interleaving
open CycleRing (Owns Done Seen Open Rely)

variable {P : Params}

/-- A ring with its words read. -/
def view (s : Ring P) : CycleRing.State where
  head := s.head.toNat
  tail := s.tail.toNat
  cell r := if r < slots P then decode (s.array (place P r)) else ⟨0, true, none⟩

/-- What an event says of the tickets. -/
def ringEvent : Event P → Option CycleRing.Event
  | .drawTail t k => some (.drawTail t k.toNat)
  | .drawHead t k => some (.drawHead t k.toNat)
  | .deposit t a k => some (.deposit t a.toNat k.toNat)
  | .take t a k => some (.take t a.toNat k.toNat)
  | .leave t k => some (.leave t k.toNat)
  | _ => none

/-- The entry of a ticket. -/
abbrev entryOf (s : CycleRing.State) (k : P.Atomic) : CycleRing.Entry := s.entry (slots P) k.toNat

theorem slots_pos : 0 < slots P := Nat.two_pow_pos _

theorem place_mod (k : P.Atomic) : place P (k.toNat % slots P) = (map P k).toNat := by
  rw [← place_toNat, place_eq_iff, Nat.mod_mod]

theorem view_cell (s : Ring P) {r : Nat} (hr : r < slots P) :
    (view s).cell r = decode (s.array (place P r)) :=
  if_pos hr

theorem view_entry (s : Ring P) (k : P.Atomic) : entryOf (view s) k = decode (s.entry k) := by
  rw [entryOf, CycleRing.State.entry, view_cell s (Nat.mod_lt _ slots_pos), place_mod, Ring.entry]

theorem view_setEntry (s : Ring P) (k e : P.Atomic) :
    view (s.setEntry k e) = (view s).set (slots P) k.toNat (decode e) := by
  have hlt : k.toNat % slots P < slots P := Nat.mod_lt _ slots_pos
  have hcell : (view (s.setEntry k e)).cell
      = Function.update (view s).cell (k.toNat % slots P) (decode e) := by
    funext r
    by_cases hr : r = k.toNat % slots P
    · subst hr
      rw [Function.update_self, view_cell _ hlt, place_mod]
      simp [Ring.setEntry]
    · rw [Function.update_of_ne hr]
      by_cases hrs : r < slots P
      · have hplace : place P r ≠ (map P k).toNat := fun heq => hr <| by
          rw [← place_toNat, place_eq_iff, Nat.mod_eq_of_lt hrs] at heq
          exact heq
        rw [view_cell _ hrs, view_cell _ hrs]
        simp [Ring.setEntry, hplace]
      · rw [view, view]
        simp [hrs]
  rw [CycleRing.State.set, ← hcell]
  rfl

/-! ### What a thread knows -/

section Local

variable (s : CycleRing.State) (h : List CycleRing.Event) (t : Tid)

/-- Thread `t` has this ticket of the tail. -/
def Drawn (k : P.Atomic) : Prop := k.toNat < bound P ∧ .drawTail t k.toNat ∈ h

/-- Thread `t` has this ticket of the head. -/
def Owned (k : P.Atomic) : Prop := k.toNat < bound P ∧ Owns h t k.toNat

/-- The word was that of an empty entry of an earlier cycle. -/
structure Free (k entry : P.Atomic) : Prop where
  vacant : Vacant entry
  cycle : cycle entry < CycleRing.cycleOf (slots P) k.toNat
  seen : Seen (slots P) s k.toNat (decode entry)

def EnqLoc : Enq P → Prop
  | .loadEntry tail => Drawn h t tail
  | .loadHead tail entry => Drawn h t tail ∧ Free s tail entry
  | .cas tail entry => Drawn h t tail ∧ Free s tail entry
      ∧ (safe entry = false → Open (slots P) s h tail.toNat (decode entry))
  | .fetchAdd | .loadThreshold | .storeThreshold => True

def DeqLoc : Deq P → Prop
  | .loadEntry head _ => Owned h t head
  | .fetchOr head entry => Owned h t head
      ∧ ∃ b, entryOf s head
        = ⟨CycleRing.cycleOf (slots P) head.toNat, b, some (entry &&& (n P - 1)).toNat⟩
  | .cas head entry entryNew _ => Owned h t head
      ∧ cycle entry < CycleRing.cycleOf (slots P) head.toNat
      ∧ (¬ Vacant entry ∧ safe entry = true ∧ entryNew = entry &&& ~~~(n P)
        ∨ Vacant entry ∧ entryNew = cycleOf head ^^^ (~~~entry &&& n P))
  | .loadTail head => head.toNat < bound P
  | .catchup tail head => head.toNat ≤ bound P ∧ tail.toNat ≤ head.toNat
  | .catchupTail head => head.toNat ≤ bound P
  | .loadThreshold | .fetchAdd | .catchupHead | .subEmpty | .sub => True

/-- The index of an enqueue is not the one of an empty entry. -/
def Fits (eidx : P.Atomic) : Prop := (eidx ^^^ (n P - 1)).toNat < slots P - 1

def Loc : Local P → Prop
  | .idle => True
  | .enqueue eidx _ l => Fits eidx ∧ EnqLoc s h t l
  | .dequeue _ l => DeqLoc s h t l

end Local

/-- What holds of a ring that began with the items `init` and the head ticket `first`. -/
structure Glob (first : Nat) (init : Multiset (Nat × Nat)) (s : CycleRing.State)
    (h : List CycleRing.Event) : Prop where
  ring : CycleRing.Ring (slots P) first init s h
  head_le : s.head ≤ bound P
  tail_le : s.tail ≤ bound P
  low : ∀ k, -1 ≤ (s.entry (slots P) k).cycle

variable {first : Nat} {init : Multiset (Nat × Nat)} {s s' : CycleRing.State} {r : Ring P}
  {h h' : List CycleRing.Event} {t u : Tid}

theorem Free.mono {k entry : P.Atomic} (hrely : Rely (slots P) t s s' h h')
    (hfree : Free s k entry) : Free s' k entry :=
  ⟨hfree.vacant, hfree.cycle, hrely.seen hfree.seen⟩

theorem Drawn.mono {k : P.Atomic} (hrely : Rely (slots P) t s s' h h') (hk : Drawn h t k) :
    Drawn h' t k :=
  ⟨hk.1, hrely.events hk.2⟩

theorem Owned.mono {k : P.Atomic} (hrely : Rely (slots P) t s s' h h') (hk : Owned h t k) :
    Owned h' t k :=
  ⟨hk.1, hrely.owns hk.2⟩

theorem EnqLoc.mono {l : Enq P} (hrely : Rely (slots P) t s s' h h') (hl : EnqLoc s h t l) :
    EnqLoc s' h' t l := by
  cases l with
  | loadEntry tail => exact Drawn.mono hrely hl
  | loadHead tail entry => exact ⟨hl.1.mono hrely, hl.2.mono hrely⟩
  | cas tail entry =>
      obtain ⟨hdrawn, hfree, hopen⟩ := hl
      exact ⟨hdrawn.mono hrely, hfree.mono hrely, fun hmarked =>
        hrely.open hfree.seen (item_vacant hfree.vacant) hfree.cycle (hopen hmarked)⟩
  | fetchAdd | loadThreshold | storeThreshold => trivial

theorem DeqLoc.mono {l : Deq P} (hrely : Rely (slots P) t s s' h h') (hl : DeqLoc s h t l) :
    DeqLoc s' h' t l := by
  cases l with
  | loadEntry head attempt => exact Owned.mono hrely hl
  | fetchOr head entry =>
      obtain ⟨hown, b, hentry⟩ := hl
      exact ⟨hown.mono hrely, hrely.taking hown.2 hentry⟩
  | cas head entry entryNew attempt => exact ⟨hl.1.mono hrely, hl.2⟩
  | loadTail | catchup | catchupTail => exact hl
  | loadThreshold | fetchAdd | catchupHead | subEmpty | sub => trivial

theorem Loc.mono {l : Local P} (hrely : Rely (slots P) t s s' h h') (hl : Loc s h t l) :
    Loc s' h' t l := by
  cases l with
  | idle => trivial
  | enqueue eidx nonempty le => exact ⟨hl.1, hl.2.mono hrely⟩
  | dequeue nonempty ld => exact DeqLoc.mono hrely hl

/-! ### Between two accesses -/

/-- What `retry` makes of a word that was just loaded. -/
theorem retry_loc {tail : P.Atomic} (hw : Glob first init (view r) h (P := P))
    (hdrawn : Drawn h t tail) : EnqLoc (view r) h t (.retry tail (r.entry tail)) := by
  have hentry := view_entry r tail
  have hlow : -1 ≤ cycle (r.entry tail) := by
    have hlow := hw.low tail.toNat
    change -1 ≤ (entryOf (view r) tail).cycle at hlow
    rw [hentry] at hlow
    exact hlow
  have hseen : Seen (slots P) (view r) tail.toNat (decode (r.entry tail)) := by
    rw [Seen, ← hentry]
  rw [Enq.retry]
  split
  · rename_i hcmp
    have hcycle := (cmp_ecycle_iff _ hdrawn.1 hlow).mp hcmp
    split
    · rename_i heq
      obtain ⟨hsafe, hvacant⟩ := (eq_ecycle_iff _).mp heq
      refine ⟨hdrawn, ⟨hvacant, hcycle, hseen⟩, fun hmarked => ?_⟩
      rw [hsafe] at hmarked
      cases hmarked
    · split
      · rename_i heq
        exact ⟨hdrawn, ((eq_flip_iff _).mp heq).2, hcycle, hseen⟩
      · trivial
  · trivial

/-- Why a dequeue leaves the inner loop at a word it has just loaded. -/
def Past (s : CycleRing.State) (head : P.Atomic) : Prop :=
  CycleRing.cycleOf (slots P) head.toNat < (entryOf s head).cycle
    ∨ (entryOf s head).safe = false ∧ (entryOf s head).item ≠ none
      ∧ (entryOf s head).cycle ≠ CycleRing.cycleOf (slots P) head.toNat

/-- What the inner loop of a dequeue makes of a word that was just loaded. -/
theorem examine_loc {head : P.Atomic} (hw : Glob first init (view r) h (P := P))
    (hown : Owned h t head) (attempt : Nat) :
    (∀ l, Deq.examine head (r.entry head) attempt = some l → DeqLoc (view r) h t l)
      ∧ (Deq.examine head (r.entry head) attempt = none → Past (view r) head) := by
  have hentry := view_entry r head
  have hlow : -1 ≤ cycle (r.entry head) := by
    have hlow := hw.low head.toNat
    change -1 ≤ (entryOf (view r) head).cycle at hlow
    rw [hentry] at hlow
    exact hlow
  have hpast : ¬ cmp (ecycle (r.entry head)) (cycleOf head) < 0 →
      ecycle (r.entry head) ≠ cycleOf head → Past (view r) head := fun hcmp hne => by
    rw [cmp_ecycle_iff _ hown.1 hlow] at hcmp
    rw [ne_eq, ecycle_eq_iff _ hown.1] at hne
    refine .inl ?_
    rw [hentry]
    exact lt_of_le_of_ne (not_lt.mp hcmp) (Ne.symm hne)
  simp only [Deq.examine]
  split
  · rename_i heq
    refine ⟨fun l hl => ?_, by simp⟩
    obtain rfl := Option.some.inj hl
    have hcycle := (ecycle_eq_iff _ hown.1).mp heq
    -- An empty entry of this cycle would mean that the dequeue of this ticket is done.
    have hfilled : ¬ Vacant (r.entry head) := fun hvacant => by
      have hfirst := (hw.ring.tickets.drawn.mp ⟨t, hown.2.1⟩).1
      refine hown.2.2 (hw.ring.entries.spent (k := head.toNat) ?_ ?_ hfirst)
      · change (entryOf (view r) head).item = none
        rw [hentry]
        exact item_vacant hvacant
      · change (entryOf (view r) head).cycle = _
        rw [hentry]
        exact hcycle
    refine ⟨hown, safe (r.entry head), ?_⟩
    rw [hentry, decode, hcycle, item, if_neg hfilled]
    rfl
  · rename_i hne
    split
    · rename_i hfilled
      rw [ne_eq, or_n_eq_iff] at hfilled
      split
      · rename_i hclear
        refine ⟨by simp, fun _ => .inr ?_⟩
        rw [hentry]
        refine ⟨(eq_clear_iff _).mp hclear, ?_, ?_⟩
        · exact fun hnone => hfilled (item_eq_none_iff.mp hnone)
        · exact fun hcycle => hne ((ecycle_eq_iff _ hown.1).mpr hcycle)
      · rename_i hclear
        rw [eq_clear_iff, Bool.not_eq_false] at hclear
        split
        · rename_i hcmp
          refine ⟨fun l hl => ?_, by simp⟩
          obtain rfl := Option.some.inj hl
          exact ⟨hown, (cmp_ecycle_iff _ hown.1 hlow).mp hcmp, .inl ⟨hfilled, hclear, rfl⟩⟩
        · rename_i hcmp
          exact ⟨by simp, fun _ => hpast hcmp hne⟩
    · rename_i hvacant
      rw [ne_eq, not_not, or_n_eq_iff] at hvacant
      split
      · refine ⟨fun l hl => ?_, by simp⟩
        obtain rfl := Option.some.inj hl
        exact hown
      · split
        · rename_i hcmp
          refine ⟨fun l hl => ?_, by simp⟩
          obtain rfl := Option.some.inj hl
          exact ⟨hown, (cmp_ecycle_iff _ hown.1 hlow).mp hcmp, .inr ⟨hvacant, rfl⟩⟩
        · rename_i hcmp
          exact ⟨by simp, fun _ => hpast hcmp hne⟩

/-! ### The steps -/

/-- A step of thread `t` is a step on the ring as it is read, and then the thread knows `K`. -/
structure Moves (t : Tid) (r r' : Ring P) (h es : List CycleRing.Event)
    (K : CycleRing.State → List CycleRing.Event → Prop) : Prop where
  step : CycleRing.Step (slots P) t (view r) h (view r') es
  head_le : r'.head.toNat ≤ bound P
  tail_le : r'.tail.toNat ≤ bound P
  loc : K (view r') (h ++ es)

theorem toNat_succ {k : P.Atomic} (hk : k.toNat < bound P) : (k + 1).toNat = k.toNat + 1 := by
  have hlt := P.order_lt
  have hpow : bound P < 2 ^ P.width := Nat.pow_lt_pow_right (by decide) (by omega)
  have hone : (1 : P.Atomic).toNat = 1 :=
    Nat.mod_eq_of_lt (Nat.one_lt_two_pow (by omega))
  rw [BitVec.toNat_add, hone, Nat.mod_eq_of_lt (by omega)]

section Steps

variable {r' : Ring P} {eidx : P.Atomic}

theorem Moves.stay {K : CycleRing.State → List CycleRing.Event → Prop}
    (hw : Glob first init (view r) h (P := P)) (hloc : K (view r) h) : Moves t r r h [] K :=
  ⟨.quiet, hw.head_le, hw.tail_le, by rwa [List.append_nil]⟩

/-- A step of `lfring_enqueue`. -/
theorem enqueue_moves (hw : Glob first init (view r) h (P := P)) {l : Enq P} (hfits : Fits eidx)
    (hl : EnqLoc (view r) h t l) (htail : r.tail.toNat < bound P) (spurious nonempty : Bool) :
    let res := enqueueStep t spurious eidx nonempty r l
    Moves t r res.1 h (res.2.2.filterMap ringEvent) fun s h =>
      ∀ l', res.2.1 = .inl l' → EnqLoc s h t l' := by
  cases l with
  | fetchAdd =>
      refine ⟨?_, hw.head_le, ?_, fun l' hl' => ?_⟩
      · have hview : view { r with tail := r.tail + 1 }
            = { view r with tail := (view r).tail + 1 } := by
          rw [view, view, toNat_succ htail]
        simp only [enqueueStep, hview]
        exact .drawTail
      · simp only [enqueueStep, toNat_succ htail]
        exact htail
      · obtain rfl := Sum.inl.inj hl'
        exact ⟨htail, by simp [enqueueStep, ringEvent]⟩
  | loadEntry tail =>
      refine .stay hw fun l' hl' => ?_
      obtain rfl := Sum.inl.inj hl'
      exact retry_loc hw hl
  | loadHead tail entry =>
      by_cases hhead : cmp r.head tail ≤ 0
      · have hres : enqueueStep t spurious eidx nonempty r (.loadHead tail entry)
            = (r, .inl (.cas tail entry), []) := if_pos hhead
        rw [hres]
        refine .stay hw fun l' hl' => ?_
        obtain rfl := Sum.inl.inj hl'
        obtain ⟨hdrawn, hfree⟩ := hl
        rw [cmp_tickets hw.head_le (le_of_lt hdrawn.1)] at hhead
        have hle : (view r).head ≤ tail.toNat := by
          change r.head.toNat ≤ tail.toNat
          omega
        exact ⟨hdrawn, hfree, fun _ => hw.ring.tickets.open hle _⟩
      · have hres : enqueueStep t spurious eidx nonempty r (.loadHead tail entry)
            = (r, .inl .fetchAdd, []) := if_neg hhead
        rw [hres]
        refine .stay hw fun l' hl' => ?_
        obtain rfl := Sum.inl.inj hl'
        trivial
  | cas tail entry =>
      obtain ⟨hdrawn, hfree, hopen⟩ := hl
      by_cases hcas : r.entry tail = entry ∧ ¬ spurious
      · have hres : enqueueStep t spurious eidx nonempty r (.cas tail entry)
            = (r.setEntry tail (cycleOf tail ^^^ eidx),
              if nonempty then .inr () else .inl .loadThreshold,
              [.deposit t (eidx ^^^ (n P - 1)) tail]) := if_pos hcas
        rw [hres]
        have hentry : entryOf (view r) tail = decode entry := by rw [view_entry, hcas.1]
        refine ⟨?_, hw.head_le, hw.tail_le, fun l' hl' => ?_⟩
        · simp only [view_setEntry, decode_deposit hdrawn.1 hfits]
          refine .deposit _ _ hdrawn.2 ?_ ?_ fun hmarked => ?_
          · change (entryOf (view r) tail).item = none
            rw [hentry]
            exact item_vacant hfree.vacant
          · change (entryOf (view r) tail).cycle < _
            rw [hentry]
            exact hfree.cycle
          · change (entryOf (view r) tail).safe = false at hmarked
            rw [hentry] at hmarked
            exact hopen hmarked hentry
        · cases nonempty
          · obtain rfl := Sum.inl.inj hl'
            trivial
          · cases hl'
      · have hres : enqueueStep t spurious eidx nonempty r (.cas tail entry)
            = (r, .inl (.retry tail (r.entry tail)), []) := if_neg hcas
        rw [hres]
        refine .stay hw fun l' hl' => ?_
        obtain rfl := Sum.inl.inj hl'
        exact retry_loc hw hdrawn
  | loadThreshold =>
      refine .stay hw fun l' hl' => ?_
      simp only [enqueueStep] at hl'
      split at hl'
      · obtain rfl := Sum.inl.inj hl'
        trivial
      · cases hl'
  | storeThreshold =>
      refine ⟨.quiet, hw.head_le, hw.tail_le, fun l' hl' => ?_⟩
      cases hl'

/-- A dequeue that has just loaded the entry of its ticket. -/
theorem examine_moves (hw : Glob first init (view r) h (P := P)) {head : P.Atomic}
    (hown : Owned h t head) (attempt : Nat) (nonempty : Bool) :
    let res := Deq.goOn t nonempty head (Deq.examine head (r.entry head) attempt)
    Moves t r r h (res.2.filterMap ringEvent) fun s h =>
      ∀ l', res.1 = .inl l' → DeqLoc s h t l' := by
  obtain ⟨hsome, hnone⟩ := examine_loc hw hown attempt
  cases hexamine : Deq.examine head (r.entry head) attempt with
  | some l =>
      refine .stay hw fun l' hl' => ?_
      obtain rfl := Sum.inl.inj hl'
      exact hsome l hexamine
  | none =>
      refine ⟨.leave _ hown.2 (hnone hexamine), hw.head_le, hw.tail_le, fun l' hl' => ?_⟩
      obtain rfl := Sum.inl.inj hl'
      cases nonempty
      · exact hown.1
      · trivial

/-- A step of `lfring_dequeue`. -/
theorem dequeue_moves (hw : Glob first init (view r) h (P := P)) {l : Deq P}
    (hl : DeqLoc (view r) h t l) (hhead : r.head.toNat < bound P) (spurious nonempty : Bool) :
    let res := dequeueStep t spurious nonempty r l
    Moves t r res.1 h (res.2.2.filterMap ringEvent) fun s h =>
      ∀ l', res.2.1 = .inl l' → DeqLoc s h t l' := by
  cases l with
  | loadThreshold =>
      refine .stay hw fun l' hl' => ?_
      simp only [dequeueStep] at hl'
      split at hl'
      · cases hl'
      · obtain rfl := Sum.inl.inj hl'
        trivial
  | fetchAdd =>
      refine ⟨?_, ?_, hw.tail_le, fun l' hl' => ?_⟩
      · have hview : view { r with head := r.head + 1 }
            = { view r with head := (view r).head + 1 } := by
          rw [view, view, toNat_succ hhead]
        simp only [dequeueStep, hview]
        exact .drawHead
      · simp only [dequeueStep, toNat_succ hhead]
        exact hhead
      · obtain rfl := Sum.inl.inj hl'
        refine ⟨hhead, by simp [dequeueStep, ringEvent], fun hdone => ?_⟩
        rcases CycleRing.done_append.mp hdone with hdone | hdone
        · exact absurd (hw.ring.tickets.done_lt hdone).2 (lt_irrefl _)
        · exact absurd hdone CycleRing.done_drawHead
  | loadEntry head attempt => exact examine_moves hw hl attempt nonempty
  | fetchOr head entry =>
      obtain ⟨hown, b, hentry⟩ := hl
      refine ⟨?_, hw.head_le, hw.tail_le, fun l' hl' => by cases hl'⟩
      have hdecode : decode (r.entry head)
          = ⟨CycleRing.cycleOf (slots P) head.toNat, b, some (entry &&& (n P - 1)).toNat⟩ := by
        rw [← view_entry, hentry]
      obtain ⟨hcycle, hsafe, -⟩ := CycleRing.Entry.mk.inj hdecode
      simp only [dequeueStep, view_setEntry, decode_or, hcycle, hsafe]
      exact .take _ _ _ hown.2 hentry
  | cas head entry entryNew attempt =>
      obtain ⟨hown, hcycle, hnew⟩ := hl
      by_cases hcas : r.entry head = entry ∧ ¬ spurious
      · have hres : dequeueStep t spurious nonempty r (.cas head entry entryNew attempt)
            = (r.setEntry head entryNew, Deq.goOn t nonempty head none) := if_pos hcas
        have hentry : entryOf (view r) head = decode entry := by rw [view_entry, hcas.1]
        rw [hres]
        refine ⟨?_, hw.head_le, hw.tail_le, fun l' hl' => ?_⟩
        · rcases hnew with ⟨hfilled, hsafe, rfl⟩ | ⟨hvacant, rfl⟩
          · have hmark : decode (entry &&& ~~~(n P))
                = { entryOf (view r) head with safe := false } := by
              rw [decode_clear, hentry]
              rfl
            simp only [view_setEntry, hmark]
            refine .mark _ hown.2 ?_ ?_ ?_ <;> simp only [hentry]
            · exact fun hnone => hfilled (item_eq_none_iff.mp hnone)
            · exact hsafe
            · exact hcycle
          · have hskip : decode (cycleOf head ^^^ (~~~entry &&& n P))
                = { entryOf (view r) head with
                    cycle := CycleRing.cycleOf (slots P) head.toNat } := by
              rw [decode_skip _ hown.1, hentry, decode, item_vacant hvacant]
            simp only [view_setEntry, hskip]
            refine .skip _ hown.2 ?_ ?_ <;> simp only [hentry]
            · exact item_vacant hvacant
            · exact hcycle
        · obtain rfl := Sum.inl.inj hl'
          cases nonempty
          · exact hown.1
          · trivial
      · have hres : dequeueStep t spurious nonempty r (.cas head entry entryNew attempt)
            = (r, Deq.goOn t nonempty head (Deq.examine head (r.entry head) attempt)) :=
          if_neg hcas
        rw [hres]
        exact examine_moves hw hown attempt nonempty
  | loadTail head =>
      refine .stay hw fun l' hl' => ?_
      obtain rfl := Sum.inl.inj hl'
      have hsucc := toNat_succ hl
      have hle : (head + 1).toNat ≤ bound P := by
        rw [hsucc]
        exact hl
      split
      · rename_i hcmp
        rw [cmp_tickets hw.tail_le hle] at hcmp
        exact ⟨hle, by omega⟩
      · trivial
  | catchup tail head =>
      by_cases hcas : r.tail = tail ∧ ¬ spurious
      · have hres : dequeueStep t spurious nonempty r (.catchup tail head)
            = ({ r with tail := head }, .inl .subEmpty, []) := if_pos hcas
        rw [hres]
        refine ⟨.catchUp head.toNat ?_, hw.head_le, hl.1, fun l' hl' => ?_⟩
        · change r.tail.toNat ≤ head.toNat
          rw [hcas.1]
          exact hl.2
        · obtain rfl := Sum.inl.inj hl'
          trivial
      · have hres : dequeueStep t spurious nonempty r (.catchup tail head)
            = (r, .inl .catchupHead, []) := if_neg hcas
        rw [hres]
        refine .stay hw fun l' hl' => ?_
        obtain rfl := Sum.inl.inj hl'
        trivial
  | catchupHead =>
      refine .stay hw fun l' hl' => ?_
      obtain rfl := Sum.inl.inj hl'
      exact hw.head_le
  | catchupTail head =>
      refine .stay hw fun l' hl' => ?_
      obtain rfl := Sum.inl.inj hl'
      split
      · trivial
      · rename_i hcmp
        rw [cmp_tickets hw.tail_le hl] at hcmp
        exact ⟨hl, by omega⟩
  | subEmpty =>
      exact ⟨.quiet, hw.head_le, hw.tail_le, fun l' hl' => by cases hl'⟩
  | sub =>
      refine ⟨.quiet, hw.head_le, hw.tail_le, fun l' hl' => ?_⟩
      simp only [dequeueStep] at hl'
      split at hl'
      · cases hl'
      · obtain rfl := Sum.inl.inj hl'
        trivial

end Steps

end QueueFairness.SCQueue
