import Mathlib.Algebra.BigOperators.Group.Finset.Basic
import Mathlib.Algebra.Order.Group.Int
import Mathlib.Algebra.Order.Group.Multiset
import Mathlib.Algebra.Order.Group.Nat
import Mathlib.Tactic.Abel
import QueueFairness.Lib.Interleaving

/-!
# Rings of entries with cycles

Producers and consumers draw tickets from two counters, and a ticket names an entry and a cycle: the
entry by its remainder, the cycle by its quotient. A producer may put an item into an empty entry of
an earlier cycle. A consumer takes the item of its cycle, or else sees to it that no producer of its
ticket finds a way in any more: it finds the entry past its cycle, moves an empty entry on to its
cycle, or marks an entry that still holds an older item as unsafe. Into an unsafe entry a producer
puts its item only when it has seen after the entry that no consumer has drawn its ticket.

The steps are stated with their conditions, whatever program takes them; what every step keeps, and
what it leaves to the other threads, is proved of them here.
-/

namespace CycleRing

open Interleaving (Tid)

structure Entry where
  cycle : Int
  safe : Bool
  item : Option Nat
  deriving DecidableEq

/-- The counters, and the entries by their remainders. -/
structure State where
  head : Nat
  tail : Nat
  cell : Nat → Entry

inductive Event where
  | drawTail (t : Tid) (k : Nat)
  | drawHead (t : Tid) (k : Nat)
  | deposit (t : Tid) (a k : Nat)
  | take (t : Tid) (a k : Nat)
  | leave (t : Tid) (k : Nat)
  deriving DecidableEq

/-- How far an entry has come: it holds an item, then one that is marked, then none. -/
def Entry.rank (e : Entry) : Int :=
  3 * e.cycle + if e.item = none then 2 else if e.safe then 0 else 1

variable {N : Nat}

/-- The cycle of a ticket. -/
def cycleOf (N k : Nat) : Int := (k / N : Nat)

/-- The entry of a ticket. -/
def State.entry (N : Nat) (s : State) (k : Nat) : Entry := s.cell (k % N)

def State.set (N : Nat) (s : State) (k : Nat) (e : Entry) : State :=
  { s with cell := Function.update s.cell (k % N) e }

theorem State.entry_set (s : State) (k j : Nat) (e : Entry) :
    (s.set N k e).entry N j = if j % N = k % N then e else s.entry N j := by
  simp [State.entry, State.set, Function.update_apply]

@[simp] theorem State.entry_set_self (s : State) (k : Nat) (e : Entry) :
    (s.set N k e).entry N k = e := by
  rw [State.entry_set, if_pos rfl]

theorem State.entry_congr (s : State) {j k : Nat} (h : j % N = k % N) :
    s.entry N j = s.entry N k := by
  rw [State.entry, State.entry, h]

/-- An entry and a cycle have one ticket. -/
theorem eq_of_cycleOf {j k : Nat} (hmod : j % N = k % N) (hcycle : cycleOf N j = cycleOf N k) :
    j = k := by
  have hdiv : j / N = k / N := Int.ofNat_inj.mp hcycle
  rw [← Nat.div_add_mod j N, ← Nat.div_add_mod k N, hmod, hdiv]

theorem cycleOf_mono {j k : Nat} (h : j ≤ k) : cycleOf N j ≤ cycleOf N k :=
  Int.ofNat_le.mpr (Nat.div_le_div_right h)

theorem cycleOf_nonneg (k : Nat) : 0 ≤ cycleOf N k := Int.natCast_nonneg _

/-! ### What the history says -/

def tailOf : Event → Option Nat
  | .drawTail _ k => some k
  | _ => none

def headOf : Event → Option Nat
  | .drawHead _ k => some k
  | _ => none

def depositOf : Event → Option (Nat × Nat)
  | .deposit _ a k => some (k, a)
  | _ => none

def takeOf : Event → Option (Nat × Nat)
  | .take _ a k => some (k, a)
  | _ => none

def doneOf : Event → Option Nat
  | .take _ _ k => some k
  | .leave _ k => some k
  | _ => none

/-- The consumer with this ticket is done with the entry. -/
def Done (h : List Event) (k : Nat) : Prop := k ∈ h.filterMap doneOf

/-- Thread `t` has this ticket of the head and is not done with the entry. -/
def Owns (h : List Event) (t : Tid) (k : Nat) : Prop := .drawHead t k ∈ h ∧ ¬ Done h k

/-- The item of an entry under its ticket. -/
def held (N r : Nat) (e : Entry) : Multiset (Nat × Nat) :=
  match e.item with
  | some a => {((e.cycle * N + r).toNat, a)}
  | none => 0

/-- The items in the ring. -/
def stored (N : Nat) (s : State) : Multiset (Nat × Nat) :=
  ∑ r ∈ Finset.range N, held N r (s.cell r)

theorem held_ticket (k : Nat) (b : Bool) (a : Nat) :
    held N (k % N) ⟨cycleOf N k, b, some a⟩ = {(k, a)} := by
  have hk : (cycleOf N k * N + (k % N : Nat)).toNat = k := by
    rw [cycleOf, ← Int.natCast_mul, ← Int.natCast_add, Int.toNat_natCast, Nat.div_add_mod']
  rw [held, hk]

theorem stored_set (hN : 0 < N) (s : State) (k : Nat) (e : Entry) :
    stored N (s.set N k e) + held N (k % N) (s.entry N k)
      = stored N s + held N (k % N) e := by
  have hmem : k % N ∈ Finset.range N := Finset.mem_range.mpr (Nat.mod_lt k hN)
  have hold := Finset.add_sum_erase _ (fun r => held N r (s.cell r)) hmem
  have hnew := Finset.add_sum_erase _ (fun r => held N r ((s.set N k e).cell r)) hmem
  have hothers : ∑ r ∈ (Finset.range N).erase (k % N), held N r ((s.set N k e).cell r)
      = ∑ r ∈ (Finset.range N).erase (k % N), held N r (s.cell r) := by
    refine Finset.sum_congr rfl fun r hr => ?_
    simp [State.set, Finset.ne_of_mem_erase hr]
  have hself : (s.set N k e).cell (k % N) = e := Function.update_self ..
  rw [hothers, hself] at hnew
  rw [stored, stored, ← hnew, ← hold, State.entry]
  abel

theorem stored_set_same (hN : 0 < N) (s : State) (k : Nat) {e : Entry}
    (hitem : e.item = (s.entry N k).item)
    (hcycle : e.item = none ∨ e.cycle = (s.entry N k).cycle) :
    stored N (s.set N k e) = stored N s := by
  have hset := stored_set hN s k e
  have hheld : held N (k % N) e = held N (k % N) (s.entry N k) := by
    rcases hcycle with hnone | hcycle
    · simp [held, ← hitem, hnone]
    · simp [held, hitem, hcycle]
  rw [hheld] at hset
  exact add_right_cancel hset

/-! ### The steps -/

/-- What a step of thread `t` can do to the ring, and under which conditions. -/
inductive Step (N : Nat) (t : Tid) (s : State) (h : List Event) : State → List Event → Prop
  | quiet : Step N t s h s []
  | drawTail : Step N t s h { s with tail := s.tail + 1 } [.drawTail t s.tail]
  | drawHead : Step N t s h { s with head := s.head + 1 } [.drawHead t s.head]
  | catchUp (k : Nat) (htail : s.tail ≤ k) : Step N t s h { s with tail := k } []
  | deposit (k a : Nat) (hdrawn : .drawTail t k ∈ h) (hnone : (s.entry N k).item = none)
      (hcycle : (s.entry N k).cycle < cycleOf N k)
      (hopen : (s.entry N k).safe = false → ∀ j, k ≤ j → j % N = k % N → ¬ Done h j) :
      Step N t s h (s.set N k ⟨cycleOf N k, true, some a⟩) [.deposit t a k]
  | take (k a : Nat) (b : Bool) (hown : Owns h t k)
      (hentry : s.entry N k = ⟨cycleOf N k, b, some a⟩) :
      Step N t s h (s.set N k ⟨cycleOf N k, b, none⟩) [.take t a k]
  | leave (k : Nat) (hown : Owns h t k)
      (hpast : cycleOf N k < (s.entry N k).cycle
        ∨ (s.entry N k).safe = false ∧ (s.entry N k).item ≠ none
          ∧ (s.entry N k).cycle ≠ cycleOf N k) :
      Step N t s h s [.leave t k]
  | mark (k : Nat) (hown : Owns h t k) (hsome : (s.entry N k).item ≠ none)
      (hsafe : (s.entry N k).safe = true) (hcycle : (s.entry N k).cycle < cycleOf N k) :
      Step N t s h (s.set N k { s.entry N k with safe := false }) [.leave t k]
  | skip (k : Nat) (hown : Owns h t k) (hnone : (s.entry N k).item = none)
      (hcycle : (s.entry N k).cycle < cycleOf N k) :
      Step N t s h (s.set N k { s.entry N k with cycle := cycleOf N k }) [.leave t k]

/-! ### What every step keeps -/

/-- What is known of the entries. -/
structure Entries (N first : Nat) (s : State) (h : List Event) : Prop where
  done : ∀ {k}, Done h k →
    cycleOf N k ≤ (s.entry N k).cycle ∨ (s.entry N k).safe = false
  full : ∀ {k}, (s.entry N k).item ≠ none → (s.entry N k).cycle = cycleOf N k → ¬ Done h k
  spent : ∀ {k}, (s.entry N k).item = none → (s.entry N k).cycle = cycleOf N k → first ≤ k →
    Done h k
  nonneg : ∀ {k}, (s.entry N k).item ≠ none → 0 ≤ (s.entry N k).cycle

/-- What is known of the tickets: they are drawn in order. -/
structure Tickets (first : Nat) (s : State) (h : List Event) : Prop where
  head_le : first ≤ s.head
  heads : h.filterMap headOf = List.range' first (s.head - first)
  done : ∀ {k}, Done h k → ∃ t, .drawHead t k ∈ h
  once : (h.filterMap doneOf).Nodup
  tail_le : first ≤ s.tail
  tails : (h.filterMap tailOf).Pairwise (· < ·)
  tail_lt : ∀ k ∈ h.filterMap tailOf, first ≤ k ∧ k < s.tail
  deposit : ∀ {t a k}, .deposit t a k ∈ h → .drawTail t k ∈ h

/-- What holds of a ring that began with the items `init` and the head ticket `first`. -/
structure Ring (N first : Nat) (init : Multiset (Nat × Nat)) (s : State) (h : List Event) :
    Prop where
  entries : Entries N first s h
  tickets : Tickets first s h
  account : init + ↑(h.filterMap depositOf) = ↑(h.filterMap takeOf) + stored N s

section Keeps

variable {first : Nat} {init : Multiset (Nat × Nat)} {t u : Tid} {s s' : State}
  {h es : List Event} {j k a : Nat}

theorem done_append : Done (h ++ es) k ↔ Done h k ∨ Done es k := by
  simp [Done]

@[simp] theorem done_nil : ¬ Done [] k := by simp [Done]

@[simp] theorem done_leave : Done [.leave t j] k ↔ k = j := by simp [Done, doneOf]

@[simp] theorem done_take : Done [.take t a j] k ↔ k = j := by simp [Done, doneOf]

@[simp] theorem done_deposit : ¬ Done [.deposit t a j] k := by simp [Done, doneOf]

@[simp] theorem done_drawHead : ¬ Done [.drawHead t j] k := by simp [Done, doneOf]

@[simp] theorem done_drawTail : ¬ Done [.drawTail t j] k := by simp [Done, doneOf]

/-- Nothing changes for the entries when they stay and no consumer gets done. -/
theorem Entries.keep (hw : Entries N first s h) (hcell : s'.cell = s.cell)
    (hdone : ∀ k, ¬ Done es k) : Entries N first s' (h ++ es) := by
  have hentry : ∀ k, s'.entry N k = s.entry N k := fun k => by rw [State.entry, hcell, State.entry]
  have hiff : ∀ k, Done (h ++ es) k ↔ Done h k := fun k => by simp [done_append, hdone k]
  refine ⟨fun hk => ?_, fun hsome hcycle hk => ?_, fun hnone hcycle hk => ?_, fun hsome => ?_⟩
  · rw [hentry]
    exact hw.done ((hiff _).mp hk)
  · rw [hentry] at hsome hcycle
    exact hw.full hsome hcycle ((hiff _).mp hk)
  · rw [hentry] at hnone hcycle
    exact (hiff _).mpr (hw.spent hnone hcycle hk)
  · rw [hentry] at hsome ⊢
    exact hw.nonneg hsome

/-- The consumer with ticket `k` is done without touching the entry. -/
theorem Entries.leave (hw : Entries N first s h)
    (hpast : cycleOf N k < (s.entry N k).cycle
      ∨ (s.entry N k).safe = false ∧ (s.entry N k).item ≠ none
        ∧ (s.entry N k).cycle ≠ cycleOf N k) :
    Entries N first s (h ++ [.leave t k]) := by
  refine ⟨fun hj => ?_, fun {j} hsome hcycle hj => ?_, fun hnone hcycle hj => ?_, hw.nonneg⟩
  · rcases done_append.mp hj with hj | hj
    · exact hw.done hj
    · obtain rfl := done_leave.mp hj
      exact hpast.imp le_of_lt And.left
  · rcases done_append.mp hj with hj | hj
    · exact hw.full hsome hcycle hj
    · obtain rfl := done_leave.mp hj
      rcases hpast with hlt | ⟨-, -, hne⟩
      · exact absurd hcycle (ne_of_gt hlt)
      · exact hne hcycle
  · exact done_append.mpr (.inl (hw.spent hnone hcycle hj))

/-- The entry of ticket `k` is written. -/
theorem Entries.write (hw : Entries N first s h) {e : Entry}
    (hdone : ∀ j, j % N = k % N → Done (h ++ es) j → cycleOf N j ≤ e.cycle ∨ e.safe = false)
    (hfull : ∀ j, j % N = k % N → e.item ≠ none → e.cycle = cycleOf N j → ¬ Done (h ++ es) j)
    (hspent : ∀ j, j % N = k % N → e.item = none → e.cycle = cycleOf N j → first ≤ j →
      Done (h ++ es) j)
    (hnonneg : e.item ≠ none → 0 ≤ e.cycle) (hes : ∀ j, Done es j → j % N = k % N) :
    Entries N first (s.set N k e) (h ++ es) := by
  have hold : ∀ {j}, j % N ≠ k % N → Done (h ++ es) j → Done h j := fun hne hj =>
    (done_append.mp hj).resolve_right fun hj => hne (hes _ hj)
  refine ⟨fun {j} hj => ?_, fun {j} hsome hcycle hj => ?_, fun {j} hnone hcycle hj => ?_,
    fun {j} hsome => ?_⟩ <;>
  by_cases hjk : j % N = k % N
  · rw [State.entry_set, if_pos hjk]
    exact hdone j hjk hj
  · rw [State.entry_set, if_neg hjk]
    exact hw.done (hold hjk hj)
  · rw [State.entry_set, if_pos hjk] at hsome hcycle
    exact hfull j hjk hsome hcycle hj
  · rw [State.entry_set, if_neg hjk] at hsome hcycle
    exact hw.full hsome hcycle (hold hjk hj)
  · rw [State.entry_set, if_pos hjk] at hnone hcycle
    exact hspent j hjk hnone hcycle hj
  · rw [State.entry_set, if_neg hjk] at hnone hcycle
    exact done_append.mpr (.inl (hw.spent hnone hcycle hj))
  · rw [State.entry_set, if_pos hjk] at hsome ⊢
    exact hnonneg hsome
  · rw [State.entry_set, if_neg hjk] at hsome ⊢
    exact hw.nonneg hsome

/-- A consumer that meets an entry of an earlier cycle is done with it for good: whoever was done
with it before is so still, as long as the entry keeps its mark. -/
theorem Entries.done_of_le (hw : Entries N first s h) (hjk : j % N = k % N) (hj : Done h j) :
    cycleOf N j ≤ (s.entry N k).cycle ∨ (s.entry N k).safe = false := by
  rw [← s.entry_congr hjk]
  exact hw.done hj

theorem Step.entries (hw : Entries N first s h) (hstep : Step N t s h s' es) :
    Entries N first s' (h ++ es) := by
  cases hstep with
  | quiet | drawTail | drawHead | catchUp => exact hw.keep rfl (by simp)
  | leave k hown hpast => exact hw.leave hpast
  | deposit k a hdrawn hnone hcycle hopen =>
      have hdone : ∀ j, Done (h ++ [.deposit t a k]) j ↔ Done h j := fun j => by
        simp [done_append]
      refine hw.write (fun j hjk hj => .inl ?_) (fun j hjk _ heq hj => ?_) (by simp)
        (fun _ => cycleOf_nonneg k) (by simp)
      · rcases hw.done_of_le hjk ((hdone j).mp hj) with hle | hmarked
        · exact le_of_lt (lt_of_le_of_lt hle hcycle)
        · have hlt : j < k := by
            by_contra hge
            exact hopen hmarked j (Nat.not_lt.mp hge) hjk ((hdone j).mp hj)
          exact cycleOf_mono (le_of_lt hlt)
      · obtain rfl := eq_of_cycleOf hjk heq.symm
        rcases hw.done ((hdone j).mp hj) with hle | hmarked
        · exact absurd hcycle (not_lt_of_ge hle)
        · exact hopen hmarked j (le_refl j) rfl ((hdone j).mp hj)
  | take k a b hown hentry =>
      refine hw.write (fun j hjk hj => ?_) (by simp) (fun j hjk _ heq _ => ?_) (by simp) (by simp)
      · rcases done_append.mp hj with hj | hj
        · simpa [hentry] using hw.done_of_le hjk hj
        · obtain rfl := done_take.mp hj
          exact .inl (le_refl _)
      · obtain rfl := eq_of_cycleOf hjk heq.symm
        exact done_append.mpr (.inr (done_take.mpr rfl))
  | mark k hown hsome hsafe hcycle =>
      refine hw.write (fun _ _ _ => .inr rfl) (fun j hjk _ heq hj => ?_)
        (fun _ _ hnone _ _ => absurd hnone hsome) (fun _ => hw.nonneg hsome) (by simp)
      rcases done_append.mp hj with hj | hj
      · rw [← s.entry_congr hjk] at hsome heq
        exact hw.full hsome heq hj
      · obtain rfl := done_leave.mp hj
        exact absurd heq (ne_of_lt hcycle)
  | skip k hown hnone hcycle =>
      refine hw.write (fun j hjk hj => ?_) (fun _ _ hsome _ _ => absurd hnone hsome)
        (fun j hjk _ heq _ => ?_) (fun hsome => absurd hnone hsome) (by simp)
      · rcases done_append.mp hj with hj | hj
        · exact (hw.done_of_le hjk hj).imp_left fun hle => le_of_lt (lt_of_le_of_lt hle hcycle)
        · obtain rfl := done_leave.mp hj
          exact .inl (le_refl _)
      · obtain rfl := eq_of_cycleOf hjk heq.symm
        exact done_append.mpr (.inr (done_leave.mpr rfl))

theorem eq_of_nodup_filterMap {α β : Type} {f : α → Option β} {l : List α} {x y : α} {b : β}
    (hl : (l.filterMap f).Nodup) (hx : x ∈ l) (hy : y ∈ l) (hfx : f x = some b)
    (hfy : f y = some b) : x = y := by
  induction l with
  | nil => cases hx
  | cons z l ih =>
      cases hz : f z with
      | none =>
          rw [List.filterMap_cons_none hz] at hl
          refine ih hl (List.mem_of_ne_of_mem ?_ hx) (List.mem_of_ne_of_mem ?_ hy)
          · rintro rfl
            simp [hz] at hfx
          · rintro rfl
            simp [hz] at hfy
      | some c =>
          rw [List.filterMap_cons_some hz, List.nodup_cons] at hl
          have hnot : ∀ {w}, w ∈ l → f w = some b → c ≠ b := fun hw hfw heq =>
            hl.1 (heq ▸ List.mem_filterMap.mpr ⟨_, hw, hfw⟩)
          rcases List.mem_cons.mp hx with rfl | hxl <;> rcases List.mem_cons.mp hy with rfl | hyl
          · rfl
          · exact absurd (Option.some.inj (hz.symm.trans hfx)) (hnot hyl hfy)
          · exact absurd (Option.some.inj (hz.symm.trans hfy)) (hnot hxl hfx)
          · exact ih hl.2 hxl hyl

theorem drawHead_mem : (∃ t, .drawHead t k ∈ h) ↔ k ∈ h.filterMap headOf := by
  rw [List.mem_filterMap]
  refine ⟨fun ⟨t, ht⟩ => ⟨_, ht, rfl⟩, fun ⟨e, he, hk⟩ => ?_⟩
  cases e <;> simp [headOf] at hk
  exact ⟨_, hk ▸ he⟩

/-- The tickets of the head up to the counter are drawn, and no others. -/
theorem Tickets.drawn (hw : Tickets first s h) :
    (∃ t, .drawHead t k ∈ h) ↔ first ≤ k ∧ k < s.head := by
  have hle := hw.head_le
  rw [drawHead_mem, hw.heads, List.mem_range'_1]
  omega

/-- A ticket of the head has one owner. -/
theorem Tickets.drawer (hw : Tickets first s h) (ht : .drawHead t k ∈ h) (hu : .drawHead u k ∈ h) :
    t = u := by
  have hnodup : (h.filterMap headOf).Nodup := hw.heads ▸ List.nodup_range'
  exact (Event.drawHead.inj (eq_of_nodup_filterMap hnodup ht hu rfl rfl)).1

theorem Tickets.owner (hw : Tickets first s h) (ht : Owns h t k) (hu : Owns h u k) : t = u :=
  hw.drawer ht.1 hu.1

theorem Tickets.done_lt (hw : Tickets first s h) (hk : Done h k) : first ≤ k ∧ k < s.head :=
  hw.drawn.mp (hw.done hk)

/-- A step that draws no ticket. -/
theorem Tickets.keep (hw : Tickets first s h) (hhead : s'.head = s.head) (htail : s.tail ≤ s'.tail)
    (hheads : es.filterMap headOf = []) (htails : es.filterMap tailOf = [])
    (hdone : ∀ k, Done es k → Owns h t k) (honce : (es.filterMap doneOf).Nodup)
    (hdeposit : ∀ {u a k}, .deposit u a k ∈ es → .drawTail u k ∈ h) :
    Tickets first s' (h ++ es) := by
  refine ⟨hhead ▸ hw.head_le, ?_, fun {k} hk => ?_, ?_, le_trans hw.tail_le htail, ?_,
    fun k hk => ?_, fun hd => ?_⟩
  · rw [List.filterMap_append, hheads, List.append_nil, hhead, hw.heads]
  · rcases done_append.mp hk with hk | hk
    · obtain ⟨u, hu⟩ := hw.done hk
      exact ⟨u, List.mem_append_left _ hu⟩
    · exact ⟨t, List.mem_append_left _ (hdone k hk).1⟩
  · rw [List.filterMap_append, List.nodup_append]
    refine ⟨hw.once, honce, fun k hk j hj heq => ?_⟩
    exact (hdone j hj).2 (heq ▸ hk)
  · rw [List.filterMap_append, htails, List.append_nil]
    exact hw.tails
  · rw [List.filterMap_append, htails, List.append_nil] at hk
    exact (hw.tail_lt k hk).imp_right fun hlt => lt_of_lt_of_le hlt htail
  · rcases List.mem_append.mp hd with hd | hd
    · exact List.mem_append_left _ (hw.deposit hd)
    · exact List.mem_append_left _ (hdeposit hd)

theorem Step.tickets (hw : Tickets first s h) (hstep : Step N t s h s' es) :
    Tickets first s' (h ++ es) := by
  cases hstep with
  | quiet => simpa using hw
  | catchUp k htail => exact hw.keep (t := t) rfl htail rfl rfl (by simp) (by simp) (by simp)
  | drawTail =>
      have hlt : ∀ k ∈ h.filterMap tailOf, k < s.tail := fun k hk => (hw.tail_lt k hk).2
      have htails : (h ++ [Event.drawTail t s.tail]).filterMap tailOf
          = h.filterMap tailOf ++ [s.tail] :=
        List.filterMap_append
      have hheads : (h ++ [Event.drawTail t s.tail]).filterMap headOf = h.filterMap headOf := by
        rw [List.filterMap_append]
        exact List.append_nil _
      have hdone : (h ++ [Event.drawTail t s.tail]).filterMap doneOf = h.filterMap doneOf := by
        rw [List.filterMap_append]
        exact List.append_nil _
      refine ⟨hw.head_le, hheads.trans hw.heads, fun hk => ?_, hdone ▸ hw.once,
        Nat.le_succ_of_le hw.tail_le, ?_, fun k hk => ?_, fun hd => ?_⟩
      · obtain ⟨u, hu⟩ := hw.done (by simpa [done_append] using hk)
        exact ⟨u, List.mem_append_left _ hu⟩
      · rw [htails, List.pairwise_append]
        refine ⟨hw.tails, List.pairwise_singleton _ _, fun j hj k hk => ?_⟩
        rw [List.mem_singleton.mp hk]
        exact hlt j hj
      · rw [htails] at hk
        rcases List.mem_append.mp hk with hk | hk
        · exact (hw.tail_lt k hk).imp_right Nat.lt_succ_of_lt
        · rw [List.mem_singleton.mp hk]
          exact ⟨hw.tail_le, Nat.lt_succ_self _⟩
      · exact List.mem_append_left _ (hw.deposit (by simpa using hd))
  | drawHead =>
      have hle := hw.head_le
      have hheads : (h ++ [Event.drawHead t s.head]).filterMap headOf
          = h.filterMap headOf ++ [s.head] :=
        List.filterMap_append
      have htails : (h ++ [Event.drawHead t s.head]).filterMap tailOf = h.filterMap tailOf := by
        rw [List.filterMap_append]
        exact List.append_nil _
      have hdone : (h ++ [Event.drawHead t s.head]).filterMap doneOf = h.filterMap doneOf := by
        rw [List.filterMap_append]
        exact List.append_nil _
      refine
        ⟨Nat.le_succ_of_le hle, ?_, fun hk => ?_, hdone ▸ hw.once, hw.tail_le, htails ▸ hw.tails,
        fun k hk => hw.tail_lt k (htails ▸ hk), fun hd => ?_⟩
      · have hsub : s.head + 1 - first = s.head - first + 1 := by omega
        have hlast : first + (s.head - first) = s.head := by omega
        rw [hheads, hw.heads, hsub, List.range'_1_concat, hlast]
      · obtain ⟨u, hu⟩ := hw.done (by simpa [done_append] using hk)
        exact ⟨u, List.mem_append_left _ hu⟩
      · exact List.mem_append_left _ (hw.deposit (by simpa using hd))
  | deposit k a hdrawn hnone hcycle hopen =>
      refine hw.keep (t := t) rfl (le_refl _) rfl rfl (fun _ hj => absurd hj done_deposit)
        List.nodup_nil fun hd => ?_
      obtain ⟨rfl, rfl, rfl⟩ := Event.deposit.inj (List.mem_singleton.mp hd)
      exact hdrawn
  | take k a b hown hentry =>
      refine hw.keep (t := t) rfl (le_refl _) rfl rfl (fun j hj => ?_) (by simp [doneOf]) (by simp)
      exact done_take.mp hj ▸ hown
  | leave k hown | mark k hown | skip k hown =>
      refine hw.keep (t := t) rfl (le_refl _) rfl rfl (fun j hj => ?_) (by simp [doneOf]) (by simp)
      exact done_leave.mp hj ▸ hown

/-- **Items are where they were put until they are taken.** -/
theorem Step.account (hN : 0 < N)
    (hw : init + ↑(h.filterMap depositOf) = ↑(h.filterMap takeOf) + stored N s)
    (hstep : Step N t s h s' es) :
    init + ↑((h ++ es).filterMap depositOf) = ↑((h ++ es).filterMap takeOf) + stored N s' := by
  have hsame : es.filterMap depositOf = [] → es.filterMap takeOf = [] →
      stored N s' = stored N s →
      init + ↑((h ++ es).filterMap depositOf) = ↑((h ++ es).filterMap takeOf) + stored N s' := by
    intro hdeposit htake hstored
    rw [List.filterMap_append, List.filterMap_append, hdeposit, htake, List.append_nil,
      List.append_nil, hstored]
    exact hw
  cases hstep with
  | quiet | drawTail | drawHead | catchUp | leave => exact hsame rfl rfl rfl
  | mark k hown hsome hsafe hcycle =>
      exact hsame rfl rfl (stored_set_same hN s k rfl (.inr rfl))
  | skip k hown hnone hcycle => exact hsame rfl rfl (stored_set_same hN s k rfl (.inl hnone))
  | deposit k a hdrawn hnone hcycle hopen =>
      have hset := stored_set hN s k ⟨cycleOf N k, true, some a⟩
      rw [held_ticket, held, hnone, add_zero] at hset
      have hdeposit : (h ++ [Event.deposit t a k]).filterMap depositOf
          = h.filterMap depositOf ++ [(k, a)] :=
        List.filterMap_append
      have htake : (h ++ [Event.deposit t a k]).filterMap takeOf = h.filterMap takeOf := by
        rw [List.filterMap_append]
        exact List.append_nil _
      rw [hdeposit, htake, hset, ← Multiset.coe_add, ← add_assoc, hw, add_assoc]
      rfl
  | take k a b hown hentry =>
      have hset := stored_set hN s k ⟨cycleOf N k, b, none⟩
      rw [hentry, held_ticket] at hset
      have hnone : held N (k % N) ⟨cycleOf N k, b, none⟩ = 0 := rfl
      rw [hnone, add_zero] at hset
      have hdeposit : (h ++ [Event.take t a k]).filterMap depositOf = h.filterMap depositOf := by
        rw [List.filterMap_append]
        exact List.append_nil _
      have htake : (h ++ [Event.take t a k]).filterMap takeOf = h.filterMap takeOf ++ [(k, a)] :=
        List.filterMap_append
      rw [hdeposit, htake, hw, ← hset, ← Multiset.coe_add, add_assoc, add_comm (stored N _)]
      rfl

theorem Step.ring (hN : 0 < N) (hw : Ring N first init s h) (hstep : Step N t s h s' es) :
    Ring N first init s' (h ++ es) :=
  ⟨hstep.entries hw.entries, hstep.tickets hw.tickets, hstep.account hN hw.account⟩

/-! ### What a step leaves to the other threads -/

/-- What thread `t` relies on. -/
structure Rely (N : Nat) (t : Tid) (s s' : State) (h h' : List Event) : Prop where
  events : ∀ {e}, e ∈ h → e ∈ h'
  head : s.head ≤ s'.head
  owns : ∀ {k}, Owns h t k → Owns h' t k
  entry : ∀ k, s'.entry N k = s.entry N k ∨ (s.entry N k).rank < (s'.entry N k).rank
  done : ∀ {k}, Done h' k →
    Done h k ∨ cycleOf N k ≤ (s'.entry N k).cycle ∨ (s'.entry N k).item ≠ none
  taking : ∀ {k b a}, Owns h t k → s.entry N k = ⟨cycleOf N k, b, some a⟩ →
    ∃ b', s'.entry N k = ⟨cycleOf N k, b', some a⟩

/-- The entry was `e` once. -/
def Seen (N : Nat) (s : State) (k : Nat) (e : Entry) : Prop := e.rank ≤ (s.entry N k).rank

/-- As long as the entry is `e`, no consumer of this or a later ticket is done with it. -/
def Open (N : Nat) (s : State) (h : List Event) (k : Nat) (e : Entry) : Prop :=
  s.entry N k = e → ∀ j, k ≤ j → j % N = k % N → ¬ Done h j

theorem Rely.rank_le {h' : List Event} (hrely : Rely N t s s' h h') (k : Nat) :
    (s.entry N k).rank ≤ (s'.entry N k).rank := by
  rcases hrely.entry k with heq | hlt
  · rw [heq]
  · exact le_of_lt hlt

theorem Rely.seen {h' : List Event} {e : Entry} (hrely : Rely N t s s' h h') (he : Seen N s k e) :
    Seen N s' k e :=
  le_trans he (hrely.rank_le k)

/-- An empty entry that no late consumer has met stays so as long as it is the same: nobody is done
with an empty entry of an earlier cycle without changing it, and a changed entry never comes
back. -/
theorem Rely.open {h' : List Event} {e : Entry} (hrely : Rely N t s s' h h') (he : Seen N s k e)
    (hnone : e.item = none) (hcycle : e.cycle < cycleOf N k) (hopen : Open N s h k e) :
    Open N s' h' k e := by
  intro heq j hkj hjk hj
  have hsame : s.entry N k = e := by
    rcases hrely.entry k with hsame | hlt
    · exact hsame.symm.trans heq
    · rw [heq] at hlt
      exact absurd he (not_le_of_gt hlt)
  have hentry : s'.entry N j = e := (s'.entry_congr hjk).trans heq
  rcases hrely.done hj with hj | hle | hsome
  · exact hopen hsame j hkj hjk hj
  · rw [hentry] at hle
    exact absurd hcycle (not_lt_of_ge (le_trans (cycleOf_mono hkj) hle))
  · rw [hentry] at hsome
    exact hsome hnone

/-- Nobody has drawn a ticket that late. -/
theorem Tickets.open (hw : Tickets first s h) (hhead : s.head ≤ k) (e : Entry) : Open N s h k e :=
  fun _ _ hkj _ hj => absurd (lt_of_lt_of_le (hw.done_lt hj).2 hhead) (not_lt_of_ge hkj)

/-- Whoever else has tickets keeps them. -/
theorem Tickets.owns (hw : Tickets first s h) (hne : u ≠ t)
    (hdone : ∀ k, Done es k → Owns h t k) (hown : Owns h u k) : Owns (h ++ es) u k := by
  refine ⟨List.mem_append_left _ hown.1, fun hk => ?_⟩
  rcases done_append.mp hk with hk | hk
  · exact hown.2 hk
  · exact hne (hw.owner hown (hdone k hk))

/-- A step that leaves the entries alone. -/
theorem Tickets.rely_keep (hw : Tickets first s h) (hne : u ≠ t) (hhead : s.head ≤ s'.head)
    (hcell : s'.cell = s.cell) (hdone : ∀ k, Done es k → Owns h t k)
    (hleft : ∀ k, Done es k → cycleOf N k ≤ (s.entry N k).cycle ∨ (s.entry N k).item ≠ none) :
    Rely N u s s' h (h ++ es) := by
  have hentry : ∀ k, s'.entry N k = s.entry N k := fun k => by rw [State.entry, hcell, State.entry]
  refine ⟨fun he => List.mem_append_left _ he, hhead, hw.owns hne hdone, fun k => .inl (hentry k),
    fun {k} hk => ?_, fun _ heq => ⟨_, (hentry _).trans heq⟩⟩
  rw [hentry]
  exact (done_append.mp hk).imp_right (hleft k)

/-- A step that writes the entry of ticket `k`. -/
theorem Tickets.rely_write (hw : Tickets first s h) (hne : u ≠ t) {e : Entry}
    (hdone : ∀ j, Done es j → j = k ∧ Owns h t k) (hrank : (s.entry N k).rank < e.rank)
    (hleft : Done es k → cycleOf N k ≤ e.cycle ∨ e.item ≠ none)
    (htaking : ∀ {j b a}, j % N = k % N → Owns h u j → s.entry N k = ⟨cycleOf N j, b, some a⟩ →
      ∃ b', e = ⟨cycleOf N j, b', some a⟩) :
    Rely N u s (s.set N k e) h (h ++ es) := by
  refine ⟨fun he => List.mem_append_left _ he, le_refl _,
    hw.owns hne fun j hj => (hdone j hj).1 ▸ (hdone j hj).2, fun j => ?_, fun {j} hj => ?_,
    fun {j b a} hown heq => ?_⟩
  · rw [State.entry_set]
    by_cases hjk : j % N = k % N
    · rw [if_pos hjk, s.entry_congr hjk]
      exact .inr hrank
    · rw [if_neg hjk]
      exact .inl rfl
  · refine (done_append.mp hj).imp_right fun hj => ?_
    obtain ⟨rfl, -⟩ := hdone j hj
    rw [State.entry_set_self]
    exact hleft hj
  · rw [State.entry_set]
    by_cases hjk : j % N = k % N
    · rw [if_pos hjk]
      exact htaking hjk hown (s.entry_congr hjk ▸ heq)
    · exact ⟨b, by rw [if_neg hjk, heq]⟩

theorem Step.rely (hw : Ring N first init s h) (hstep : Step N t s h s' es) (hne : u ≠ t) :
    Rely N u s s' h (h ++ es) := by
  have ht := hw.tickets
  cases hstep with
  | quiet | catchUp => exact ht.rely_keep hne (le_refl _) rfl (by simp) (by simp)
  | drawTail => exact ht.rely_keep hne (le_refl _) rfl (by simp) (by simp)
  | drawHead => exact ht.rely_keep hne (Nat.le_succ _) rfl (by simp) (by simp)
  | leave k hown hpast =>
      refine ht.rely_keep hne (le_refl _) rfl (fun j hj => done_leave.mp hj ▸ hown) fun j hj => ?_
      obtain rfl := done_leave.mp hj
      exact hpast.imp le_of_lt fun hmark => hmark.2.1
  | deposit k a hdrawn hnone hcycle hopen =>
      refine ht.rely_write hne (by simp) ?_ (by simp) fun _ _ heq => ?_
      · rw [Entry.rank, Entry.rank, if_pos hnone]
        simp only [reduceCtorEq, if_false, if_true]
        omega
      · rw [heq] at hnone
        cases hnone
  | take k a b hown hentry =>
      refine ht.rely_write hne (fun j hj => ⟨done_take.mp hj, hown⟩) ?_ (fun _ => .inl (le_refl _))
        fun {j b' a'} hjk hown' heq => ?_
      · rw [hentry, Entry.rank, Entry.rank]
        cases b <;> simp
      -- The entry is at the cycle of one ticket, and the ticket has one owner.
      · rw [hentry] at heq
        obtain rfl := eq_of_cycleOf hjk (congrArg Entry.cycle heq).symm
        exact absurd (ht.owner hown' hown) hne
  | mark k hown hsome hsafe hcycle =>
      refine ht.rely_write hne (fun j hj => ⟨done_leave.mp hj, hown⟩) ?_ (fun _ => .inr hsome)
        fun {j b a} hjk _ heq => ⟨false, by rw [heq]⟩
      rw [Entry.rank, Entry.rank, if_neg hsome, if_neg hsome, if_pos hsafe]
      simp
  | skip k hown hnone hcycle =>
      refine ht.rely_write hne (fun j hj => ⟨done_leave.mp hj, hown⟩) ?_
        (fun _ => .inl (le_refl _)) fun _ _ heq => ?_
      · simp only [Entry.rank, hnone, if_true]
        omega
      · rw [heq] at hnone
        cases hnone

/-! ### What follows for the items -/

theorem mem_held {r : Nat} {e : Entry} (hmem : (k, a) ∈ held N r e) :
    e.item = some a ∧ (e.cycle * N + r).toNat = k := by
  unfold held at hmem
  split at hmem
  · rename_i b hb
    obtain ⟨rfl, rfl⟩ := Prod.mk.inj (Multiset.mem_singleton.mp hmem)
    exact ⟨hb, rfl⟩
  · exact absurd hmem (Multiset.notMem_zero _)

/-- An item of the ring is in the entry of its ticket, at the cycle of its ticket. -/
theorem Ring.mem_stored (hN : 0 < N) (hw : Ring N first init s h) (hmem : (k, a) ∈ stored N s) :
    ∃ b, s.entry N k = ⟨cycleOf N k, b, some a⟩ := by
  obtain ⟨r, hr, hmem⟩ := Multiset.mem_sum.mp hmem
  obtain ⟨hitem, hk⟩ := mem_held hmem
  have hr := Finset.mem_range.mp hr
  have hentry : s.entry N r = s.cell r := by rw [State.entry, Nat.mod_eq_of_lt hr]
  have hnonneg := hw.entries.nonneg (k := r) (by rw [hentry, hitem]; simp)
  rw [hentry] at hnonneg
  obtain ⟨c, hc⟩ := Int.eq_ofNat_of_zero_le hnonneg
  have hk : N * c + r = k := by
    rw [hc, ← Int.natCast_mul, ← Int.natCast_add, Int.toNat_natCast, Nat.mul_comm] at hk
    exact hk
  have hmod : k % N = r := by rw [← hk, Nat.mul_add_mod, Nat.mod_eq_of_lt hr]
  have hdiv : k / N = c := by
    rw [← hk, Nat.mul_add_div hN, Nat.div_eq_of_lt hr, Nat.add_zero]
  refine ⟨(s.cell r).safe, ?_⟩
  rw [State.entry, hmod, cycleOf, hdiv, ← hc, ← hitem]

/-- **No item is passed over.** When the consumer of an item's ticket is done, it has taken it. -/
theorem Ring.taken (hN : 0 < N) (hw : Ring N first init s h)
    (hput : (k, a) ∈ init + ↑(h.filterMap depositOf)) (hdone : Done h k) :
    (k, a) ∈ h.filterMap takeOf := by
  rw [hw.account, Multiset.mem_add] at hput
  rcases hput with htake | hstored
  · exact Multiset.mem_coe.mp htake
  · obtain ⟨b, hentry⟩ := hw.mem_stored hN hstored
    exact absurd hdone (hw.entries.full (by simp [hentry]) (by rw [hentry]))

/-- Nothing is taken twice. -/
theorem Ring.takes_nodup (hw : Ring N first init s h) :
    ((h.filterMap takeOf).map Prod.fst).Nodup := by
  refine List.Nodup.sublist ?_ hw.tickets.once
  have hsub : ∀ l : List Event,
      ((l.filterMap takeOf).map Prod.fst).Sublist (l.filterMap doneOf) := fun l => by
    induction l with
    | nil => exact .refl _
    | cons e l ih =>
        cases e with
        | take t a k => exact ih.cons_cons k
        | leave t k => exact ih.cons k
        | drawTail | drawHead | deposit => exact ih
  exact hsub h

/-- **No item is put behind its consumer.** -/
theorem Step.in_time (hw : Entries N first s h) (hstep : Step N t s h s' es)
    (hmem : .deposit u a k ∈ es) :
    es = [.deposit u a k] ∧ .drawTail u k ∈ h ∧ ¬ Done h k := by
  cases hstep <;> simp only [List.mem_singleton, List.not_mem_nil, reduceCtorEq] at hmem
  case deposit j b hdrawn hnone hcycle hopen =>
    obtain ⟨rfl, rfl, rfl⟩ := Event.deposit.inj hmem
    refine ⟨rfl, hdrawn, fun hdone => ?_⟩
    rcases hw.done hdone with hle | hmarked
    · exact absurd hcycle (not_lt_of_ge hle)
    · exact hopen hmarked k (le_refl k) rfl hdone

/-- **First in, first out.** When the consumer of a later ticket is done, the item has been taken,
or its consumer is at work on it. -/
theorem Ring.in_order (hN : 0 < N) (hw : Ring N first init s h)
    (hput : (k, a) ∈ init + ↑(h.filterMap depositOf)) (hfirst : first ≤ k) (hkj : k < j)
    (hdone : Done h j) : (k, a) ∈ h.filterMap takeOf ∨ ∃ u, Owns h u k := by
  have hlt := (hw.tickets.done_lt hdone).2
  obtain ⟨u, hu⟩ := hw.tickets.drawn.mpr ⟨hfirst, lt_trans hkj hlt⟩
  by_cases hk : Done h k
  · exact .inl (hw.taken hN hput hk)
  · exact .inr ⟨u, hu, hk⟩

/-- A ticket of the tail is greater than those drawn before it. -/
theorem Tickets.lt_of_before (hw : Tickets first s h) {before after : List Event}
    (heq : h = before ++ .drawTail u j :: after) (hk : .drawTail t k ∈ before) : k < j := by
  have htails := hw.tails
  rw [heq, List.filterMap_append, List.pairwise_append] at htails
  exact htails.2.2 k (List.mem_filterMap.mpr ⟨_, hk, rfl⟩) j
    (List.mem_filterMap.mpr ⟨_, List.mem_cons_self, rfl⟩)

end Keeps

end CycleRing
