import QueueFairness.Proof.FAAArrayAdapter

/-!
# The log of the array queue

An enqueue reads the clock and writes its second stamp when the item is already in a cell of the
list, so a dequeue may stamp, log and delete the item before. The log is faithful, and no item is
written to after its deletion, in the runs whose enqueuers come first.
-/

namespace QueueFairness

namespace FAAArrayQueue

/-- The item whose stamp the thread is about to write. -/
def Local.stamps : Local → Option Nat
  | .enqStampLinked a _ _ _ | .enqStampCell a _ | .deqStampLin (.item a) _ => some a
  | _ => none

end FAAArrayQueue

namespace FAAArrayQueueAdapter

open Interleaving AtomicQueue

variable {α : Type}

def loggedBy (t : Tid) : Event α → Option LogRecord
  | .logged u _ r => if u = t then some r else none
  | _ => none

/-- The record of item `a` carries the stamp its enqueuer wrote, and its stamps are in order. -/
structure Faithful (h : List (Event α)) (a : Nat) (r : LogRecord) : Prop where
  stamp : ∃ u, .new u a ∈ h ∧ .queue (.stampEnq u a r.enqLinTs) ∈ h
  ordered : r.Ordered

def LogFaithful (c : Config (Shared α) (Local α) (Event α)) : Prop :=
  ∀ t, ∀ r ∈ c.shared.log t, ∃ a, .logged t a r ∈ c.history ∧ Faithful c.history a r

/-- The item the thread's next step writes to. -/
def Local.writes : Local α → Option Nat
  | .enqStoreInv ptr _ | .deqStoreInv _ ptr _ => some ptr
  | .enq _ l | .deq _ l => l.stamps
  | _ => none

/-- No thread is about to write to an item that has been deleted. -/
def NoLateWrite (c : Config (Shared α) (Local α) (Event α)) : Prop :=
  ∀ t a, (c.locals t).writes = some a → c.shared.status a ≠ .deleted

/-- The item whose enqueuer has not read the clock for its second stamp. -/
def Local.unread : Local α → Option Nat
  | .enqNowInv ptr | .enqStoreInv ptr _ => some ptr
  | .enq ptr l =>
      match l.enqueuing with
      | some (_, .read _) | some (_, .written) => none
      | _ => some ptr
  | _ => none

/-- The item whose enqueuer has not written its second stamp. -/
def Local.unwritten : Local α → Option Nat
  | .enqNowInv ptr | .enqStoreInv ptr _ => some ptr
  | .enq ptr l =>
      match l.enqueuing with
      | some (_, .written) => none
      | _ => some ptr
  | _ => none

/-- The enqueuer comes first: it has read the clock when the dequeuer is about to, and it has
written its stamp when the dequeuer is about to read that for the log. -/
def EnqueuerFirst (c : Config (Shared α) (Local α) (Event α)) (t : Tid) : Prop :=
  (∀ inv a, c.locals t = .deq inv (.deqNowLin (.item a)) → ∀ u, (c.locals u).unread ≠ some a)
  ∧ ∀ a out ei, c.locals t = .deqReadEnqLin a out ei → ∀ u, (c.locals u).unwritten ≠ some a

/-! ### The invariant -/

/-- The ghost value is what the clock read for an item's second stamp. -/
abbrev T (α : Type) := World (Nat → Option Nat) (Shared α) (Event α)

/-- Thread `t` took item `a` out of a cell. -/
def Took (h : List (Event α)) (t : Tid) (a : Nat) : Prop :=
  ∃ n idx, .queue (.take t n idx (.item a)) ∈ h

def Unstamped (h : List (Event α)) (a : Nat) : Prop := ∀ u x, .queue (.stampEnq u a x) ∉ h

def IsStamped (h : List (Event α)) (a : Nat) : Prop := ∃ u x, .queue (.stampEnq u a x) ∈ h

structure Timed (w : T α) : Prop where
  clock : ∀ {a x}, w.ghost a = some x → x ≤ w.shared.clock
  fresh : ∀ {a x}, w.ghost a = some x → ∃ u, .new u a ∈ w.history
  stamped : ∀ {u a x}, .queue (.stampEnq u a x) ∈ w.history → .new u a ∈ w.history
    ∧ w.ghost a = some x ∧ (w.shared.items a).enqLinTs = x ∧ (w.shared.items a).enqInvTs ≤ x
  deleted : ∀ {a}, w.shared.status a = .deleted →
    IsStamped w.history a ∧ ∃ u, Took w.history u a
  log : ∀ t, w.shared.log t = w.history.filterMap (loggedBy t)
  logged : ∀ {t a r}, .logged t a r ∈ w.history → Faithful w.history a r

/-- Thread `t` has item `a` in its hands. -/
structure Holds (w : T α) (t : Tid) (a : Nat) : Prop where
  took : Took w.history t a
  status : w.shared.status a ≠ .deleted

/-- The clock was read for the item's second stamp, not later than at `ts`. -/
def ReadBefore (w : T α) (a ts : Nat) : Prop := ∃ x, w.ghost a = some x ∧ x ≤ ts

/-- The items of thread `t`, as far as it is with their stamps. -/
structure Owner (w : T α) (t : Tid) (l : Local α) : Prop where
  unread : ∀ a, .new t a ∈ w.history → w.ghost a = none → l.unread = some a
  unwritten : ∀ a, .new t a ∈ w.history → l.unwritten = some a ∨ IsStamped w.history a

/-- Item `a` is in the hands of thread `t`, with the stamps of the dequeue. -/
structure Ready (w : T α) (t : Tid) (a : Nat) : Prop where
  holds : Holds w t a
  lin : ReadBefore w a (w.shared.items a).deqLinTs
  deq : (w.shared.items a).deqInvTs ≤ (w.shared.items a).deqLinTs

def InEnqueue (w : T α) (a : Nat) : Option (Nat × FAAArrayQueue.Stamping) → Prop
  | some (_, .read ts) =>
      Unstamped w.history a ∧ w.ghost a = some ts ∧ (w.shared.items a).enqInvTs ≤ ts
  | some (_, .written) => IsStamped w.history a
  | _ => Unstamped w.history a ∧ w.ghost a = none ∧ (w.shared.items a).enqInvTs ≤ w.shared.clock

def InDequeue (w : T α) (t : Tid) (inv : Nat) : Option FAAArrayQueue.Holding → Prop
  | some (.taken (.item a)) => Holds w t a
  | some (.read (.item a) ts) => Holds w t a ∧ inv ≤ ts ∧ ReadBefore w a ts
  | some (.done (.item a)) =>
      Holds w t a ∧ inv ≤ (w.shared.items a).deqLinTs
        ∧ ReadBefore w a (w.shared.items a).deqLinTs
  | _ => True

def Stage (w : T α) (t : Tid) : Local α → Prop
  | .enqNowInv a => Unstamped w.history a ∧ w.ghost a = none
  | .enqStoreInv a ts => Unstamped w.history a ∧ w.ghost a = none ∧ ts ≤ w.shared.clock
  | .enq a l => InEnqueue w a l.enqueuing
  | .deq inv l => inv ≤ w.shared.clock ∧ InDequeue w t inv l.dequeuing
  | .deqReadValue inv a | .deqStoreInv inv a _ =>
      Holds w t a ∧ inv ≤ (w.shared.items a).deqLinTs
        ∧ ReadBefore w a (w.shared.items a).deqLinTs
  | .deqReadEnqInv a _ => Ready w t a
  | .deqReadEnqLin a _ ei => Ready w t a ∧ ei = (w.shared.items a).enqInvTs
  | .deqReadDeqInv a _ ei el =>
      Ready w t a ∧ ei = (w.shared.items a).enqInvTs
        ∧ ∃ u, .queue (.stampEnq u a el) ∈ w.history
  | .deqLog a _ ei el di =>
      Ready w t a ∧ ei = (w.shared.items a).enqInvTs
        ∧ (∃ u, .queue (.stampEnq u a el) ∈ w.history) ∧ di = (w.shared.items a).deqInvTs
  | .deqDelete a _ => Holds w t a ∧ IsStamped w.history a
  | .idle | .enqNew _ | .deqNowInv => True

/-- What thread `t` relies on. -/
structure TimedRely (t : Tid) (w w' : T α) : Prop where
  history : ∀ {e}, e ∈ w.history → e ∈ w'.history
  clock : w.shared.clock ≤ w'.shared.clock
  ghost : ∀ {a x}, w.ghost a = some x → w'.ghost a = some x
  new : ∀ {a}, .new t a ∈ w'.history → .new t a ∈ w.history
  own : ∀ {a}, .new t a ∈ w.history → w'.ghost a = w.ghost a
    ∧ (w'.shared.items a).enqInvTs = (w.shared.items a).enqInvTs
    ∧ (Unstamped w.history a → Unstamped w'.history a)
  held : ∀ {a}, Took w.history t a → (w.shared.status a ≠ .deleted → w'.shared.status a ≠ .deleted)
    ∧ (w'.shared.items a).enqInvTs = (w.shared.items a).enqInvTs
    ∧ (w'.shared.items a).deqInvTs = (w.shared.items a).deqInvTs
    ∧ (w'.shared.items a).deqLinTs = (w.shared.items a).deqLinTs

section Stable

variable {t : Tid} {w w' : T α}

theorem TimedRely.stamped (h : TimedRely t w w') {a : Nat} (hs : IsStamped w.history a) :
    IsStamped w'.history a := by
  obtain ⟨u, x, hu⟩ := hs
  exact ⟨u, x, h.history hu⟩

theorem TimedRely.took (h : TimedRely t w w') {u : Tid} {a : Nat} (ht : Took w.history u a) :
    Took w'.history u a := by
  obtain ⟨n, idx, hn⟩ := ht
  exact ⟨n, idx, h.history hn⟩

theorem TimedRely.holds (h : TimedRely t w w') {a : Nat} (hh : Holds w t a) : Holds w' t a :=
  ⟨h.took hh.took, (h.held hh.took).1 hh.status⟩

theorem TimedRely.readBefore (h : TimedRely t w w') {a ts : Nat} (hr : ReadBefore w a ts) :
    ReadBefore w' a ts := by
  obtain ⟨x, hx, hle⟩ := hr
  exact ⟨x, h.ghost hx, hle⟩

theorem TimedRely.ready (h : TimedRely t w w') {a : Nat} (hr : Ready w t a) : Ready w' t a := by
  obtain ⟨-, -, hinv, hlin⟩ := h.held hr.holds.took
  refine ⟨h.holds hr.holds, ?_, ?_⟩
  · rw [hlin]
    exact h.readBefore hr.lin
  · rw [hinv, hlin]
    exact hr.deq

theorem TimedRely.owner (h : TimedRely t w w') {l : Local α} (ho : Owner w t l) :
    Owner w' t l where
  unread a hn hnone := by
    have hn' := h.new hn
    exact ho.unread a hn' ((h.own hn').1.symm.trans hnone)
  unwritten a hn := (ho.unwritten a (h.new hn)).imp_right h.stamped

/-- What a thread knows of its own item in `q.enqueue`. -/
theorem TimedRely.inEnqueue (h : TimedRely t w w') {a : Nat} (hn : .new t a ∈ w.history)
    {s : Option (Nat × FAAArrayQueue.Stamping)} (hs : InEnqueue w a s) : InEnqueue w' a s := by
  obtain ⟨hghost, hinv, hun⟩ := h.own hn
  rcases s with - | ⟨b, - | ts | -⟩
  · exact ⟨hun hs.1, hghost.trans hs.2.1, hinv.le.trans (hs.2.2.trans h.clock)⟩
  · exact ⟨hun hs.1, hghost.trans hs.2.1, hinv.le.trans (hs.2.2.trans h.clock)⟩
  · exact ⟨hun hs.1, hghost.trans hs.2.1, hinv.le.trans hs.2.2⟩
  · exact h.stamped hs

theorem TimedRely.inDequeue (h : TimedRely t w w') {inv : Nat} {s : Option FAAArrayQueue.Holding}
    (hs : InDequeue w t inv s) : InDequeue w' t inv s := by
  rcases s with - | - | v | ⟨v, ts⟩ | v
  · trivial
  · trivial
  · cases v with
    | item a => exact h.holds hs
    | _ => trivial
  · cases v with
    | item a => exact ⟨h.holds hs.1, hs.2.1, h.readBefore hs.2.2⟩
    | _ => trivial
  · cases v with
    | item a =>
        obtain ⟨-, -, -, hlin⟩ := h.held hs.1.took
        refine ⟨h.holds hs.1, ?_, ?_⟩
        · rw [hlin]
          exact hs.2.1
        · rw [hlin]
          exact h.readBefore hs.2.2
    | _ => trivial

theorem TimedRely.stage (h : TimedRely t w w') {l : Local α}
    (hi : IssueLoc ⟨(), w.shared, w.history⟩ t l) (hl : Stage w t l) : Stage w' t l := by
  cases l with
  | idle | enqNew | deqNowInv => trivial
  | enqNowInv a =>
      obtain ⟨hghost, -, hun⟩ := h.own hi.new
      exact ⟨hun hl.1, hghost.trans hl.2⟩
  | enqStoreInv a ts =>
      obtain ⟨hghost, -, hun⟩ := h.own hi.new
      exact ⟨hun hl.1, hghost.trans hl.2.1, hl.2.2.trans h.clock⟩
  | enq a l => exact h.inEnqueue (IssueLoc.enq hi).1 hl
  | deq inv l => exact ⟨hl.1.trans h.clock, h.inDequeue hl.2⟩
  | deqReadValue | deqStoreInv =>
      obtain ⟨-, -, -, hlin⟩ := h.held hl.1.took
      refine ⟨h.holds hl.1, ?_, ?_⟩
      · rw [hlin]
        exact hl.2.1
      · rw [hlin]
        exact h.readBefore hl.2.2
  | deqReadEnqInv => exact h.ready hl
  | deqReadEnqLin =>
      obtain ⟨-, henq, -⟩ := h.held hl.1.holds.took
      exact ⟨h.ready hl.1, hl.2.trans henq.symm⟩
  | deqReadDeqInv =>
      obtain ⟨hready, hei, u, hu⟩ := hl
      obtain ⟨-, henq, -⟩ := h.held hready.holds.took
      exact ⟨h.ready hready, hei.trans henq.symm, u, h.history hu⟩
  | deqLog =>
      obtain ⟨hready, hei, ⟨u, hu⟩, hdi⟩ := hl
      obtain ⟨-, henq, hinv, -⟩ := h.held hready.holds.took
      exact ⟨h.ready hready, hei.trans henq.symm, ⟨u, h.history hu⟩, hdi.trans hinv.symm⟩
  | deqDelete => exact ⟨h.holds hl.1, h.stamped hl.2⟩

end Stable

/-! ### Steps -/

/-- What the queue inside guarantees of the items taken out of it. -/
structure TakenOnce (h : List (Event α)) : Prop where
  once : ∀ {t u a}, Took h t a → Took h u a → t = u
  called : ∀ {t a}, Took h t a → ∃ u, .queue (.call u (.enqueue a)) ∈ h

/-- Events that bring no item, no second stamp and no record. -/
def Event.Untimed : Event α → Prop
  | .queue (.stampEnq _ _ _) | .new _ _ | .logged _ _ _ => False
  | _ => True

/-- What a step of thread `t` from `w` has to achieve. -/
def TimedPreserved (t : Tid) (w : T α) (g : Shared α) (l : Local α) (es : List (Event α)) : Prop :=
  ∃ x, Timed ⟨x, g, w.history ++ es⟩
    ∧ (Owner ⟨x, g, w.history ++ es⟩ t l ∧ Stage ⟨x, g, w.history ++ es⟩ t l)
    ∧ ∀ u, u ≠ t → TimedRely u w ⟨x, g, w.history ++ es⟩

section Steps

variable {t : Tid} {x : Nat → Option Nat} {g g' : Shared α} {h es : List (Event α)} {l l' : Local α}

section Untimed

variable (hes : ∀ e ∈ es, e.Untimed)

include hes

theorem mem_untimed {e : Event α} (he : ¬ e.Untimed) : e ∈ h ++ es ↔ e ∈ h := by
  rw [List.mem_append]
  exact ⟨fun hmem => hmem.resolve_right fun hmem' => he (hes e hmem'), .inl⟩

theorem logged_untimed (u : Tid) : (h ++ es).filterMap (loggedBy u) = h.filterMap (loggedBy u) := by
  have hnone : es.filterMap (loggedBy u) = [] := by
    refine List.filterMap_eq_nil_iff.mpr fun e he => ?_
    have := hes e he
    cases e <;> first | rfl | exact absurd this id
  rw [List.filterMap_append, hnone, List.append_nil]

/-- A step that brings no item, no second stamp and no record, and writes to items the dequeue's
stamps at most. -/
theorem timed_untimed (hs : Timed ⟨x, g, h⟩) (hclock : g'.clock = g.clock) (hlog : g'.log = g.log)
    (henq : ∀ a, (g'.items a).enqInvTs = (g.items a).enqInvTs
      ∧ (g'.items a).enqLinTs = (g.items a).enqLinTs)
    (hdel : ∀ a, g'.status a = .deleted →
      g.status a = .deleted ∨ IsStamped h a ∧ ∃ u, Took h u a) :
    Timed ⟨x, g', h ++ es⟩ where
  clock ha := (hs.clock ha).trans hclock.ge
  fresh ha := by
    obtain ⟨u, hu⟩ := hs.fresh ha
    exact ⟨u, List.mem_append_left _ hu⟩
  stamped {u a y} ha := by
    obtain ⟨hnew, hghost, hlin, hle⟩ := hs.stamped ((mem_untimed hes id).mp ha)
    exact ⟨List.mem_append_left _ hnew, hghost, (henq a).2.trans hlin, (henq a).1.trans_le hle⟩
  deleted {a} ha := by
    obtain ⟨⟨u, y, hu⟩, v, n, idx, hv⟩ := (hdel a ha).elim hs.deleted id
    exact ⟨⟨u, y, List.mem_append_left _ hu⟩, v, n, idx, List.mem_append_left _ hv⟩
  log u := by
    rw [logged_untimed hes, show g'.log = g.log from hlog]
    exact hs.log u
  logged {u a r} ha := by
    obtain ⟨⟨v, hnew, hstamp⟩, hordered⟩ := hs.logged ((mem_untimed hes id).mp ha)
    exact ⟨⟨v, List.mem_append_left _ hnew, List.mem_append_left _ hstamp⟩, hordered⟩

theorem rely_untimed {u : Tid} (hclock : g'.clock = g.clock)
    (henq : ∀ a, (g'.items a).enqInvTs = (g.items a).enqInvTs)
    (hheld : ∀ a, Took h u a → (g.status a ≠ .deleted → g'.status a ≠ .deleted)
      ∧ (g'.items a).deqInvTs = (g.items a).deqInvTs
      ∧ (g'.items a).deqLinTs = (g.items a).deqLinTs) :
    TimedRely u ⟨x, g, h⟩ ⟨x, g', h ++ es⟩ where
  history he := List.mem_append_left _ he
  clock := hclock.ge
  ghost ha := ha
  new ha := (mem_untimed hes id).mp ha
  own {a} _ := ⟨rfl, henq a, fun hun v y hv => hun v y ((mem_untimed hes id).mp hv)⟩
  held {a} ha := ⟨(hheld a ha).1, henq a, (hheld a ha).2.1, (hheld a ha).2.2⟩

/-- A step that writes to no item. -/
theorem timed_still (hs : Timed ⟨x, g, h⟩) (hitems : g'.items = g.items)
    (hstatus : g'.status = g.status) (hclock : g'.clock = g.clock) (hlog : g'.log = g.log)
    (hl : TimedRely t ⟨x, g, h⟩ ⟨x, g', h ++ es⟩ →
      Owner ⟨x, g', h ++ es⟩ t l ∧ Stage ⟨x, g', h ++ es⟩ t l) :
    TimedPreserved t ⟨x, g, h⟩ g' l es := by
  have hrely : ∀ u, TimedRely u ⟨x, g, h⟩ ⟨x, g', h ++ es⟩ := fun u =>
    rely_untimed hes hclock (fun a => by rw [hitems]) fun a _ => by simp [hitems, hstatus]
  exact ⟨x, timed_untimed hes hs hclock hlog (fun a => by simp [hitems])
    (fun a ha => .inl (hstatus ▸ ha)), hl (hrely t), fun u _ => hrely u⟩

end Untimed

/-- A new item has no stamps. -/
theorem timed_new (hw : Issued ⟨(), g, h⟩) (hq : TakenOnce h) (hs : Timed ⟨x, g, h⟩) {a : Nat}
    {v : α} (hfree : g.status a = .unallocated) (ho : Owner ⟨x, g, h⟩ t (.enqNew v)) :
    TimedPreserved t ⟨x, g, h⟩ ((g.setStatus a .allocated).setItem a { value := v })
      (.enqNowInv a) [.new t a] := by
  have hfresh : ∀ u, .new u a ∉ h := fun u hu => hw.status hu hfree
  have hnone : x a = none := by
    by_contra hne
    obtain ⟨y, hy⟩ := Option.ne_none_iff_exists'.mp hne
    obtain ⟨u, hu⟩ := hs.fresh hy
    exact hfresh u hu
  have hun : Unstamped h a := fun u y hy => hfresh u (hs.stamped hy).1
  have htook : ∀ {u b}, Took h u b → b ≠ a := by
    rintro u b hb rfl
    obtain ⟨v, hv⟩ := hq.called hb
    exact hfresh v (hw.called hv)
  have hitem : ∀ {b}, b ≠ a →
      ((g.setStatus a .allocated).setItem a { value := v }).items b = g.items b := fun hb => by
    simp [Shared.setItem, Shared.setStatus, hb]
  have hstatus : ∀ {b}, b ≠ a →
      ((g.setStatus a .allocated).setItem a { value := v }).status b = g.status b := fun hb => by
    simp [Shared.setItem, Shared.setStatus, hb]
  refine ⟨x, ⟨hs.clock, fun {b y} hb => ?_, fun {u b y} hb => ?_, fun {b} hb => ?_, fun u => ?_,
    fun {u b r} hb => ?_⟩, ⟨⟨fun b hb hx => ?_, fun b hb => ?_⟩, ?_, hnone⟩, fun u hu =>
    ⟨fun he => List.mem_append_left _ he, le_rfl, id, fun {b} hb => by simpa [hu] using hb,
      fun {b} hb => ?_, fun {b} hb => ?_⟩⟩
  · obtain ⟨u, hu⟩ := hs.fresh hb
    exact ⟨u, List.mem_append_left _ hu⟩
  · have hb' : .queue (.stampEnq u b y) ∈ h := by simpa using hb
    obtain ⟨hnew, hghost, hlin, hle⟩ := hs.stamped hb'
    have hne : b ≠ a := fun heq => hfresh u (heq ▸ hnew)
    exact ⟨List.mem_append_left _ hnew, hghost, by rw [hitem hne]; exact hlin,
      by rw [hitem hne]; exact hle⟩
  · have hne : b ≠ a := by
      rintro rfl
      simp [Shared.setItem, Shared.setStatus] at hb
    obtain ⟨⟨u, y, hu⟩, w, n, idx, hw'⟩ := hs.deleted ((hstatus hne).symm.trans hb)
    exact ⟨⟨u, y, List.mem_append_left _ hu⟩, w, n, idx, List.mem_append_left _ hw'⟩
  · exact (hs.log u).trans (by simp [loggedBy])
  · obtain ⟨⟨w, hnew, hstamp⟩, hordered⟩ := hs.logged (t := u) (a := b) (r := r) (by simpa using hb)
    exact ⟨⟨w, List.mem_append_left _ hnew, List.mem_append_left _ hstamp⟩, hordered⟩
  · rcases List.mem_append.mp hb with hb | hb
    · exact absurd (ho.unread b hb hx) (by simp [Local.unread])
    · obtain ⟨-, rfl⟩ : t = t ∧ b = a := by simpa using hb
      rfl
  · rcases List.mem_append.mp hb with hb | hb
    · obtain ⟨u, y, hu⟩ := (ho.unwritten b hb).resolve_left (by simp [Local.unwritten])
      exact .inr ⟨u, y, List.mem_append_left _ hu⟩
    · obtain ⟨-, rfl⟩ : t = t ∧ b = a := by simpa using hb
      exact .inl rfl
  · exact fun u y hu => hun u y (by simpa using hu)
  · have hne : b ≠ a := fun heq => hfresh u (heq ▸ hb)
    exact ⟨rfl, by rw [hitem hne], fun hun v y hv => hun v y (by simpa using hv)⟩
  · have hne : b ≠ a := htook hb
    exact ⟨fun hd => by rwa [hstatus hne], by rw [hitem hne], by rw [hitem hne], by rw [hitem hne]⟩

/-- The first stamp is written into an item nobody else knows. -/
theorem timed_storeInv (hw : Issued ⟨(), g, h⟩) (hq : TakenOnce h) (hs : Timed ⟨x, g, h⟩)
    {a ts : Nat} (hi : Unsent ⟨(), g, h⟩ t a) (ho : Owner ⟨x, g, h⟩ t (.enqStoreInv a ts))
    (hl : Stage ⟨x, g, h⟩ t (.enqStoreInv a ts)) :
    TimedPreserved t ⟨x, g, h⟩ (g.setItem a { g.items a with enqInvTs := ts }) (.enq a .idle)
      [] := by
  obtain ⟨hun, hnone, hclock⟩ := hl
  have hitem : ∀ {b}, b ≠ a →
      (g.setItem a { g.items a with enqInvTs := ts }).items b = g.items b := fun hb => by
    simp [Shared.setItem, hb]
  have hlin : ∀ b, ((g.setItem a { g.items a with enqInvTs := ts }).items b).enqLinTs
      = (g.items b).enqLinTs := by
    intro b
    by_cases hb : b = a
    · subst hb
      simp [Shared.setItem]
    · rw [hitem hb]
  rw [TimedPreserved, List.append_nil]
  refine ⟨x, ⟨hs.clock, hs.fresh, fun {u b y} hb => ?_, hs.deleted, hs.log, hs.logged⟩,
    ⟨⟨ho.unread, ho.unwritten⟩, hun, hnone, ?_⟩, fun u hu =>
    ⟨id, le_rfl, id, id, fun {b} hb => ?_, fun {b} hb => ?_⟩⟩
  · obtain ⟨hnew, hghost, hlin', hle⟩ := hs.stamped hb
    have hne : b ≠ a := fun heq => hun u y (heq ▸ hb)
    exact ⟨hnew, hghost, (hlin b).trans hlin', by rw [hitem hne]; exact hle⟩
  · simpa [Shared.setItem] using hclock
  · have hne : b ≠ a := fun heq => hu (hw.owner (heq ▸ hb) hi.new)
    exact ⟨rfl, by rw [hitem hne], id⟩
  · have hne : b ≠ a := by
      rintro rfl
      obtain ⟨v, hv⟩ := hq.called hb
      exact hi.call v hv
    exact ⟨id, by rw [hitem hne], by rw [hitem hne], by rw [hitem hne]⟩

/-- The enqueuer reads the clock for the second stamp. -/
theorem timed_read (hw : Issued ⟨(), g, h⟩) (hs : Timed ⟨x, g, h⟩) {a : Nat}
    {q : FAAArrayQueue.Shared} {k k' : FAAArrayQueue.Local} (hnew : .new t a ∈ h)
    (hk : k.enqueuing = some (a, .unread))
    (hk' : k'.enqueuing = some (a, .read g.clock)) (ho : Owner ⟨x, g, h⟩ t (.enq a k))
    (hl : Stage ⟨x, g, h⟩ t (.enq a k)) :
    TimedPreserved t ⟨x, g, h⟩ { g with q := q } (.enq a k') [] := by
  rw [Stage, hk] at hl
  obtain ⟨hun, hnone, hinv⟩ := hl
  have hx : ∀ {b}, b ≠ a → Function.update x a (some g.clock) b = x b := fun hb => by simp [hb]
  have hmono : ∀ {b y}, x b = some y → Function.update x a (some g.clock) b = some y := by
    intro b y hb
    have hne : b ≠ a := by
      rintro rfl
      exact absurd (hnone.symm.trans hb) (by simp)
    rwa [hx hne]
  rw [TimedPreserved, List.append_nil]
  refine ⟨Function.update x a (some g.clock),
    ⟨fun {b y} hb => ?_, fun {b y} hb => ?_, fun {u b y} hb => ?_, hs.deleted, hs.log, hs.logged⟩,
    ⟨⟨fun b hb hnone' => ?_, fun b hb => ?_⟩, ?_⟩,
    fun u hu => ⟨id, le_rfl, hmono, id, fun {b} hb => ?_, fun _ => ⟨id, rfl, rfl, rfl⟩⟩⟩
  · by_cases hba : b = a
    · subst hba
      obtain rfl : g.clock = y := by simpa using hb
      exact le_rfl
    · exact hs.clock ((hx hba).symm.trans hb)
  · by_cases hba : b = a
    · subst hba
      exact ⟨t, hnew⟩
    · exact hs.fresh ((hx hba).symm.trans hb)
  · obtain ⟨hnew', hghost, hlin, hle⟩ := hs.stamped hb
    exact ⟨hnew', hmono hghost, hlin, hle⟩
  · have hba : b ≠ a := by
      rintro rfl
      simp at hnone'
    have hold := ho.unread b hb ((hx hba).symm.trans hnone')
    simp only [Local.unread, hk, Option.some.injEq] at hold
    exact absurd hold.symm hba
  · rcases ho.unwritten b hb with hold | hstamped
    · simp only [Local.unwritten, hk, Option.some.injEq] at hold
      exact .inl (by simp [Local.unwritten, hk', hold])
    · exact .inr hstamped
  · rw [Stage, hk']
    exact ⟨hun, by simp, hinv⟩
  · have hne : b ≠ a := fun heq => hu (hw.owner (heq ▸ hb) hnew)
    exact ⟨hx hne, rfl, id⟩

/-- The enqueuer writes the second stamp. -/
theorem timed_stampEnq (hw : Issued ⟨(), g, h⟩) (hs : Timed ⟨x, g, h⟩) {a ts : Nat}
    {q : FAAArrayQueue.Shared} {k k' : FAAArrayQueue.Local} (hnew : .new t a ∈ h)
    (hk : k.enqueuing = some (a, .read ts)) (hk' : k'.enqueuing = some (a, .written))
    (ho : Owner ⟨x, g, h⟩ t (.enq a k)) (hl : Stage ⟨x, g, h⟩ t (.enq a k)) :
    TimedPreserved t ⟨x, g, h⟩
      (({ g with q := q } : Shared α).setItem a { g.items a with enqLinTs := ts }) (.enq a k')
      [.queue (.stampEnq t a ts)] := by
  rw [Stage, hk] at hl
  obtain ⟨hun, hghost, hinv⟩ := hl
  set g' := ({ g with q := q } : Shared α).setItem a { g.items a with enqLinTs := ts } with hg'
  have hlin : ∀ {b}, b ≠ a → (g'.items b).enqLinTs = (g.items b).enqLinTs := fun hb => by
    simp [hg', Shared.setItem, hb]
  have hsame : ∀ b, (g'.items b).enqInvTs = (g.items b).enqInvTs
      ∧ (g'.items b).deqInvTs = (g.items b).deqInvTs
      ∧ (g'.items b).deqLinTs = (g.items b).deqLinTs := by
    intro b
    by_cases hb : b = a
    · subst hb
      simp [hg', Shared.setItem]
    · simp [hg', Shared.setItem, hb]
  have hstamp : IsStamped (h ++ [.queue (.stampEnq t a ts)]) a := ⟨t, ts, by simp⟩
  refine ⟨x, ⟨hs.clock, fun {b y} hb => ?_, fun {u b y} hb => ?_, fun {b} hb => ?_, fun u => ?_,
    fun {u b r} hb => ?_⟩, ⟨⟨fun b hb hnone => ?_, fun b hb => ?_⟩, ?_⟩, fun u hu =>
    ⟨fun he => List.mem_append_left _ he, le_rfl, id, fun {b} hb => by simpa using hb,
      fun {b} hb => ?_, fun {b} hb => ⟨id, hsame b⟩⟩⟩
  · obtain ⟨u, hu⟩ := hs.fresh hb
    exact ⟨u, List.mem_append_left _ hu⟩
  · rcases List.mem_append.mp hb with hb | hb
    · obtain ⟨hnew', hghost', hlin', hle⟩ := hs.stamped hb
      have hne : b ≠ a := fun heq => hun u y (heq ▸ hb)
      exact
        ⟨List.mem_append_left _ hnew', hghost', (hlin hne).trans hlin', (hsame b).1.trans_le hle⟩
    · obtain ⟨rfl, rfl, rfl⟩ : u = t ∧ b = a ∧ y = ts := by simpa using hb
      exact ⟨List.mem_append_left _ hnew, hghost, by simp [hg', Shared.setItem],
        (hsame b).1.trans_le hinv⟩
  · obtain ⟨⟨u, y, hu⟩, w, n, idx, hw'⟩ := hs.deleted (a := b) hb
    exact ⟨⟨u, y, List.mem_append_left _ hu⟩, w, n, idx, List.mem_append_left _ hw'⟩
  · exact (hs.log u).trans (by simp [loggedBy])
  · obtain ⟨⟨w, hnew', hst⟩, hordered⟩ := hs.logged (t := u) (a := b) (r := r) (by simpa using hb)
    exact ⟨⟨w, List.mem_append_left _ hnew', List.mem_append_left _ hst⟩, hordered⟩
  · have hb' : .new t b ∈ h := by simpa using hb
    have hold := ho.unread b hb' hnone
    simp [Local.unread, hk] at hold
  · have hb' : .new t b ∈ h := by simpa using hb
    rcases ho.unwritten b hb' with hold | ⟨u, y, hu⟩
    · simp only [Local.unwritten, hk, Option.some.injEq] at hold
      exact .inr (hold ▸ hstamp)
    · exact .inr ⟨u, y, List.mem_append_left _ hu⟩
  · rw [Stage, hk']
    exact hstamp
  · have hne : b ≠ a := fun heq => hu (hw.owner (heq ▸ hb) hnew)
    exact ⟨rfl, (hsame b).1, fun hun v y hv => hun v y (by simpa [hne] using hv)⟩

theorem Owner.of_untimed (hes : ∀ e ∈ es, e.Untimed) (ho : Owner ⟨x, g, h⟩ t l)
    (hunread : l'.unread = l.unread) (hunwritten : l'.unwritten = l.unwritten) :
    Owner ⟨x, g', h ++ es⟩ t l' where
  unread a ha hnone := hunread.trans (ho.unread a ((mem_untimed hes id).mp ha) hnone)
  unwritten a ha := by
    rw [hunwritten]
    refine (ho.unwritten a ((mem_untimed hes id).mp ha)).imp_right fun ⟨u, y, hu⟩ => ?_
    exact ⟨u, y, List.mem_append_left _ hu⟩

/-- A step that writes to no item, by a thread that has the same stamps to write as before. -/
theorem timed_local (hes : ∀ e ∈ es, e.Untimed) (hs : Timed ⟨x, g, h⟩) (ho : Owner ⟨x, g, h⟩ t l)
    (hunread : l'.unread = l.unread) (hunwritten : l'.unwritten = l.unwritten)
    (hitems : g'.items = g.items) (hstatus : g'.status = g.status) (hclock : g'.clock = g.clock)
    (hlog : g'.log = g.log)
    (hl : TimedRely t ⟨x, g, h⟩ ⟨x, g', h ++ es⟩ → Stage ⟨x, g', h ++ es⟩ t l') :
    TimedPreserved t ⟨x, g, h⟩ g' l' es :=
  timed_still hes hs hitems hstatus hclock hlog fun hr =>
    ⟨ho.of_untimed hes hunread hunwritten, hl hr⟩

/-- The dequeuer writes one of its two stamps into the item in its hands. -/
theorem timed_write (hq : TakenOnce h) (hs : Timed ⟨x, g, h⟩) {a : Nat} {q : FAAArrayQueue.Shared}
    {node : TimedNode α} (hes : ∀ e ∈ es, e.Untimed) (htook : Took h t a)
    (hinv : node.enqInvTs = (g.items a).enqInvTs) (hlin : node.enqLinTs = (g.items a).enqLinTs)
    (hl : Owner ⟨x, ({ g with q := q } : Shared α).setItem a node, h ++ es⟩ t l
      ∧ Stage ⟨x, ({ g with q := q } : Shared α).setItem a node, h ++ es⟩ t l) :
    TimedPreserved t ⟨x, g, h⟩ (({ g with q := q } : Shared α).setItem a node) l es := by
  have henq : ∀ b, ((({ g with q := q } : Shared α).setItem a node).items b).enqInvTs
      = (g.items b).enqInvTs
      ∧ ((({ g with q := q } : Shared α).setItem a node).items b).enqLinTs
        = (g.items b).enqLinTs := by
    intro b
    by_cases hb : b = a
    · subst hb
      simp [Shared.setItem, hinv, hlin]
    · simp [Shared.setItem, hb]
  refine ⟨x, timed_untimed hes hs rfl rfl henq fun _ hb => .inl hb, hl, fun u hu =>
    rely_untimed hes rfl (fun b => (henq b).1) fun b hb => ?_⟩
  have hne : b ≠ a := fun heq => hu (hq.once (heq ▸ hb) htook)
  simp [Shared.setItem, hne]

/-- The record is logged. -/
theorem timed_logged (hs : Timed ⟨x, g, h⟩) {a : Nat} {out : α} {r : LogRecord}
    (hr : Faithful h a r) (hl : Owner ⟨x, g, h⟩ t l) (hunread : l.unread = none)
    (hunwritten : l.unwritten = none) (hh : Holds ⟨x, g, h⟩ t a) (hst : IsStamped h a) :
    TimedPreserved t ⟨x, g, h⟩ { g with log := Function.update g.log t (g.log t ++ [r]) }
      (.deqDelete a out) [.logged t a r] := by
  have hmem : ∀ {e : Event α}, e ∈ h → e ∈ h ++ [.logged t a r] := List.mem_append_left _
  obtain ⟨⟨v, hnew, hstamp⟩, hordered⟩ := hr
  refine ⟨x,
    ⟨hs.clock, fun hb => ?_, fun {u b y} hb => ?_, fun {b} hb => ?_, fun u => ?_,
      fun {u b r'} hb => ?_⟩,
    ⟨⟨fun b hb hnone => ?_, fun b hb => ?_⟩, ⟨?_, hh.status⟩, ?_⟩, fun u _ =>
    ⟨hmem, le_rfl, id, fun {b} hb => by simpa using hb, fun {b} _ =>
      ⟨rfl, rfl, fun hun v y hv => hun v y (by simpa using hv)⟩, fun _ => ⟨id, rfl, rfl, rfl⟩⟩⟩
  · obtain ⟨u, hu⟩ := hs.fresh hb
    exact ⟨u, hmem hu⟩
  · have hb' : .queue (.stampEnq u b y) ∈ h := by simpa using hb
    obtain ⟨hnew', hrest⟩ := hs.stamped hb'
    exact ⟨hmem hnew', hrest⟩
  · obtain ⟨⟨u, y, hu⟩, w, n, idx, hw⟩ := hs.deleted hb
    exact ⟨⟨u, y, hmem hu⟩, w, n, idx, hmem hw⟩
  · have hlog : g.log u = h.filterMap (loggedBy u) := hs.log u
    by_cases hu : u = t
    · subst hu
      simp [loggedBy, hlog]
    · simp [loggedBy, hlog, hu, Ne.symm hu]
  · rcases List.mem_append.mp hb with hb | hb
    · obtain ⟨⟨w, hnew', hst'⟩, hordered'⟩ := hs.logged hb
      exact ⟨⟨w, hmem hnew', hmem hst'⟩, hordered'⟩
    · obtain ⟨rfl, rfl, rfl⟩ : u = t ∧ b = a ∧ r' = r := by simpa using hb
      exact ⟨⟨v, hmem hnew, hmem hstamp⟩, hordered⟩
  · have hold := hl.unread b (by simpa using hb) hnone
    rw [hunread] at hold
    cases hold
  · obtain ⟨u, y, hu⟩ := (hl.unwritten b (by simpa using hb)).resolve_left (by simp [hunwritten])
    exact .inr ⟨u, y, hmem hu⟩
  · obtain ⟨n, idx, hn⟩ := hh.took
    exact ⟨n, idx, hmem hn⟩
  · obtain ⟨u, y, hu⟩ := hst
    exact ⟨u, y, hmem hu⟩

/-- The item is deleted. -/
theorem timed_delete (hq : TakenOnce h) (hs : Timed ⟨x, g, h⟩) {a : Nat} {out : α}
    (ho : Owner ⟨x, g, h⟩ t (.deqDelete a out)) (hl : Stage ⟨x, g, h⟩ t (.deqDelete a out)) :
    TimedPreserved t ⟨x, g, h⟩ (g.setStatus a .deleted) .idle
      [.deleted t a, .ret t (.dequeued true (some out))] := by
  obtain ⟨⟨htook, -⟩, hst⟩ := hl
  have hes : ∀ e ∈ [Event.deleted t a, .ret t (.dequeued true (some out))], e.Untimed := by
    simp [Event.Untimed]
  refine ⟨x, timed_untimed hes hs rfl rfl (fun _ => ⟨rfl, rfl⟩) fun b hb => ?_,
    ⟨ho.of_untimed hes rfl rfl, trivial⟩, fun u hu =>
    rely_untimed hes rfl (fun _ => rfl) fun b hb => ⟨fun hd => ?_, rfl, rfl⟩⟩
  · by_cases hba : b = a
    · subst hba
      exact .inr ⟨hst, t, htook⟩
    · exact .inl (by simpa [Shared.setStatus, hba] using hb)
  · have hne : b ≠ a := fun heq => hu (hq.once (heq ▸ hb) htook)
    simpa [Shared.setStatus, hne] using hd

theorem untimed_inward {fs : List FAAArrayQueue.Event} (hfs : ∀ e ∈ fs, e.Inward) :
    ∀ e ∈ fs.map (Event.queue (α := α)), e.Untimed := by
  intro e he
  obtain ⟨f, hf, rfl⟩ := List.mem_map.mp he
  cases f with
  | stampEnq => exact (hfs _ hf).elim
  | _ => trivial

theorem deqNowLin_of_taken {k : FAAArrayQueue.Local} {v : FAAArrayQueue.Slot}
    (hk : k.dequeuing = some (.taken v)) : k = .deqNowLin v := by
  cases k <;> simp only [FAAArrayQueue.Local.dequeuing, Option.some.injEq, reduceCtorEq,
    FAAArrayQueue.Holding.taken.injEq] at hk
  exact congrArg _ hk

theorem enqueuing_of_stamps {l : FAAArrayQueue.Local} {a ptr : Nat} {s : FAAArrayQueue.Stamping}
    (ha : l.stamps = some a) (hs : l.enqueuing = some (ptr, s)) :
    ptr = a ∧ ∃ ts, l.enqueuing = some (ptr, .read ts) := by
  cases l with
  | enqStampLinked | enqStampCell =>
      obtain ⟨rfl, rfl⟩ := Prod.mk.inj (Option.some.inj hs)
      exact ⟨Option.some.inj ha, _, rfl⟩
  | deqStampLin => cases hs
  | _ => cases ha

theorem dequeuing_of_stamps {l : FAAArrayQueue.Local} {a : Nat} {s : FAAArrayQueue.Holding}
    (ha : l.stamps = some a) (hs : l.dequeuing = some s) :
    ∃ ts, l.dequeuing = some (.read (.item a) ts) := by
  cases l with
  | enqStampLinked | enqStampCell => cases hs
  | deqStampLin v ts =>
      cases v with
      | item b =>
          obtain rfl : b = a := Option.some.inj ha
          exact ⟨ts, rfl⟩
      | _ => cases ha
  | _ => cases ha

section States

variable {L : Layout} {maxThreads : Nat} {i : Input α} (hs : Timed ⟨x, g, h⟩)

include hs

theorem idle_timed (ho : Owner ⟨x, g, h⟩ t .idle) :
    Leads (TimedPreserved t ⟨x, g, h⟩) (stepAt L maxThreads t i g .idle) := by
  refine .map fun op _ => ?_
  cases op <;>
    exact timed_local (by simp [Event.Untimed]) hs ho rfl rfl rfl rfl rfl rfl fun _ => trivial

/-- A step inside `q.enqueue`. -/
theorem enq_timed (hw : Issued ⟨(), g, h⟩) {a : Nat} {k : FAAArrayQueue.Local}
    (hi : IssueLoc ⟨(), g, h⟩ t (.enq a k)) (ho : Owner ⟨x, g, h⟩ t (.enq a k))
    (hl : Stage ⟨x, g, h⟩ t (.enq a k)) (hts : i.ts = g.clock)
    (hstep : stepAt L maxThreads t i g (.enq a k) = some (g', l', es)) :
    TimedPreserved t ⟨x, g, h⟩ g' l' es := by
  obtain ⟨hnew, hstate⟩ := IssueLoc.enq hi
  obtain ⟨q, k', fs, -, hcases⟩ := enq_cases hstate hstep
  rcases hcases with ⟨rfl, hk', rfl, rfl, rfl, rfl⟩ | ⟨s, hk, hk', hes, rfl, rfl, rfl⟩
    | ⟨hk, hk', rfl, rfl, rfl, rfl⟩ | ⟨ts, hk, hk', rfl, rfl, rfl, rfl⟩
    | ⟨hk, -, rfl, rfl, rfl, rfl⟩
  · refine timed_local (by simp [Event.Untimed]) hs ho ?_ ?_ rfl rfl rfl rfl fun hr => ?_
    · rw [Local.unread, hk']
      rfl
    · rw [Local.unwritten, hk']
      rfl
    · rw [Stage, hk']
      exact hr.inEnqueue hnew hl
  · refine timed_local (untimed_inward hes) hs ho ?_ ?_ rfl rfl rfl rfl fun hr => ?_
    · simp [Local.unread, hk', hk]
    · simp [Local.unwritten, hk', hk]
    · rw [Stage, hk']
      rw [Stage, hk] at hl
      exact hr.inEnqueue hnew hl
  · exact timed_read hw hs hnew hk (hts ▸ hk') ho hl
  · exact timed_stampEnq hw hs hnew hk hk' ho hl
  · refine timed_local (by simp [Event.Untimed]) hs ho ?_ ?_ rfl rfl rfl rfl fun _ => trivial
    · simp [Local.unread, hk]
    · simp [Local.unwritten, hk]

section Dequeue

variable {inv : Nat} {q : FAAArrayQueue.Shared} {k k' : FAAArrayQueue.Local}
  (ho : Owner ⟨x, g, h⟩ t (.deq inv k)) (hl : Stage ⟨x, g, h⟩ t (.deq inv k))

include ho hl

/-- The exchange brings the item into the hands of the thread. -/
theorem deqTake_timed {n : Nat} {idx : Int} {v : FAAArrayQueue.Slot}
    (htake : ∀ a, v = .item a → ∀ u, ¬ Took h u a)
    (hk' : k'.dequeuing = some (if v = .empty then .nothing else .taken v)) :
    TimedPreserved t ⟨x, g, h⟩ { g with q := q } (.deq inv k') [.queue (.take t n idx v)] := by
  refine timed_local (by simp [Event.Untimed]) hs ho rfl rfl rfl rfl rfl rfl fun _ => ⟨hl.1, ?_⟩
  rw [hk']
  cases v with
  | item a =>
      refine ⟨⟨n, idx, by simp⟩, fun hd => ?_⟩
      obtain ⟨-, u, hu⟩ := hs.deleted hd
      exact htake a rfl u hu
  | empty | taken => trivial

/-- The dequeuer reads the clock after the enqueuer has. -/
theorem deqNow_timed {v : FAAArrayQueue.Slot} (hread : ∀ a, v = .item a → ∃ y, x a = some y)
    (hk : k.dequeuing = some (.taken v)) (hk' : k'.dequeuing = some (.read v g.clock)) :
    TimedPreserved t ⟨x, g, h⟩ { g with q := q } (.deq inv k') [] := by
  obtain ⟨hinv, hin⟩ := hl
  refine timed_local (by simp) hs ho rfl rfl rfl rfl rfl rfl fun hr => ⟨hinv, ?_⟩
  have hheld := hr.inDequeue hin
  rw [hk] at hheld
  rw [hk']
  cases v with
  | item a =>
      obtain ⟨y, hy⟩ := hread a rfl
      exact ⟨hheld, hinv, y, hy, hs.clock hy⟩
  | empty | taken => trivial

theorem deqStamp_timed (hq : TakenOnce h) {a ts : Nat}
    (hk : k.dequeuing = some (.read (.item a) ts))
    (hk' : k'.dequeuing = some (.done (.item a))) :
    TimedPreserved t ⟨x, g, h⟩
      (({ g with q := q } : Shared α).setItem a { g.items a with deqLinTs := ts }) (.deq inv k')
      [.queue (.stampDeq t (.item a) ts)] := by
  obtain ⟨hinv, hin⟩ := hl
  rw [hk] at hin
  obtain ⟨hheld, hle, y, hy, hyle⟩ := hin
  obtain ⟨n, idx, hn⟩ := hheld.took
  refine timed_write hq hs (by simp [Event.Untimed]) hheld.took rfl rfl
    ⟨ho.of_untimed (by simp [Event.Untimed]) rfl rfl, hinv, ?_⟩
  rw [hk']
  refine ⟨⟨⟨n, idx, List.mem_append_left _ hn⟩, hheld.status⟩, ?_, y, hy, ?_⟩
  · simpa [Shared.setItem] using hle
  · simpa [Shared.setItem] using hyle

end Dequeue

/-- A step inside `q.dequeue`. -/
theorem deq_timed (hq : TakenOnce h) {inv : Nat} {k : FAAArrayQueue.Local}
    (hi : IssueLoc ⟨(), g, h⟩ t (.deq inv k)) (ho : Owner ⟨x, g, h⟩ t (.deq inv k))
    (hl : Stage ⟨x, g, h⟩ t (.deq inv k)) (hts : i.ts = g.clock)
    (htake : ∀ n idx a, .queue (.take t n idx (.item a)) ∈ es → ∀ u, ¬ Took h u a)
    (hread : ∀ a, k = .deqNowLin (.item a) → ∃ y, x a = some y)
    (hstep : stepAt L maxThreads t i g (.deq inv k) = some (g', l', es)) :
    TimedPreserved t ⟨x, g, h⟩ g' l' es := by
  obtain ⟨q, k', fs, -, hcases⟩ := deq_cases hi hstep
  rcases hcases with ⟨rfl, hk', rfl, rfl, rfl, rfl⟩ | ⟨s, hk, hk', hes, rfl, rfl, rfl⟩
    | ⟨hk, hk', rfl, rfl, rfl, rfl⟩ | ⟨n, idx, v, hk, hk', rfl, rfl, rfl, rfl⟩
    | ⟨v, hk, hk', rfl, rfl, rfl, rfl⟩ | ⟨a, ts, hk, hk', rfl, rfl, rfl, rfl⟩
    | ⟨hk, -, rfl, rfl, rfl, rfl⟩ | ⟨a, hk, -, rfl, rfl, rfl, rfl⟩
  · refine timed_local (by simp [Event.Untimed]) hs ho rfl rfl rfl rfl rfl rfl fun _ => ⟨hl.1, ?_⟩
    rw [hk']
    trivial
  · refine timed_local (untimed_inward hes) hs ho rfl rfl rfl rfl rfl rfl fun hr => ⟨hl.1, ?_⟩
    rw [hk', ← hk]
    exact hr.inDequeue hl.2
  · refine timed_local (by simp) hs ho rfl rfl rfl rfl rfl rfl fun _ => ⟨hl.1, ?_⟩
    rw [hk']
    trivial
  · exact deqTake_timed hs ho hl (fun a ha => htake n idx a (by simp [ha])) hk'
  · refine deqNow_timed hs ho hl (fun a ha => hread a ?_) hk (hts ▸ hk')
    rw [deqNowLin_of_taken hk, ha]
  · exact deqStamp_timed hs ho hl hq hk hk'
  · exact timed_local (by simp [Event.Untimed]) hs ho rfl rfl rfl rfl rfl rfl fun _ => trivial
  · refine timed_local (by simp [Event.Untimed]) hs ho rfl rfl rfl rfl rfl rfl fun hr => ?_
    have hheld := hr.inDequeue hl.2
    rw [hk] at hheld
    exact hheld

theorem deqStoreInv_timed (hq : TakenOnce h) {inv a : Nat} {out : α}
    (ho : Owner ⟨x, g, h⟩ t (.deqStoreInv inv a out))
    (hl : Stage ⟨x, g, h⟩ t (.deqStoreInv inv a out)) :
    Leads (TimedPreserved t ⟨x, g, h⟩) (stepAt L maxThreads t i g (.deqStoreInv inv a out)) := by
  obtain ⟨hheld, hle, y, hy, hyle⟩ := hl
  refine .into <| timed_write (q := g.q) hq hs (by simp) hheld.took rfl rfl
    ⟨ho.of_untimed (by simp) rfl rfl, ⟨?_, hheld.status⟩, ⟨y, hy, ?_⟩, ?_⟩
  · simpa using hheld.took
  · simpa [Shared.setItem] using hyle
  · simpa [Shared.setItem] using hle

theorem deqReadEnqLin_timed {a ei : Nat} {out : α} (hwritten : IsStamped h a)
    (ho : Owner ⟨x, g, h⟩ t (.deqReadEnqLin a out ei))
    (hl : Stage ⟨x, g, h⟩ t (.deqReadEnqLin a out ei)) :
    Leads (TimedPreserved t ⟨x, g, h⟩) (stepAt L maxThreads t i g (.deqReadEnqLin a out ei)) := by
  obtain ⟨u, y, hu⟩ := hwritten
  obtain ⟨-, -, hlin, -⟩ := hs.stamped hu
  have hlin' : (g.items a).enqLinTs = y := hlin
  exact .into <| timed_local (by simp) hs ho rfl rfl rfl rfl rfl rfl fun hr =>
    ⟨hr.ready hl.1, hl.2, u, by simpa [hlin'] using hu⟩

/-- The record holds what was read of the item, in the order of the clock. -/
theorem deqLog_timed {a ei el di : Nat} {out : α}
    (ho : Owner ⟨x, g, h⟩ t (.deqLog a out ei el di))
    (hl : Stage ⟨x, g, h⟩ t (.deqLog a out ei el di)) :
    Leads (TimedPreserved t ⟨x, g, h⟩) (stepAt L maxThreads t i g (.deqLog a out ei el di)) := by
  obtain ⟨⟨hheld, ⟨y, hy, hyle⟩, hdeq⟩, hei, ⟨u, hu⟩, hdi⟩ := hl
  obtain ⟨hnew, hghost, hlin, hle⟩ := hs.stamped hu
  obtain rfl : el = y := Option.some.inj (hghost.symm.trans hy)
  refine .into <| timed_logged hs ⟨⟨u, hnew, hu⟩, ⟨?_, hyle, ?_⟩⟩ ho rfl rfl hheld ⟨u, el, hu⟩
  · rw [hei]
    exact hle
  · rw [hdi]
    exact hdeq

end States

/-- **Every step keeps what the stamps say**, if its dequeuer comes after the enqueuer. -/
theorem step_timed {L : Layout} {maxThreads : Nat} {i : Input α} (hw : Issued ⟨(), g, h⟩)
    (hi : IssueLoc ⟨(), g, h⟩ t l) (hq : TakenOnce h)
    (htake : ∀ n idx a, .queue (.take t n idx (.item a)) ∈ es → ∀ u, ¬ Took h u a)
    (hread : ∀ inv a, l = .deq inv (.deqNowLin (.item a)) → ∃ y, x a = some y)
    (hwritten : ∀ a out ei, l = .deqReadEnqLin a out ei → IsStamped h a)
    (hs : Timed ⟨x, g, h⟩) (ho : Owner ⟨x, g, h⟩ t l) (hl : Stage ⟨x, g, h⟩ t l)
    (hts : i.ts = g.clock) (hstep : stepAt L maxThreads t i g l = some (g', l', es)) :
    TimedPreserved t ⟨x, g, h⟩ g' l' es := by
  cases l with
  | idle => exact (idle_timed hs ho).of_some hstep
  | enqNew v =>
      refine Leads.of_some hstep (.ite (fun hfree => .into ?_) fun _ => .nowhere)
      exact timed_new hw hq hs hfree ho
  | enqNowInv a =>
      refine Leads.of_some hstep (.into ?_)
      refine timed_local (by simp) hs ho rfl rfl rfl rfl rfl rfl fun hr => ?_
      obtain ⟨hun, hnone⟩ := hr.stage hi hl
      exact ⟨hun, hnone, hts.le⟩
  | enqStoreInv a ts => exact Leads.of_some hstep (.into <| timed_storeInv hw hq hs hi ho hl)
  | enq a k => exact enq_timed hs hw hi ho hl hts hstep
  | deqNowInv =>
      refine Leads.of_some hstep (.into ?_)
      exact timed_local (by simp) hs ho rfl rfl rfl rfl rfl rfl fun _ => ⟨hts.le, trivial⟩
  | deq inv k =>
      exact deq_timed hs hq hi ho hl hts htake (fun a ha => hread inv a (ha ▸ rfl)) hstep
  | deqReadValue inv a =>
      refine Leads.of_some hstep (.into ?_)
      exact timed_local (by simp) hs ho rfl rfl rfl rfl rfl rfl fun hr => hr.stage hi hl
  | deqStoreInv inv a out => exact (deqStoreInv_timed hs hq ho hl).of_some hstep
  | deqReadEnqInv a out =>
      refine Leads.of_some hstep (.into ?_)
      exact timed_local (by simp) hs ho rfl rfl rfl rfl rfl rfl fun hr => ⟨hr.ready hl, rfl⟩
  | deqReadEnqLin a out ei =>
      exact (deqReadEnqLin_timed hs (hwritten a out ei rfl) ho hl).of_some hstep
  | deqReadDeqInv a out ei el =>
      refine Leads.of_some hstep (.into ?_)
      refine timed_local (by simp) hs ho rfl rfl rfl rfl rfl rfl fun hr => ?_
      obtain ⟨hready, hei, hel⟩ := hr.stage hi hl
      exact ⟨hready, hei, hel, rfl⟩
  | deqLog a out ei el di => exact (deqLog_timed hs ho hl).of_some hstep
  | deqDelete a out => exact Leads.of_some hstep (.into <| timed_delete hq hs ho hl)

end Steps

section Results

variable [Inhabited α] {L : Layout} {maxThreads : Nat} {c : Config (Shared α) (Local α) (Event α)}

omit [Inhabited α] in
theorem mem_inner {e : FAAArrayQueue.Event} : e ∈ (inner c).history ↔ .queue e ∈ c.history := by
  simp only [inner, List.mem_filterMap]
  constructor
  · rintro ⟨f, hf, heq⟩
    cases f <;> simp only [queueEvent, Option.some.injEq, reduceCtorEq] at heq
    exact heq ▸ hf
  · exact fun he => ⟨_, he, rfl⟩

/-- Two exchanges that took the same item are one. -/
theorem take_unique {h : List FAAArrayQueue.Event} (hnodup : (FAAArrayQueue.takenItems h).Nodup)
    {e f : FAAArrayQueue.Event} (he : e ∈ h) (hf : f ∈ h) {a : Nat}
    (hea : FAAArrayQueue.takenItem e = some a) (hfa : FAAArrayQueue.takenItem f = some a) :
    e = f := by
  induction h with
  | nil => cases he
  | cons k h ih =>
      have hcons : ∀ {b}, FAAArrayQueue.takenItem k = some b →
          b ∉ FAAArrayQueue.takenItems h := fun hb hmem => by
        rw [FAAArrayQueue.takenItems, List.filterMap_cons_some hb] at hnodup
        exact (List.nodup_cons.mp hnodup).1 hmem
      have htail : (FAAArrayQueue.takenItems h).Nodup :=
        hnodup.sublist ((List.sublist_cons_self k h).filterMap _)
      rcases List.mem_cons.mp he with rfl | he' <;> rcases List.mem_cons.mp hf with rfl | hf'
      · rfl
      · exact absurd (List.mem_filterMap.mpr ⟨f, hf', hfa⟩) (hcons hea)
      · exact absurd (List.mem_filterMap.mpr ⟨e, he', hea⟩) (hcons hfa)
      · exact ih htail he' hf'

theorem Reach.takenOnce (h : (program α L maxThreads).Reachable c) : TakenOnce c.history := by
  obtain ⟨hw, -⟩ := FAAArrayQueue.Reach.cells (Reach.inner h)
  refine ⟨fun {t u a} ht hu => ?_, fun {t a} ht => ?_⟩
  · obtain ⟨n, idx, hn⟩ := ht
    obtain ⟨m, j, hm⟩ := hu
    have heq := take_unique hw.takenOnce (mem_inner.mpr hn) (mem_inner.mpr hm) rfl rfl
    exact (FAAArrayQueue.Event.take.inj heq).1
  · obtain ⟨n, idx, hn⟩ := ht
    obtain ⟨-, -, ⟨u, hu⟩, -⟩ := hw.put (hw.taken (mem_inner.mpr hn))
    exact ⟨u, mem_inner.mp hu⟩

/-- An exchange takes an item that was not taken before. -/
theorem Reach.take_new (h : (program α L maxThreads).Reachable c) {t : Tid} {i : Input α}
    {g : Shared α} {l : Local α} {es : List (Event α)}
    (hstep : (program α L maxThreads).step t i c.shared (c.locals t) = some (g, l, es))
    {n a : Nat} {idx : Int} (htake : .queue (.take t n idx (.item a)) ∈ es) (u : Tid) :
    ¬ Took c.history u a := by
  rintro ⟨m, j, hm⟩
  have hreach : (program α L maxThreads).Reachable
      ⟨g, Function.update c.locals t l, c.history ++ es⟩ :=
    .step h trivial (Option.map_eq_some_iff.mpr ⟨_, hstep, rfl⟩)
  obtain ⟨hw, -⟩ := FAAArrayQueue.Reach.cells (Reach.inner hreach)
  have hnodup := hw.takenOnce
  rw [FAAArrayQueueAdapter.inner, List.filterMap_append, FAAArrayQueue.takenItems_append,
    List.nodup_append] at hnodup
  refine hnodup.2.2 a ?_ a ?_ rfl
  · exact List.mem_filterMap.mpr ⟨_, List.mem_filterMap.mpr ⟨_, hm, rfl⟩, rfl⟩
  · exact List.mem_filterMap.mpr ⟨_, List.mem_filterMap.mpr ⟨_, htake, rfl⟩, rfl⟩

/-- What the stamps say, as a rely-guarantee proof over the run of the queue inside. -/
def timedInvariant (α : Type) [Inhabited α] (L : Layout) (maxThreads : Nat) :
    RelyGuarantee (program α L maxThreads)
      (fun c t _ => (program α L maxThreads).Reachable c ∧ EnqueuerFirst c t)
      (Nat → Option Nat) where
  glob w := Issued ⟨(), w.shared, w.history⟩ ∧ Timed w
  loc w t l := IssueLoc ⟨(), w.shared, w.history⟩ t l ∧ Owner w t l ∧ Stage w t l
  rely t w w' :=
    IssueRely t ⟨(), w.shared, w.history⟩ ⟨(), w'.shared, w'.history⟩ ∧ TimedRely t w w'
  init := by
    refine ⟨fun _ => none, ⟨(Reach.issued .init).1, fun hx => ?_, fun hx => ?_, fun hx => ?_,
      fun hx => ?_, fun _ => rfl, fun hx => ?_⟩, fun t =>
        ⟨trivial, ⟨fun a ha => ?_, fun a ha => ?_⟩, trivial⟩⟩
    all_goals first | cases hx | cases ha
  stable h hl := ⟨h.1.loc hl.1, h.2.owner hl.2.1, h.2.stage hl.1 hl.2.2⟩
  step {x c t i g l es} hok hs hl hstep := by
    obtain ⟨hreach, hread, hwritten⟩ := hok
    obtain ⟨hw, hs⟩ := hs
    have hq := Reach.takenOnce hreach
    have htake : ∀ n idx a, .queue (.take t n idx (.item a)) ∈ es → ∀ u, ¬ Took c.history u a :=
      fun _ _ _ => Reach.take_new hreach hstep
    obtain ⟨hts, hstep⟩ := Option.ite_none_right_eq_some.mp hstep
    -- Time passes first.
    have htime : ∀ u, TimedRely u ⟨x, c.shared, c.history⟩
        ⟨x, { c.shared with clock := i.ts }, c.history⟩ := fun u =>
      ⟨id, hts, id, id, fun _ => ⟨rfl, rfl, id⟩, fun _ => ⟨id, rfl, rfl, rfl⟩⟩
    have hissue : ∀ u, IssueRely u ⟨(), c.shared, c.history⟩
        ⟨(), { c.shared with clock := i.ts }, c.history⟩ := fun u =>
      ⟨id, fun hun => ⟨hun.new, hun.call⟩⟩
    have hw' : Issued ⟨(), { c.shared with clock := i.ts }, c.history⟩ :=
      ⟨hw.status, hw.owner, hw.called⟩
    have hs' : Timed ⟨x, { c.shared with clock := i.ts }, c.history⟩ :=
      ⟨fun hx => (hs.clock hx).trans hts, hs.fresh, hs.stamped, hs.deleted, hs.log, hs.logged⟩
    obtain ⟨hi, ho, hst⟩ := hl t
    have howner : ∀ {u a}, Took c.history u a → ∃ v, .new v a ∈ c.history := fun ha => by
      obtain ⟨v, hv⟩ := hq.called ha
      exact ⟨v, hw.called hv⟩
    obtain ⟨x', hs'', hown, hothers⟩ := step_timed hw' ((hissue t).loc hi) hq htake
      (fun inv a heq => by
        have hheld : Holds ⟨x, c.shared, c.history⟩ t a := by
          rw [heq] at hst
          exact hst.2
        obtain ⟨v, hv⟩ := howner hheld.took
        by_contra hnone
        rw [not_exists] at hnone
        exact hread inv a heq v
          ((hl v).2.1.unread a hv (Option.eq_none_iff_forall_ne_some.mpr hnone)))
      (fun a out ei heq => by
        have hready : Ready ⟨x, c.shared, c.history⟩ t a := by
          rw [heq] at hst
          exact hst.1
        obtain ⟨v, hv⟩ := howner hready.holds.took
        exact ((hl v).2.1.unwritten a hv).resolve_left (hwritten a out ei heq v))
      hs' ((htime t).owner ho) ((htime t).stage hi hst) rfl hstep
    obtain ⟨hglob, hloc, hrely⟩ := step_issued hw' ((hissue t).loc hi) hstep
    refine ⟨x', ⟨hglob, hs''⟩, ⟨hloc, hown⟩, fun u hu => ⟨?_, ?_⟩⟩
    · exact ⟨(hrely u hu).history, fun hun => (hrely u hu).unsent ⟨hun.new, hun.call⟩⟩
    · obtain ⟨h1, h2, h3, h4, h5, h6⟩ := hothers u hu
      exact ⟨h1, hts.trans h2, h3, h4, h5, h6⟩

/-- **The log is faithful and no write is late when the enqueuers come first.** -/
theorem log_faithful_of_enqueuerFirst
    (h : (program α L maxThreads).Reach (fun c t _ => EnqueuerFirst c t) c) :
    LogFaithful c ∧ NoLateWrite c := by
  have hreach := h.along.mono fun c t i hok =>
    (⟨hok.1.mono fun _ _ _ _ => trivial, hok.2⟩ :
      (program α L maxThreads).Reachable c ∧ EnqueuerFirst c t)
  obtain ⟨x, ⟨hw, hs⟩, hl⟩ := (timedInvariant α L maxThreads).holds hreach
  refine ⟨fun t r hr => ?_, fun t a ha hd => ?_⟩
  · have hlog : c.shared.log t = c.history.filterMap (loggedBy t) := hs.log t
    rw [hlog] at hr
    obtain ⟨e, he, hre⟩ := List.mem_filterMap.mp hr
    cases e with
    | logged u a s =>
        have hut : u = t := by
          by_contra hut
          simp [loggedBy, hut] at hre
        obtain rfl : s = r := by simpa [loggedBy, hut] using hre
        exact ⟨a, hut ▸ he, hs.logged he⟩
    | _ => simp [loggedBy] at hre
  · obtain ⟨⟨u, y, hu⟩, -⟩ := hs.deleted hd
    obtain ⟨hi, -, hst⟩ := hl t
    cases hlocal : c.locals t with
    | enqStoreInv ptr ts =>
        rw [hlocal] at ha hst
        obtain rfl : ptr = a := by simpa [Local.writes] using ha
        exact hst.1 u y hu
    | deqStoreInv inv ptr out =>
        rw [hlocal] at ha hst
        obtain rfl : ptr = a := by simpa [Local.writes] using ha
        exact hst.1.status hd
    | enq ptr l =>
        rw [hlocal] at ha hi hst
        obtain ⟨-, rfl | ⟨s, hsome⟩⟩ := IssueLoc.enq hi
        · cases ha
        · obtain ⟨rfl, ts, hread⟩ := enqueuing_of_stamps ha hsome
          rw [Stage, hread] at hst
          exact hst.1 u y hu
    | deq inv l =>
        rw [hlocal] at ha hi hst
        obtain rfl | ⟨s, hsome⟩ := hi
        · cases ha
        · obtain ⟨ts, hread⟩ := dequeuing_of_stamps ha hsome
          have hin := hst.2
          rw [hread] at hin
          exact hin.1.status hd
    | _ =>
        rw [hlocal] at ha
        cases ha

/-- Decides `EnqueuerFirst` when the threads from `bound` on are idle. -/
def enqueuerFirstCheck (bound : Nat) (c : Config (Shared α) (Local α) (Event α)) (t : Tid) : Bool :=
  match c.locals t with
  | .deq _ (.deqNowLin (.item a)) =>
      (List.range bound).all fun u => decide ((c.locals u).unread ≠ some a)
  | .deqReadEnqLin a _ _ =>
      (List.range bound).all fun u => decide ((c.locals u).unwritten ≠ some a)
  | _ => true

omit [Inhabited α] in
theorem enqueuerFirst_of_check {bound : Nat} {t : Tid}
    (hidle : ∀ u, bound ≤ u → c.locals u = .idle) (hcheck : enqueuerFirstCheck bound c t = true) :
    EnqueuerFirst c t := by
  constructor
  · intro inv a heq u hu
    rw [enqueuerFirstCheck, heq] at hcheck
    by_cases hlt : u < bound
    · exact of_decide_eq_true (List.all_eq_true.mp hcheck u (List.mem_range.mpr hlt)) hu
    · rw [hidle u (Nat.not_lt.mp hlt)] at hu
      cases hu
  · intro a out ei heq u hu
    rw [enqueuerFirstCheck, heq] at hcheck
    by_cases hlt : u < bound
    · exact of_decide_eq_true (List.all_eq_true.mp hcheck u (List.mem_range.mpr hlt)) hu
    · rw [hidle u (Nat.not_lt.mp hlt)] at hu
      cases hu

/-- Thread 0 enqueues 7 as item 3, then thread 1 dequeues it. -/
def orderlySchedule : List (Tid × Input Nat) :=
  List.replicate 13 (0, { op := some (.enqueue 7), ts := 5, item := 3 })
    ++ List.replicate 19 (1, { op := some .dequeue, ts := 9 })

theorem log_faithful_of_enqueuerFirst_solo :
    ∃ c, (c.shared.log 1, c.shared.status 3) = ([⟨5, 5, 9, 9⟩], .deleted)
      ∧ (program Nat (.identity 4 (by decide)) 2).Reach (fun c t _ => EnqueuerFirst c t) c
      ∧ LogFaithful c ∧ NoLateWrite c := by
  have hrun : ((program Nat (.identity 4 (by decide)) 2).execIf 2
      (fun c t _ => enqueuerFirstCheck 2 c t) (program Nat (.identity 4 (by decide)) 2).init
      orderlySchedule).map (fun c => (c.shared.log 1, c.shared.status 3))
      = some ([⟨5, 5, 9, 9⟩], .deleted) := by
    decide +kernel
  obtain ⟨c, hexec, heq⟩ := Option.map_eq_some_iff.mp hrun
  have hreach :
      (program Nat (.identity 4 (by decide)) 2).Reach (fun c t _ => EnqueuerFirst c t) c :=
    .execIf (fun _ _ _ hidle hcheck => enqueuerFirst_of_check hidle hcheck) .init (fun _ _ => rfl)
      hexec
  exact ⟨c, heq, hreach, log_faithful_of_enqueuerFirst hreach⟩

/-- Thread 0 puts item 3 in a cell and stops before it reads the clock; thread 1 dequeues, logs and
deletes the item; thread 0 goes on. -/
def overtakenSchedule : List (Tid × Input Nat) :=
  List.replicate 10 (0, { op := some (.enqueue 7), ts := 5, item := 3 })
    ++ List.replicate 19 (1, { op := some .dequeue, ts := 9 })
    ++ [(0, { ts := 11 })]

def isStamp : Event α → Bool
  | .queue (.stampEnq _ _ _) => true
  | _ => false

/-- A dequeue that overtakes the enqueuer logs a stamp that nobody has written, and the enqueuer
then writes to a deleted item. -/
theorem not_logFaithful_overtaken :
    ¬ (∀ c, (program Nat (.identity 4 (by decide)) 2).Reachable c → LogFaithful c)
      ∧ ¬ ∀ c, (program Nat (.identity 4 (by decide)) 2).Reachable c → NoLateWrite c := by
  have hrun : ((program Nat (.identity 4 (by decide)) 2).exec
      (program Nat (.identity 4 (by decide)) 2).init overtakenSchedule).map
      (fun c => (c.shared.log 1, c.history.any isStamp, (c.locals 0).writes, c.shared.status 3))
      = some ([⟨5, 0, 9, 9⟩], false, some 3, .deleted) := by
    decide +kernel
  obtain ⟨c, hexec, heq⟩ := Option.map_eq_some_iff.mp hrun
  simp only [Prod.mk.injEq] at heq
  obtain ⟨hlog, hstamp, hwrites, hdeleted⟩ := heq
  have hreach : (program Nat (.identity 4 (by decide)) 2).Reachable c :=
    .exec (fun _ _ _ => trivial) .init hexec
  refine ⟨fun hall => ?_, fun hall => hall c hreach 0 3 hwrites hdeleted⟩
  obtain ⟨a, -, ⟨u, -, hu⟩, -⟩ := hall c hreach 1 _ (hlog ▸ List.mem_singleton_self _)
  have hany : c.history.any isStamp = true := List.any_eq_true.mpr ⟨_, hu, rfl⟩
  exact absurd (hany.symm.trans hstamp) (by simp)

end Results

end FAAArrayQueueAdapter

end QueueFairness
