import Mathlib.Data.List.Nodup
import Mathlib.Data.List.Pairwise
import QueueFairness.Proof.LinkedRingAccount

/-!
# The order of items in a ring queue

An item's head ticket is that of its segment with the number of the tail ticket it was put there
under. What the list needs to know of the tickets of its segments, and what follows for the list: an
enqueue called after another has returned puts its item in a later place, a dequeue works on the
first segment, and one that returns nothing has seen, at one moment, that the head ticket of every
item there was had been drawn.
-/

namespace QueueFairness.LinkedRingQueue

open Interleaving LinkedList

variable {σ κe κd : Type}

/-- A call or a return of thread `t`. -/
def Event.Boundary (t : Tid) : Event → Prop
  | .call u _ | .retEnq u _ | .retDeq u _ | .retSize u _ => u = t
  | _ => False

/-- Thread `t` is in a call to `dequeue`. -/
def InDequeue (h : List Event) (t : Tid) : Prop :=
  ∃ before during, h = before ++ .call t .dequeue :: during ∧ ∀ e ∈ during, ¬ e.Boundary t

/-- Item `a` was put in segment `s` of the list under ticket `k`. -/
def Put (h : List Event) (a s k : Nat) : Prop :=
  s ∈ chain h ∧ ∃ t, .segment s (.deposit t a k) ∈ h

/-- A dequeue has drawn the head ticket `k` of segment `s` during its call. -/
def Drawn (h : List Event) (s k : Nat) : Prop :=
  ∃ t before during after,
    h = before ++ .call t .dequeue :: (during ++ .segment s (.drawHead t k) :: after)
      ∧ ∀ e ∈ during, ¬ e.Boundary t

/-- Thread `t` is in a call to `dequeue` and has drawn the head ticket `k` of segment `s`. -/
def Holding (h : List Event) (t : Tid) (s k : Nat) : Prop :=
  ∃ before during after,
    h = before ++ .call t .dequeue :: (during ++ .segment s (.drawHead t k) :: after)
      ∧ ∀ e ∈ during ++ after, ¬ e.Boundary t

/-- The head ticket of every item whose enqueue has returned is drawn. -/
def AllDrawn (h : List Event) : Prop :=
  ∀ t a, .retEnq t a ∈ h → ∃ s k, Put h a s k ∧ Drawn h s k

/-- At a moment of thread `t`'s present call to `dequeue`, all head tickets of items were drawn. -/
def Emptied (h : List Event) (t : Tid) : Prop :=
  ∃ before during after,
    h = before ++ .call t .dequeue :: (during ++ after) ∧ (∀ e ∈ during ++ after, ¬ e.Boundary t)
      ∧ AllDrawn (before ++ .call t .dequeue :: during)

/-- The enqueue of `a` returned before the enqueue of `b` was called. -/
def ReturnedBefore (h : List Event) (a b : Nat) : Prop :=
  ∃ before t u, before ++ [.call u (.enqueue b)] <+: h ∧ .retEnq t a ∈ before

/-- The order of the places in the segments. -/
def PlaceBefore (h : List Event) (s k m j : Nat) : Prop :=
  ∃ p q, At h s p ∧ At h m q ∧ (p < q ∨ p = q ∧ k < j)

/-- What the order of items needs of a segment type besides. `tailTicket` and `headTicket` are the
tickets an operation works with, `holds` says that an item is in the cell of a ticket. -/
structure TicketSpec {S : SegmentType σ κe κd}
    {okS : Config σ (SegmentLocal κe κd) SegmentEvent → Tid → Prop}
    (spec : SegmentSpec S okS) where
  tailTicket : κe → Option Nat
  headTicket : κd → Option Nat
  holds : σ → Nat → Nat → Prop
  enqueue_start : tailTicket S.enqueue = none
  dequeue_start : headTicket S.dequeue = none
  enqueue_ticket : ∀ {t now item s l l' k}, (S.enqueueStep t now item s l).2.1 = .inl l' →
    tailTicket l' = some k →
    tailTicket l = some k ∨ .drawTail t k ∈ (S.enqueueStep t now item s l).2.2
  enqueue_deposit : ∀ {t now item s l u a k},
    .deposit u a k ∈ (S.enqueueStep t now item s l).2.2 → a = item ∧ tailTicket l = some k
  enqueue_drawHead : ∀ {t now item s l u k}, .drawHead u k ∉ (S.enqueueStep t now item s l).2.2
  dequeue_ticket : ∀ {t now s l l' k}, (S.dequeueStep t now s l).2.1 = .inl l' →
    headTicket l' = some k → headTicket l = some k ∨ .drawHead t k ∈ (S.dequeueStep t now s l).2.2
  dequeue_drawHead : ∀ {t now s l u k}, .drawHead u k ∈ (S.dequeueStep t now s l).2.2 → u = t
  dequeue_take : ∀ {t now s l u a k}, .take u a k ∈ (S.dequeueStep t now s l).2.2 →
    headTicket l = some k
  tail_grows : ∀ {start c t i s l es u v j k},
    (segmentProgram S start).Reach (fun c t _ => okS c t) c →
    okS c t → segmentStep S t i c.shared (c.locals t) = some (s, l, es) → .drawTail u k ∈ es →
    .drawTail v j ∈ c.history → j < k
  deposited : ∀ {start c t a k}, (segmentProgram S start).Reach (fun c t _ => okS c t) c →
    .deposit t a k ∈ c.history → .drawTail t k ∈ c.history
  taken : ∀ {start c t a k}, (segmentProgram S start).Reach (fun c t _ => okS c t) c →
    .take t a k ∈ c.history → ∃ u, .deposit u a k ∈ c.history
  drawn : ∀ {start c t k}, (segmentProgram S start).Reach (fun c t _ => okS c t) c →
    .drawHead t k ∈ c.history → k < (S.base c.shared).head
  draws : ∀ {start c t k}, (segmentProgram S start).Reach (fun c t _ => okS c t) c →
    .drawTail t k ∈ c.history → k < (S.base c.shared).head → ∃ u, .drawHead u k ∈ c.history
  emptied_now : ∀ {start c t now l}, (segmentProgram S start).Reach (fun c t _ => okS c t) c →
    okS c t → c.locals t = .dequeue l →
    (S.dequeueStep t now c.shared l).2.1.elim spec.emptied (fun r => r.isNone) = true →
    spec.emptied l = true ∨ ∀ u k, .drawTail u k ∈ c.history → k < (S.base c.shared).head
  kept : ∀ {start c t a k}, (segmentProgram S start).Reach (fun c t _ => okS c t) c →
    .deposit t a k ∈ c.history → (∃ u, .take u a k ∈ c.history)
      ∨ holds c.shared k a ∧ ∀ u, .drawHead u k ∈ c.history →
        ∃ l, c.locals u = .dequeue l ∧ headTicket l = some k

section History

variable {h es : List Event} {t u : Tid} {a b s k m j : Nat}

theorem mem_segmentEvents {e : SegmentEvent} :
    e ∈ h.filterMap (segmentEvent s) ↔ .segment s e ∈ h := by
  rw [List.mem_filterMap]
  constructor
  · rintro ⟨e', he', heq⟩
    cases e' with
    | segment s' e' =>
        obtain ⟨rfl, rfl⟩ : s' = s ∧ e' = e := by simpa [segmentEvent] using heq
        exact he'
    | _ => cases heq
  · exact fun he => ⟨_, he, if_pos rfl⟩

theorem chain_le_append : chain h <+: chain (h ++ es) := chain_append ▸ List.prefix_append _ _

theorem At.append {p : Nat} (hs : At h s p) (es : List Event) : At (h ++ es) s p :=
  hs.mono chain_le_append

theorem At.mem {p : Nat} (hs : At h s p) : s ∈ chain h := List.mem_of_getElem? hs

theorem Put.append (hp : Put h a s k) (es : List Event) : Put (h ++ es) a s k := by
  obtain ⟨hs, t, ht⟩ := hp
  exact ⟨chain_le_append.subset hs, t, List.mem_append_left _ ht⟩

theorem PlaceBefore.append (hp : PlaceBefore h s k m j) (es : List Event) :
    PlaceBefore (h ++ es) s k m j := by
  obtain ⟨p, q, hs, hm, hlt⟩ := hp
  exact ⟨p, q, hs.append es, hm.append es, hlt⟩

theorem Drawn.append (hd : Drawn h s k) (es : List Event) : Drawn (h ++ es) s k := by
  obtain ⟨t, before, during, after, rfl, hduring⟩ := hd
  exact ⟨t, before, during, after ++ es, by simp, hduring⟩

theorem InDequeue.append (hd : InDequeue h t) (hes : ∀ e ∈ es, ¬ e.Boundary t) :
    InDequeue (h ++ es) t := by
  obtain ⟨before, during, rfl, hduring⟩ := hd
  refine ⟨before, during ++ es, by simp, fun e he => ?_⟩
  exact (List.mem_append.mp he).elim (hduring e) (hes e)

theorem Holding.append (hd : Holding h t s k) (hes : ∀ e ∈ es, ¬ e.Boundary t) :
    Holding (h ++ es) t s k := by
  obtain ⟨before, during, after, rfl, hduring⟩ := hd
  refine ⟨before, during, after ++ es, by simp, fun e he => ?_⟩
  rw [← List.append_assoc] at he
  exact (List.mem_append.mp he).elim (hduring e) (hes e)

theorem Emptied.append (hd : Emptied h t) (hes : ∀ e ∈ es, ¬ e.Boundary t) :
    Emptied (h ++ es) t := by
  obtain ⟨before, during, after, rfl, hduring, hall⟩ := hd
  refine ⟨before, during, after ++ es, by simp, fun e he => ?_, hall⟩
  rw [← List.append_assoc] at he
  exact (List.mem_append.mp he).elim (hduring e) (hes e)

theorem Holding.drawn (hd : Holding h t s k) : Drawn h s k := by
  obtain ⟨before, during, after, heq, hduring⟩ := hd
  exact ⟨t, before, during, after, heq, fun e he => hduring e (List.mem_append_left _ he)⟩

theorem Holding.mem (hd : Holding h t s k) : .segment s (.drawHead t k) ∈ h := by
  obtain ⟨before, during, after, rfl, -⟩ := hd
  simp

/-- A dequeue that draws a ticket holds it. -/
theorem InDequeue.holding (hd : InDequeue h t) (hes : ∀ e ∈ es, ¬ e.Boundary t)
    (hk : .segment s (.drawHead t k) ∈ es) : Holding (h ++ es) t s k := by
  obtain ⟨before, during, rfl, hduring⟩ := hd
  obtain ⟨first, last, rfl⟩ := List.append_of_mem hk
  refine ⟨before, during ++ first, last, by simp, fun e he => ?_⟩
  rcases List.mem_append.mp he with he | he
  · exact (List.mem_append.mp he).elim (hduring e) fun he => hes e (List.mem_append_left _ he)
  · exact hes e (by simp [he])

theorem ReturnedBefore.append (hab : ReturnedBefore h a b) (es : List Event) :
    ReturnedBefore (h ++ es) a b := by
  obtain ⟨before, t, u, hle, hmem⟩ := hab
  exact ⟨before, t, u, hle.trans (List.prefix_append _ _), hmem⟩

/-- If the enqueue of `b` was called before, nothing has come before it since. -/
theorem ReturnedBefore.old (hab : ReturnedBefore (h ++ es) a b)
    (hes : ∀ u, .call u (.enqueue b) ∉ es) : ReturnedBefore h a b := by
  obtain ⟨before, t, u, ⟨after, heq⟩, hmem⟩ := hab
  refine ⟨before, t, u, ?_, hmem⟩
  rcases List.append_eq_append_iff.mp heq with ⟨xs, hh, -⟩ | ⟨xs, hbefore, hes'⟩
  · exact ⟨xs, hh.symm⟩
  · rcases List.eq_nil_or_concat xs with rfl | ⟨xs, x, rfl⟩
    · exact ⟨[], by simpa using hbefore⟩
    · rw [List.concat_eq_append, ← List.append_assoc] at hbefore
      obtain ⟨-, rfl⟩ := List.append_singleton_inj.mp hbefore
      exact absurd (show _ ∈ es by simp [hes']) (hes u)

end History

/-! ### What is known of the order -/

section Order

variable {S : SegmentType σ κe κd} {okS : Config σ (SegmentLocal κe κd) SegmentEvent → Tid → Prop}
  {spec : SegmentSpec S okS} (law : TicketSpec spec)

/-- `head` stands on the `q`th segment or behind it. -/
def HeadFrom (w : W σ) (q : Nat) : Prop := ∃ k, q ≤ k ∧ At w.history w.shared.head k

structure OrderGlob (w : W σ) : Prop where
  called :
    ∀ {s t a k}, .segment s (.deposit t a k) ∈ w.history → ∃ u, .call u (.enqueue a) ∈ w.history
  drawn : ∀ {s t k}, .segment s (.drawHead t k) ∈ w.history →
    Drawn w.history s k ∧ ∃ q, At w.history s q ∧ HeadFrom w q
  order : ∀ {a b m j}, ReturnedBefore w.history a b → Put w.history b m j →
    ∃ s k, Put w.history a s k ∧ PlaceBefore w.history s k m j

/-- The call to enqueue `a` found `ltail` the last segment. -/
structure OnTail (w : W σ) (t : Tid) (a ltail : Nat) : Prop where
  call : .call t (.enqueue a) ∈ w.history
  order : ∀ b, ReturnedBefore w.history b a →
    ∃ s k p q, Put w.history b s k ∧ At w.history s p ∧ At w.history ltail q ∧ p ≤ q

/-- The place of ticket `k` in `ltail` is behind those of all items that came before `a`. -/
def Ahead (w : W σ) (a ltail k : Nat) : Prop :=
  ∀ b, ReturnedBefore w.history b a →
    ∃ s j, Put w.history b s j ∧ PlaceBefore w.history s j ltail k

/-- `lhead` was read from `head`, by a call to `dequeue`. -/
structure OnHead (w : W σ) (t : Tid) (lhead : Nat) : Prop where
  call : InDequeue w.history t
  head : ∃ q, At w.history lhead q ∧ HeadFrom w q

/-- Thread `t` has taken item `a` in its present call to `dequeue`. -/
def Took (h : List Event) (t : Tid) (a : Nat) : Prop :=
  ∃ s k, Holding h t s k ∧ .segment s (.take t a k) ∈ h

/-- What a dequeue has done in segment `s`. -/
structure Inside (w : W σ) (t : Tid) (s : Nat) (l : κd) : Prop where
  ticket : ∀ k, law.headTicket l = some k → Holding w.history t s k
  held : ∀ a, spec.held l = some a → Took w.history t a

/-- At a moment of thread `t`'s present call to `dequeue`, the head tickets of the items in the
segments up to `n` were drawn. -/
def EmptiedTo (h : List Event) (t : Tid) (n : Nat) : Prop :=
  ∃ before during after q, At h n q
    ∧ h = before ++ .call t .dequeue :: (during ++ after) ∧ (∀ e ∈ during ++ after, ¬ e.Boundary t)
    ∧ ∀ u a, .retEnq u a ∈ before ++ .call t .dequeue :: during →
      ∃ s k p, Put (before ++ .call t .dequeue :: during) a s k ∧ At h s p
        ∧ (p ≤ q → Drawn (before ++ .call t .dequeue :: during) s k)

def OrderLoc (w : W σ) (t : Tid) : Local κe κd → Prop
  | .idle | .enqCasTail _ _ _ | .enqClear _ | .sizeProtectHead _ | .sizePublishHead _
  | .sizeProtectTail _ _ | .sizePublishTail _ _ | .sizeLoadTail _ _ | .sizeLoadHead _ _
  | .sizeClear _ _ => True
  | .enqLoadTail a | .enqProtect a _ | .enqReload a _ | .enqLoadNext a _ | .enqHelpTail a _ _
  | .enqDelete a _ _ => .call t (.enqueue a) ∈ w.history
  | .enqSegment a ltail l =>
      OnTail w t a ltail ∧ ∀ k, law.tailTicket l = some k → Ahead w a ltail k
  | .enqLoadStart a ltail | .enqNew a ltail _ | .enqNewSegment a ltail _ _
  | .enqCasNext a ltail _ => OnTail w t a ltail
  | .deqLoadHead => InDequeue w.history t
  | .deqProtect lhead | .deqReload lhead | .deqCasHead lhead _ => OnHead w t lhead
  | .deqSegment lhead l =>
      OnHead w t lhead ∧ Inside law w t lhead l
        ∧ (spec.emptied l = true → EmptiedTo w.history t lhead)
  | .deqLoadNext lhead => OnHead w t lhead ∧ EmptiedTo w.history t lhead
  | .deqSegmentAgain lhead _ l => OnHead w t lhead ∧ Inside law w t lhead l
  | .deqRetire _ lnext | .deqScan lnext _ => OnHead w t lnext
  | .deqClear item =>
      InDequeue w.history t ∧ (item = none → Emptied w.history t)
        ∧ ∀ a, item = some a → Took w.history t a

/-- What thread `t` relies on. -/
structure OrderRely (t : Tid) (w w' : W σ) : Prop where
  history : ∃ es, w'.history = w.history ++ es ∧ ∀ e ∈ es, ¬ e.Boundary t
  head : ∀ {q}, HeadFrom w q → HeadFrom w' q
  calls : ∀ {a b}, .call t (.enqueue b) ∈ w.history → ReturnedBefore w'.history a b →
    ReturnedBefore w.history a b

variable {law} {t : Tid} {w w' : W σ} {a s k n : Nat}

theorem OrderRely.mem (h : OrderRely t w w') {e : Event} (he : e ∈ w.history) : e ∈ w'.history := by
  obtain ⟨es, heq, -⟩ := h.history
  exact heq ▸ List.mem_append_left _ he

theorem OrderRely.put (h : OrderRely t w w') (hp : Put w.history a s k) : Put w'.history a s k := by
  obtain ⟨es, heq, -⟩ := h.history
  exact heq ▸ hp.append es

theorem OrderRely.at (h : OrderRely t w w') {p : Nat} (hs : At w.history s p) :
    At w'.history s p := by
  obtain ⟨es, heq, -⟩ := h.history
  exact heq ▸ hs.append es

theorem OrderRely.onTail (h : OrderRely t w w') (ho : OnTail w t a n) : OnTail w' t a n := by
  refine ⟨h.mem ho.call, fun b hb => ?_⟩
  obtain ⟨s, k, p, q, hp, hs, hn, hle⟩ := ho.order b (h.calls ho.call hb)
  exact ⟨s, k, p, q, h.put hp, h.at hs, h.at hn, hle⟩

theorem OrderRely.ahead (h : OrderRely t w w') (hcall : .call t (.enqueue a) ∈ w.history)
    (ha : Ahead w a n k) : Ahead w' a n k := by
  intro b hb
  obtain ⟨s, j, hp, hbefore⟩ := ha b (h.calls hcall hb)
  obtain ⟨es, heq, -⟩ := h.history
  exact ⟨s, j, h.put hp, heq ▸ hbefore.append es⟩

theorem OrderRely.inDequeue (h : OrderRely t w w') (hd : InDequeue w.history t) :
    InDequeue w'.history t := by
  obtain ⟨es, heq, hes⟩ := h.history
  exact heq ▸ hd.append hes

theorem OrderRely.holding (h : OrderRely t w w') (hd : Holding w.history t s k) :
    Holding w'.history t s k := by
  obtain ⟨es, heq, hes⟩ := h.history
  exact heq ▸ hd.append hes

theorem OrderRely.onHead (h : OrderRely t w w') (ho : OnHead w t n) : OnHead w' t n := by
  obtain ⟨q, hn, hq⟩ := ho.head
  exact ⟨h.inDequeue ho.call, q, h.at hn, h.head hq⟩

theorem OrderRely.took (h : OrderRely t w w') (ht : Took w.history t a) : Took w'.history t a := by
  obtain ⟨s, k, hd, hmem⟩ := ht
  exact ⟨s, k, h.holding hd, h.mem hmem⟩

theorem OrderRely.inside (h : OrderRely t w w') {l : κd} (hi : Inside law w t s l) :
    Inside law w' t s l :=
  ⟨fun k hk => h.holding (hi.ticket k hk), fun a ha => h.took (hi.held a ha)⟩

theorem OrderRely.emptied (h : OrderRely t w w') (he : Emptied w.history t) :
    Emptied w'.history t := by
  obtain ⟨es, heq, hes⟩ := h.history
  exact heq ▸ he.append hes

theorem OrderRely.emptiedTo (h : OrderRely t w w') (he : EmptiedTo w.history t n) :
    EmptiedTo w'.history t n := by
  obtain ⟨es, heq, hes⟩ := h.history
  obtain ⟨before, during, after, q, hn, hh, hduring, hall⟩ := he
  refine ⟨before, during, after ++ es, q, h.at hn, by simp [heq, hh], fun e he => ?_,
    fun u a ha => ?_⟩
  · rw [← List.append_assoc] at he
    exact (List.mem_append.mp he).elim (hduring e) (hes e)
  · obtain ⟨s, k, p, hp, hs, hdrawn⟩ := hall u a ha
    exact ⟨s, k, p, hp, h.at hs, hdrawn⟩

theorem OrderRely.loc {l : Local κe κd} (h : OrderRely t w w') (hl : OrderLoc law w t l) :
    OrderLoc law w' t l := by
  cases l with
  | idle | enqCasTail | enqClear | sizeProtectHead | sizePublishHead | sizeProtectTail
  | sizePublishTail | sizeLoadTail | sizeLoadHead | sizeClear => trivial
  | enqLoadTail | enqProtect | enqReload | enqLoadNext | enqHelpTail | enqDelete => exact h.mem hl
  | enqSegment => exact ⟨h.onTail hl.1, fun k hk => h.ahead hl.1.call (hl.2 k hk)⟩
  | enqLoadStart | enqNew | enqNewSegment | enqCasNext => exact h.onTail hl
  | deqLoadHead => exact h.inDequeue hl
  | deqProtect | deqReload | deqCasHead | deqRetire | deqScan => exact h.onHead hl
  | deqSegment =>
      exact ⟨h.onHead hl.1, h.inside hl.2.1, fun he => h.emptiedTo (hl.2.2 he)⟩
  | deqLoadNext => exact ⟨h.onHead hl.1, h.emptiedTo hl.2⟩
  | deqSegmentAgain => exact ⟨h.onHead hl.1, h.inside hl.2⟩
  | deqClear =>
      exact ⟨h.inDequeue hl.1, fun hi => h.emptied (hl.2.1 hi), fun a ha => h.took (hl.2.2 a ha)⟩

end Order

/-! ### Steps -/

section Steps

variable {S : SegmentType σ κe κd} {okS : Config σ (SegmentLocal κe κd) SegmentEvent → Tid → Prop}
  {spec : SegmentSpec S okS} {law : TicketSpec spec} {maxThreads : Nat} {t : Tid} {i : Input}
  {g g' : Shared σ} {h es : List Event} {l l' : Local κe κd}

variable (law) in
/-- What a step of thread `t` has to achieve. -/
def Ordered (t : Tid) (w : W σ) (g : Shared σ) (l : Local κe κd) (es : List Event) : Prop :=
  OrderGlob ⟨(), g, w.history ++ es⟩ ∧ OrderLoc law ⟨(), g, w.history ++ es⟩ t l
    ∧ ∀ u, u ≠ t → OrderRely u w ⟨(), g, w.history ++ es⟩

/-- What a step says of the order of items. -/
structure Telling (t : Tid) (w : W σ) (g : Shared σ) (es : List Event) : Prop where
  boundary : ∀ {e u}, e ∈ es → e.Boundary u → u = t
  head : ∀ {q}, HeadFrom w q → HeadFrom ⟨(), g, w.history ++ es⟩ q
  calls : ∀ {u v b}, .call u (.enqueue b) ∈ es → .call v (.enqueue b) ∉ w.history
  deposits : ∀ {s u a k}, .segment s (.deposit u a k) ∈ es → ∃ v, .call v (.enqueue a) ∈ w.history
  draws : ∀ {s u k}, .segment s (.drawHead u k) ∈ es →
    Drawn (w.history ++ es) s k ∧ ∃ q, At w.history s q ∧ HeadFrom w q

theorem Telling.rely (ht : Telling t ⟨(), g, h⟩ g' es) {u : Tid} (hu : ∀ e ∈ es, ¬ e.Boundary u) :
    OrderRely u ⟨(), g, h⟩ ⟨(), g', h ++ es⟩ :=
  ⟨⟨es, rfl, hu⟩, ht.head, fun hb hab => hab.old fun _ hcall => ht.calls hcall hb⟩

theorem Telling.ordered (ht : Telling t ⟨(), g, h⟩ g' es) (hw : OrderGlob ⟨(), g, h⟩)
    (horder : ∀ {a b m j}, ReturnedBefore h a b → Put (h ++ es) b m j →
      Put h b m j ∨ ∃ s k, Put (h ++ es) a s k ∧ PlaceBefore (h ++ es) s k m j)
    (hl : OrderLoc law ⟨(), g', h ++ es⟩ t l') : Ordered law t ⟨(), g, h⟩ g' l' es := by
  refine ⟨⟨fun hd => ?_, fun hd => ?_, fun {a b m j} hab hp => ?_⟩, hl,
    fun u hu => ht.rely fun e he hb => hu (ht.boundary he hb)⟩
  · rcases List.mem_append.mp hd with hd | hd
    · exact (hw.called hd).imp fun u hu => List.mem_append_left _ hu
    · exact (ht.deposits hd).imp fun u hu => List.mem_append_left _ hu
  · rcases List.mem_append.mp hd with hd | hd
    · obtain ⟨hdrawn, q, hs, hq⟩ := hw.drawn hd
      exact ⟨hdrawn.append es, q, hs.append es, ht.head hq⟩
    · obtain ⟨hdrawn, q, hs, hq⟩ := ht.draws hd
      exact ⟨hdrawn, q, hs.append es, ht.head hq⟩
  · have hcall : ∃ u, .call u (.enqueue b) ∈ h := by
      obtain ⟨-, u, hu⟩ := hp
      exact (List.mem_append.mp hu).elim hw.called ht.deposits
    obtain ⟨v, hv⟩ := hcall
    have hold : ReturnedBefore h a b := hab.old fun _ hc => ht.calls hc hv
    rcases horder hold hp with hp | hnew
    · obtain ⟨s, k, hpa, hbefore⟩ := hw.order hold hp
      exact ⟨s, k, hpa.append es, hbefore.append es⟩
    · exact hnew

/-- Events that do not concern the order of items. -/
def Event.Aside : Event → Prop
  | .call _ (.enqueue _) | .segment _ _ | .link _ _ => False
  | _ => True

theorem headFrom_same (hhead : g'.head = g.head) {q : Nat} (hq : HeadFrom ⟨(), g, h⟩ q) :
    HeadFrom ⟨(), g', h ++ es⟩ q := by
  obtain ⟨k, hle, hk⟩ := hq
  exact ⟨k, hle, hhead ▸ hk.append es⟩

/-- A step that does not concern the order of items. -/
theorem ordered_aside (hw : OrderGlob ⟨(), g, h⟩) (hes : ∀ e ∈ es, e.Aside)
    (hboundary : ∀ e ∈ es, ∀ u, e.Boundary u → u = t)
    (hhead : ∀ {q}, HeadFrom ⟨(), g, h⟩ q → HeadFrom ⟨(), g', h ++ es⟩ q)
    (hl : ((∀ e ∈ es, ¬ e.Boundary t) → OrderRely t ⟨(), g, h⟩ ⟨(), g', h ++ es⟩) →
      OrderLoc law ⟨(), g', h ++ es⟩ t l') : Ordered law t ⟨(), g, h⟩ g' l' es := by
  have htelling : Telling t ⟨(), g, h⟩ g' es :=
    ⟨fun he hb => hboundary _ he _ hb, hhead, fun he => absurd (hes _ he) id,
      fun he => absurd (hes _ he) id, fun he => absurd (hes _ he) id⟩
  refine htelling.ordered hw (fun {a b m j} _ hp => .inl ?_) (hl htelling.rely)
  obtain ⟨hm, u, hu⟩ := hp
  have hchain : chain (h ++ es) = chain h := by
    have hnone : es.filterMap linkedSegment = [] := List.filterMap_eq_nil_iff.mpr fun e he => by
      have haside := hes e he
      cases e <;> first | rfl | exact absurd haside id
    rw [chain_append, hnone, List.append_nil]
  exact ⟨hchain ▸ hm, u, (List.mem_append.mp hu).resolve_right fun hu => hes _ hu⟩

/-- A step that tells nothing. -/
theorem ordered_silent (hw : OrderGlob ⟨(), g, h⟩)
    (hhead : ∀ {q}, HeadFrom ⟨(), g, h⟩ q → HeadFrom ⟨(), g', h ++ []⟩ q)
    (hl : OrderRely t ⟨(), g, h⟩ ⟨(), g', h ++ []⟩ → OrderLoc law ⟨(), g', h ++ []⟩ t l') :
    Ordered law t ⟨(), g, h⟩ g' l' [] :=
  ordered_aside hw (by simp) (by simp) hhead fun hr => hl (hr (by simp))

/-- A step on segment `n`. -/
theorem ordered_segment {n : Nat} {segment : σ} {es : List SegmentEvent}
    (hw : OrderGlob ⟨(), g, h⟩)
    (hdeposits : ∀ {u a k}, .deposit u a k ∈ es → (∃ v, .call v (.enqueue a) ∈ h)
      ∧ (n ∈ chain h → Ahead ⟨(), g, h⟩ a n k))
    (hdraws : ∀ {u k}, .drawHead u k ∈ es → Drawn (h ++ es.map (.segment n)) n k
      ∧ ∃ q, At h n q ∧ HeadFrom ⟨(), g, h⟩ q)
    (hl : OrderRely t ⟨(), g, h⟩ ⟨(), g.setSegment n segment, h ++ es.map (.segment n)⟩ →
      OrderLoc law ⟨(), g.setSegment n segment, h ++ es.map (.segment n)⟩ t l') :
    Ordered law t ⟨(), g, h⟩ (g.setSegment n segment) l' (es.map (.segment n)) := by
  have hmem : ∀ {s e}, .segment s e ∈ es.map (Event.segment n) → s = n ∧ e ∈ es := fun he => by
    obtain ⟨e', he', heq⟩ := List.mem_map.mp he
    obtain ⟨rfl, rfl⟩ := Event.segment.inj heq
    exact ⟨rfl, he'⟩
  have hboundary : ∀ e ∈ es.map (Event.segment n), ∀ u, ¬ e.Boundary u := fun e he u => by
    obtain ⟨e', -, rfl⟩ := List.mem_map.mp he
    exact id
  have htelling : Telling t ⟨(), g, h⟩ (g.setSegment n segment) (es.map (.segment n)) := by
    refine
      ⟨fun he hb => absurd hb (hboundary _ he _), headFrom_same rfl, fun he => ?_, fun he => ?_,
      fun he => ?_⟩
    · obtain ⟨_, -, heq⟩ := List.mem_map.mp he
      cases heq
    · exact (hdeposits (hmem he).2).1
    · obtain ⟨rfl, hdraw⟩ := hmem he
      exact hdraws hdraw
  refine htelling.ordered hw (fun {a b m j} hab hp => ?_)
    (hl (htelling.rely fun e he => hboundary e he t))
  obtain ⟨hm, u, hu⟩ := hp
  have hchain : chain (h ++ es.map (.segment n)) = chain h := by
    rw [chain_append, filterMap_segment fun _ => rfl, List.append_nil]
  rw [hchain] at hm
  rcases List.mem_append.mp hu with hu | hu
  · exact .inl ⟨hm, u, hu⟩
  · obtain ⟨rfl, hdeposit⟩ := hmem hu
    obtain ⟨s, k, hpa, hbefore⟩ := (hdeposits hdeposit).2 hm a hab
    exact .inr ⟨s, k, hpa.append _, hbefore.append _⟩

end Steps

/-! ### In the segments -/

section Segments

variable {S : SegmentType σ κe κd} {okS : Config σ (SegmentLocal κe κd) SegmentEvent → Tid → Prop}
  {spec : SegmentSpec S okS} {law : TicketSpec spec} {c : Config (Shared σ) (Local κe κd) Event}
  {t : Tid} {a s k n : Nat}

/-- The segments of the list go through runs of their own. -/
def RunsAlone (S : SegmentType σ κe κd)
    (okS : Config σ (SegmentLocal κe κd) SegmentEvent → Tid → Prop)
    (c : Config (Shared σ) (Local κe κd) Event) : Prop :=
  ∀ s ∈ chain c.history, ∃ start,
    (segmentProgram S start).Reach (fun c t _ => okS c t) (projected s c)

variable (law) (hrun : RunsAlone S okS c)

include law hrun in
/-- An item's tail ticket was drawn. -/
theorem Put.drawTail (hp : Put c.history a s k) :
    ∃ u, .drawTail u k ∈ c.history.filterMap (segmentEvent s) := by
  obtain ⟨hs, u, hu⟩ := hp
  obtain ⟨start, hreach⟩ := hrun s hs
  exact ⟨u, law.deposited hreach (mem_segmentEvents.mpr hu)⟩

include law hrun in
/-- A dequeue has drawn the head ticket of an item that head has passed. -/
theorem Put.drawn_of_lt (hw : OrderGlob ⟨(), c.shared, c.history⟩) (hp : Put c.history a s k)
    (hlt : k < (S.base (c.shared.nodes s).segment).head) : Drawn c.history s k := by
  obtain ⟨u, hu⟩ := hp.drawTail law hrun
  obtain ⟨start, hreach⟩ := hrun s hp.1
  obtain ⟨v, hv⟩ := law.draws hreach hu hlt
  exact (hw.drawn (mem_segmentEvents.mp hv)).1

include law hrun in
theorem Put.drawn_of_drained (hw : OrderGlob ⟨(), c.shared, c.history⟩) (hp : Put c.history a s k)
    (hdrained : DrainedAt S ⟨(), c.shared, c.history⟩ s) : Drawn c.history s k := by
  obtain ⟨u, hu⟩ := hp.drawTail law hrun
  exact hp.drawn_of_lt law hrun hw (hdrained.2.2 u k hu)

include law hrun in
/-- A dequeue that finds its segment empty finds all items up to there drawn. -/
theorem OnHead.emptiedTo (now : Nat) {ld : κd} (hw : OrderGlob ⟨(), c.shared, c.history⟩)
    (hseg : SegmentGlob S ⟨(), c.shared, c.history⟩)
    (hreturned : ∀ {u a}, .retEnq u a ∈ c.history → ∃ s k p, Put c.history a s k ∧ At c.history s p)
    (hok : okS (projected n c) t) (ho : OnHead ⟨(), c.shared, c.history⟩ t n)
    (hlocal : (projected n c).locals t = .dequeue ld)
    (hold : spec.emptied ld = true → EmptiedTo c.history t n)
    (hres : (S.dequeueStep t now (c.shared.nodes n).segment ld).2.1.elim spec.emptied
      (fun r => r.isNone) = true) : EmptiedTo c.history t n := by
  obtain ⟨q, hq, qhead, hle, hhead⟩ := ho.head
  obtain ⟨start, hreach⟩ := hrun n hq.mem
  rcases law.emptied_now hreach hok hlocal hres with hemptied | hnow
  · exact hold hemptied
  obtain ⟨before, during, hh, hduring⟩ := ho.call
  have hh : c.history = before ++ .call t .dequeue :: during := hh
  refine ⟨before, during, [], q, hq, by simpa using hh, by simpa using hduring, fun u a ha => ?_⟩
  rw [← hh] at ha ⊢
  obtain ⟨s, k, p, hp, hs⟩ := hreturned ha
  refine ⟨s, k, p, hp, hs, fun hpq => ?_⟩
  rcases Nat.lt_or_eq_of_le hpq with hlt | rfl
  · exact hp.drawn_of_drained law hrun hw (hseg.passed hhead (by omega) hs)
  · obtain rfl : s = n := Option.some.inj (hs.symm.trans hq)
    obtain ⟨v, hv⟩ := hp.drawTail law hrun
    exact hp.drawn_of_lt law hrun hw (hnow v k hv)

variable {law}

/-- The item a dequeue has after a step, it had before or has just taken. -/
theorem held_step {now : Nat} {segment : σ} {ld : κd}
    (ha : (S.dequeueStep t now segment ld).2.1.elim spec.held id = some a) :
    spec.held ld = some a ∨ ∃ k, .take t a k ∈ (S.dequeueStep t now segment ld).2.2 := by
  have hevents := (spec.dequeue_events t now segment ld).1
  have hmem : (t, a) ∈ pairs t (spec.held ld)
      ++ (S.dequeueStep t now segment ld).2.2.filterMap takeOf := by
    rw [hevents, ha]
    exact List.mem_singleton_self _
  rcases List.mem_append.mp hmem with hmem | hmem
  · left
    cases hheld : spec.held ld <;> simp_all [pairs]
  · right
    obtain ⟨e, he, heq⟩ := List.mem_filterMap.mp hmem
    cases e with
    | take u b k =>
        obtain ⟨rfl, rfl⟩ : u = t ∧ b = a := by simpa [takeOf] using heq
        exact ⟨k, he⟩
    | _ => cases heq

/-- A step of a dequeue in segment `n`. -/
theorem Inside.step (now : Nat) (segment : σ) (g' : Shared σ) {ld : κd} {w : W σ}
    (hi : Inside law w t n ld) (hd : InDequeue w.history t) :
    let h' := w.history ++ ((S.dequeueStep t now segment ld).2.2).map (Event.segment n)
    (∀ ld', (S.dequeueStep t now segment ld).2.1 = .inl ld' → Inside law ⟨(), g', h'⟩ t n ld')
      ∧ ∀ a, (S.dequeueStep t now segment ld).2.1 = .inr (some a) → Took h' t a := by
  intro h'
  have hes : ∀ e ∈ ((S.dequeueStep t now segment ld).2.2).map (Event.segment n), ¬ e.Boundary t :=
    fun e he => by
      obtain ⟨e', -, rfl⟩ := List.mem_map.mp he
      exact id
  have htook : ∀ a, (S.dequeueStep t now segment ld).2.1.elim spec.held id = some a →
      Took h' t a := fun a ha => by
    rcases held_step ha with hheld | ⟨k, hk⟩
    · obtain ⟨s, k, hhold, hmem⟩ := hi.held a hheld
      exact ⟨s, k, hhold.append hes, List.mem_append_left _ hmem⟩
    · exact ⟨n, k, (hi.ticket k (law.dequeue_take hk)).append hes,
        List.mem_append_right _ (List.mem_map_of_mem hk)⟩
  refine ⟨fun ld' hres => ⟨fun k hk => ?_, fun a ha => htook a (by rw [hres]; exact ha)⟩,
    fun a hres => htook a (by rw [hres]; rfl)⟩
  rcases law.dequeue_ticket hres hk with hold | hdraw
  · exact (hi.ticket k hold).append hes
  · exact hd.holding hes (List.mem_map_of_mem hdraw)

/-- A ticket that an enqueue draws is behind those of the items before. -/
theorem OnTail.ahead {u : Tid} {es : List SegmentEvent} {item : Nat} (law : TicketSpec spec)
    (hrun : RunsAlone S okS c)
    (ho : OnTail ⟨(), c.shared, c.history⟩ t item n)
    (hgrows : ∀ {v j}, .drawTail v j ∈ c.history.filterMap (segmentEvent n) → .drawTail u k ∈ es →
      j < k) (hk : .drawTail u k ∈ es) : Ahead ⟨(), c.shared, c.history⟩ item n k := by
  intro b hb
  obtain ⟨s, j, p, q, hp, hs, hn, hle⟩ := ho.order b hb
  refine ⟨s, j, hp, p, q, hs, hn, ?_⟩
  rcases Nat.lt_or_eq_of_le hle with hlt | rfl
  · exact .inl hlt
  · obtain rfl : s = n := Option.some.inj (hs.symm.trans hn)
    obtain ⟨v, hv⟩ := hp.drawTail law hrun
    exact .inr ⟨rfl, hgrows hv hk⟩

end Segments

section Config

variable {S : SegmentType σ κe κd} {okS : Config σ (SegmentLocal κe κd) SegmentEvent → Tid → Prop}
  {spec : SegmentSpec S okS} {law : TicketSpec spec} {maxThreads : Nat} {t : Tid} {i : Input}
  {c : Config (Shared σ) (Local κe κd) Event} {g' : Shared σ} {l' : Local κe κd} {es : List Event}

theorem mem_calledItems {h : List Event} {u : Tid} {a : Nat} (hu : .call u (.enqueue a) ∈ h) :
    a ∈ calledItems h :=
  List.mem_map.mpr ⟨(u, a), List.mem_filterMap.mpr ⟨_, hu, rfl⟩, rfl⟩

/-- An enqueue that finds its segment the last has all items before it there or earlier. -/
theorem onTail_of_last (hchain : Glob ⟨(), c.shared, c.history⟩)
    (hreturned : ∀ {u a}, .retEnq u a ∈ c.history → ∃ s k p, Put c.history a s k ∧ At c.history s p)
    {item n q : Nat} (hcall : .call t (.enqueue item) ∈ c.history) (hn : At c.history n q)
    (hlast : (c.shared.nodes n).next = none) : OnTail ⟨(), c.shared, c.history⟩ t item n := by
  refine ⟨hcall, fun b ⟨before, u, v, hle, hmem⟩ => ?_⟩
  obtain ⟨s, k, p, hp, hs⟩ := hreturned (hle.subset (List.mem_append_left _ hmem))
  have hlength : (chain c.history).length = q + 1 := hchain.linked.length_of_next_none hn hlast
  have hlt : p < (chain c.history).length := (List.getElem?_eq_some_iff.mp hs).1
  exact ⟨s, k, p, q, hp, hs, hn, by omega⟩

/-- The segment an enqueue has filled and linked lies behind all the others. -/
theorem ordered_link {item n m : Nat} (hw : OrderGlob ⟨(), c.shared, c.history⟩)
    (hchain' : Glob ⟨(), c.shared.setNext n (some m), c.history ++ [.link t m]⟩)
    (ho : OnTail ⟨(), c.shared, c.history⟩ t item n)
    (hfill : Filling ⟨(), c.shared, c.history⟩ t m (some item))
    (hlink : Linking ⟨(), c.shared.setNext n (some m), c.history ++ [.link t m]⟩ n m) :
    Ordered law t ⟨(), c.shared, c.history⟩ (c.shared.setNext n (some m))
      (.enqCasTail item n m) [.link t m] := by
  have htelling : Telling t ⟨(), c.shared, c.history⟩ (c.shared.setNext n (some m)) [.link t m] :=
    ⟨fun he hb => by simp_all [Event.Boundary], headFrom_same rfl, by simp, by simp, by simp⟩
  refine htelling.ordered hw (fun {a b s j} hab hp => ?_) trivial
  obtain ⟨hs, u, hu⟩ := hp
  have hold : .segment s (.deposit u b j) ∈ c.history := by simpa using hu
  have hs : s ∈ chain c.history ∨ s = m := by simpa [chain, linkedSegment, or_assoc] using hs
  rcases hs with hs | rfl
  · exact .inl ⟨hs, u, hold⟩
  right
  have hpair : (u, b) ∈ (c.history.filterMap (segmentEvent s)).filterMap depositOf :=
    List.mem_filterMap.mpr ⟨.deposit u b j, mem_segmentEvents.mpr hold, rfl⟩
  rw [show (c.history.filterMap (segmentEvent s)).filterMap depositOf = _ from hfill.deposits]
    at hpair
  obtain ⟨rfl, rfl⟩ : u = t ∧ b = item := by simpa [pairs] using hpair
  obtain ⟨s', k, p, q, hpa, hs', hn, hle⟩ := ho.order a hab
  obtain ⟨q', hn', hm⟩ := hlink
  obtain rfl : q' = q := hchain'.linked.index_unique hn' (hn.append _)
  exact ⟨s', k, hpa.append _, p, q' + 1, hs'.append _, hm, .inl (Nat.lt_succ_of_le hle)⟩

/-- A step of an enqueue in the last segment. -/
theorem ordered_enqSegment {item n : Nat} {le : κe} (hw : OrderGlob ⟨(), c.shared, c.history⟩)
    (hl : OrderLoc law ⟨(), c.shared, c.history⟩ t (.enqSegment item n le : Local κe κd))
    (hmem : n ∈ chain c.history) (hlocal : c.locals t = .enqSegment item n le)
    (hrun : RunsAlone S okS c) (hokS : ∀ s, okS (projected s c) t) :
    Leads (Ordered law t ⟨(), c.shared, c.history⟩)
      (step S maxThreads t i c.shared (.enqSegment item n le)) := by
  obtain ⟨ho, hahead⟩ := hl
  have hinside : (projected n c).locals t = .enqueue item le := by
    simp [projected, hlocal, Local.inSegment]
  obtain ⟨start, hreach⟩ := hrun n hmem
  obtain ⟨s₁, l₁, hsegment⟩ : ∃ s₁ l₁, segmentStep S t { ts := i.ts } (projected n c).shared
      ((projected n c).locals t)
      = some (s₁, l₁, (S.enqueueStep t i.ts item (c.shared.nodes n).segment le).2.2) := by
    rw [hinside]
    exact ⟨_, _, rfl⟩
  refine .into <| ordered_segment hw (fun hd => ?_) (fun hd => absurd hd law.enqueue_drawHead)
    fun hr => ?_
  · obtain ⟨rfl, hk⟩ := law.enqueue_deposit hd
    exact ⟨⟨t, ho.call⟩, fun _ => hahead _ hk⟩
  · cases hres : (S.enqueueStep t i.ts item (c.shared.nodes n).segment le).2.1 with
    | inl le' =>
        refine ⟨hr.onTail ho, fun k hk => ?_⟩
        rcases law.enqueue_ticket hres hk with hold | hdraw
        · exact hr.ahead ho.call (hahead k hold)
        · exact hr.ahead ho.call (ho.ahead law hrun
            (fun hv hu => law.tail_grows hreach (hokS n) hsegment hu hv) hdraw)
    | inr b =>
        cases b with
        | true => trivial
        | false => exact hr.onTail ho

/-- A step of a dequeue in segment `n`, after which it goes on at `next`. -/
theorem ordered_dequeue {n : Nat} {ld : κd} {next : κd ⊕ Option Nat → Local κe κd}
    (hw : OrderGlob ⟨(), c.shared, c.history⟩) (ho : OnHead ⟨(), c.shared, c.history⟩ t n)
    (hl : OrderRely t ⟨(), c.shared, c.history⟩
        ⟨(), c.shared.setSegment n (S.dequeueStep t i.ts (c.shared.nodes n).segment ld).1,
          c.history ++ ((S.dequeueStep t i.ts (c.shared.nodes n).segment ld).2.2).map
            (.segment n)⟩ →
      OrderLoc law
        ⟨(), c.shared.setSegment n (S.dequeueStep t i.ts (c.shared.nodes n).segment ld).1,
          c.history ++ ((S.dequeueStep t i.ts (c.shared.nodes n).segment ld).2.2).map
            (.segment n)⟩ t
        (next (S.dequeueStep t i.ts (c.shared.nodes n).segment ld).2.1)) :
    Leads (Ordered law t ⟨(), c.shared, c.history⟩)
      (some (dequeueStep S t i c.shared n ld next)) := by
  refine .into <| ordered_segment hw (fun hd => ?_) (fun {u k} hd => ?_) hl
  · have hnone : depositOf _ = none :=
      List.filterMap_eq_nil_iff.mp (spec.dequeue_events t i.ts _ ld).2 _ hd
    cases hnone
  · obtain rfl := law.dequeue_drawHead hd
    refine ⟨(ho.call.holding (fun e he => ?_) (List.mem_map_of_mem hd)).drawn, ho.head⟩
    obtain ⟨e', -, rfl⟩ := List.mem_map.mp he
    exact id

theorem headFrom_head (hchain : Glob ⟨(), c.shared, c.history⟩) :
    ∃ q, At c.history c.shared.head q ∧ HeadFrom ⟨(), c.shared, c.history⟩ q := by
  obtain ⟨q, hq⟩ := hchain.head
  exact ⟨q, hq, q, Nat.le_refl q, hq⟩

theorem inside_start (law : TicketSpec spec) (w : W σ) (n : Nat) : Inside law w t n S.dequeue :=
  ⟨fun k hk => by simp [law.dequeue_start] at hk, fun a ha => by simp [spec.dequeue_start.1] at ha⟩

theorem orderLoc_afterScan {w : W σ} {lnext : Nat} (ho : OnHead w t lnext)
    (scan : Option HazardPointers.Scan) :
    OrderLoc law w t (afterScan lnext scan : Local κe κd) := by
  cases scan <;> exact ho

/-- A dequeue that finds no segment behind its own, which was empty, has seen the queue empty. -/
theorem EmptiedTo.emptied (hchain : Glob ⟨(), c.shared, c.history⟩) {n : Nat}
    (he : EmptiedTo c.history t n) (hlast : (c.shared.nodes n).next = none) :
    Emptied c.history t := by
  obtain ⟨before, during, after, q, hn, hh, hduring, hall⟩ := he
  refine ⟨before, during, after, hh, hduring, fun u a ha => ?_⟩
  obtain ⟨s, k, p, hp, hs, hdrawn⟩ := hall u a ha
  have hlength : (chain c.history).length = q + 1 := hchain.linked.length_of_next_none hn hlast
  have hlt : p < (chain c.history).length := (List.getElem?_eq_some_iff.mp hs).1
  exact ⟨s, k, hp, hdrawn (by omega)⟩

/-! One lemma for each control state with more than one way on. -/

section States

variable (hw : OrderGlob ⟨(), c.shared, c.history⟩)

include hw

theorem idle_ordered (hitem : ∀ a, i.op = some (.enqueue a) → a ∉ calledItems c.history) :
    Leads (Ordered law t ⟨(), c.shared, c.history⟩) (step S maxThreads t i c.shared .idle) := by
  refine .map fun op hop => ?_
  cases op with
  | enqueue a =>
      have htelling : Telling t ⟨(), c.shared, c.history⟩ c.shared [.call t (.enqueue a)] := by
        refine ⟨fun he hb => ?_, headFrom_same rfl, fun {u v b} he hv => ?_, by simp, by simp⟩
        · obtain rfl := List.mem_singleton.mp he
          exact hb.symm
        · obtain ⟨-, rfl⟩ : u = t ∧ b = a := by simpa using he
          exact hitem b hop (mem_calledItems hv)
      refine htelling.ordered hw (fun _ ⟨hm, u, hu⟩ => .inl ⟨?_, u, by simpa using hu⟩) ?_
      · simpa [chain, linkedSegment] using hm
      · exact List.mem_append_right _ (List.mem_singleton_self _)
  | dequeue =>
      exact ordered_aside hw (by simp [Event.Aside]) (by simp [Event.Boundary])
        (headFrom_same rfl) fun _ => ⟨c.history, [], rfl, by simp⟩
  | estimateSize =>
      exact ordered_aside hw (by simp [Event.Aside]) (by simp [Event.Boundary])
        (headFrom_same rfl) fun _ => trivial

theorem enqLoadNext_ordered {item n : Nat} (hchain : Glob ⟨(), c.shared, c.history⟩)
    (hloc : Loc ⟨(), c.shared, c.history⟩ t (.enqLoadNext item n : Local κe κd))
    (hreturned : ∀ {u a}, .retEnq u a ∈ c.history → ∃ s k p, Put c.history a s k ∧ At c.history s p)
    (hl : OrderLoc law ⟨(), c.shared, c.history⟩ t (.enqLoadNext item n : Local κe κd)) :
    Leads (Ordered law t ⟨(), c.shared, c.history⟩)
      (step S maxThreads t i c.shared (.enqLoadNext item n)) := by
  simp only [step]
  split
  · exact .into <| ordered_silent hw (headFrom_same rfl) fun hr => hr.mem hl
  · rename_i hnone
    obtain ⟨q, hq⟩ := hloc
    exact .into <| ordered_silent hw (headFrom_same rfl) fun hr =>
      ⟨hr.onTail (onTail_of_last hchain hreturned hl hq hnone),
        fun k hk => by simp [law.enqueue_start] at hk⟩

/-- A step in a segment that is not in the list yet. -/
theorem enqNewSegment_ordered {item n m : Nat} {le : κe}
    (hloc : Loc ⟨(), c.shared, c.history⟩ t (.enqNewSegment item n m le : Local κe κd))
    (hl : OrderLoc law ⟨(), c.shared, c.history⟩ t (.enqNewSegment item n m le : Local κe κd)) :
    Leads (Ordered law t ⟨(), c.shared, c.history⟩)
      (step S maxThreads t i c.shared (.enqNewSegment item n m le)) := by
  refine .into <| ordered_segment hw (fun hd => ?_) (fun hd => absurd hd law.enqueue_drawHead)
    fun hr => ?_
  · obtain ⟨rfl, -⟩ := law.enqueue_deposit hd
    exact ⟨⟨t, hl.call⟩, fun hm => absurd hm hloc.2.notMem⟩
  · dsimp only
    split <;> exact hr.onTail hl

theorem deqReload_ordered {n : Nat} (hchain : Glob ⟨(), c.shared, c.history⟩)
    (hl : OnHead ⟨(), c.shared, c.history⟩ t n) :
    Leads (Ordered law t ⟨(), c.shared, c.history⟩)
      (step S maxThreads t i c.shared (.deqReload n)) := by
  refine .ite (fun _ => .into ?_) fun _ => .into ?_
  · exact ordered_silent hw (headFrom_same rfl) fun hr =>
      hr.onHead ⟨hl.call, headFrom_head hchain⟩
  · exact ordered_silent hw (headFrom_same rfl) fun hr =>
      ⟨hr.onHead hl, inside_start law _ n, by simp [spec.dequeue_start.2]⟩

/-- The first try of a dequeue in segment `n`; if it fails, the segments up to there were empty. -/
theorem deqSegment_ordered {n : Nat} {ld : κd}
    (hl : OrderLoc law ⟨(), c.shared, c.history⟩ t (.deqSegment n ld : Local κe κd))
    (hnow : (S.dequeueStep t i.ts (c.shared.nodes n).segment ld).2.1.elim spec.emptied
      (fun r => r.isNone) = true → EmptiedTo c.history t n) :
    Leads (Ordered law t ⟨(), c.shared, c.history⟩)
      (step S maxThreads t i c.shared (.deqSegment n ld)) := by
  obtain ⟨ho, hinside, -⟩ := hl
  refine ordered_dequeue hw ho fun hr => ?_
  obtain ⟨hgoes, htook⟩ := hinside.step i.ts (c.shared.nodes n).segment
    (c.shared.setSegment n (S.dequeueStep t i.ts (c.shared.nodes n).segment ld).1) ho.call
  cases hres : (S.dequeueStep t i.ts (c.shared.nodes n).segment ld).2.1 with
  | inl ld' => exact ⟨hr.onHead ho, hgoes ld' hres, fun he => hr.emptiedTo (hnow (by rwa [hres]))⟩
  | inr item =>
      cases item with
      | some a =>
          exact ⟨hr.inDequeue ho.call, by simp, fun b hb => Option.some.inj hb ▸ htook a hres⟩
      | none => exact ⟨hr.onHead ho, hr.emptiedTo (hnow (by rw [hres]; rfl))⟩

theorem deqLoadNext_ordered {n : Nat} (hchain : Glob ⟨(), c.shared, c.history⟩)
    (hl : OrderLoc law ⟨(), c.shared, c.history⟩ t (.deqLoadNext n : Local κe κd)) :
    Leads (Ordered law t ⟨(), c.shared, c.history⟩)
      (step S maxThreads t i c.shared (.deqLoadNext n)) := by
  obtain ⟨ho, he⟩ := hl
  simp only [step]
  split
  · rename_i hnone
    exact .into <| ordered_silent hw (headFrom_same rfl) fun hr =>
      ⟨hr.inDequeue ho.call, fun _ => hr.emptied (he.emptied hchain hnone), by simp⟩
  · exact .into <| ordered_silent hw (headFrom_same rfl) fun hr =>
      ⟨hr.onHead ho, inside_start law _ n⟩

theorem deqSegmentAgain_ordered {n m : Nat} {ld : κd}
    (hl : OrderLoc law ⟨(), c.shared, c.history⟩ t (.deqSegmentAgain n m ld : Local κe κd)) :
    Leads (Ordered law t ⟨(), c.shared, c.history⟩)
      (step S maxThreads t i c.shared (.deqSegmentAgain n m ld)) := by
  obtain ⟨ho, hinside⟩ := hl
  refine ordered_dequeue hw ho fun hr => ?_
  obtain ⟨hgoes, htook⟩ := hinside.step i.ts (c.shared.nodes n).segment
    (c.shared.setSegment n (S.dequeueStep t i.ts (c.shared.nodes n).segment ld).1) ho.call
  cases hres : (S.dequeueStep t i.ts (c.shared.nodes n).segment ld).2.1 with
  | inl ld' => exact ⟨hr.onHead ho, hgoes ld' hres⟩
  | inr item =>
      cases item with
      | some a =>
          exact ⟨hr.inDequeue ho.call, by simp, fun b hb => Option.some.inj hb ▸ htook a hres⟩
      | none => exact hr.onHead ho

/-- `head` moves one segment on. -/
theorem deqCasHead_ordered {n m : Nat} (hchain : Glob ⟨(), c.shared, c.history⟩)
    (hloc : Loc ⟨(), c.shared, c.history⟩ t (.deqCasHead n m : Local κe κd))
    (hl : OnHead ⟨(), c.shared, c.history⟩ t n) :
    Leads (Ordered law t ⟨(), c.shared, c.history⟩)
      (step S maxThreads t i c.shared (.deqCasHead n m)) := by
  refine .ite (fun hhead => .into ?_) fun _ => .into ?_
  · obtain ⟨q, hn, hm⟩ := hloc
    refine ordered_silent hw (fun {p} hp => ?_) fun hr => ⟨hr.inDequeue hl.call, q + 1,
      hr.at hm, q + 1, Nat.le_refl _, hr.at hm⟩
    obtain ⟨k, hle, hk⟩ := hp
    obtain rfl : k = q := hchain.linked.index_unique hk (hhead ▸ hn)
    exact ⟨k + 1, Nat.le_succ_of_le hle, hm.append _⟩
  · exact ordered_silent hw (headFrom_same rfl) fun hr =>
      hr.onHead ⟨hl.call, headFrom_head hchain⟩

end States

/-- **What a step does to the order of items.** -/
theorem step_ordered (hw : OrderGlob ⟨(), c.shared, c.history⟩)
    (hl : OrderLoc law ⟨(), c.shared, c.history⟩ t (c.locals t))
    (hchain : Glob ⟨(), c.shared, c.history⟩)
    (hloc : Loc ⟨(), c.shared, c.history⟩ t (c.locals t))
    (hchain' : Glob ⟨(), g', c.history ++ es⟩) (hloc' : Loc ⟨(), g', c.history ++ es⟩ t l')
    (hseg : SegmentGlob S ⟨(), c.shared, c.history⟩)
    (hstage : Stage spec ⟨(), c.shared, c.history⟩ t (c.locals t))
    (hreturned : ∀ {u a}, .retEnq u a ∈ c.history → ∃ s k p, Put c.history a s k ∧ At c.history s p)
    (hrun : RunsAlone S okS c) (hokS : ∀ s, okS (projected s c) t) (hitem : FreshItem c t i)
    (hstep : step S maxThreads t i c.shared (c.locals t) = some (g', l', es)) :
    Ordered law t ⟨(), c.shared, c.history⟩ g' l' es := by
  rcases hlocal : c.locals t
  all_goals rw [hlocal] at hl hloc hstage hstep
  case idle => exact (idle_ordered hw (hitem hlocal)).of_some hstep
  case enqLoadTail item | enqProtect item n | enqDelete item m n =>
      refine Leads.of_some hstep (.into ?_)
      exact ordered_silent hw (headFrom_same rfl) fun hr => hr.mem hl
  case enqReload item n | enqHelpTail item n m =>
      refine Leads.of_some hstep (.ite (fun _ => .into ?_) fun _ => .into ?_) <;>
        exact ordered_silent hw (headFrom_same rfl) fun hr => hr.mem hl
  case enqLoadNext item n =>
      exact (enqLoadNext_ordered hw hchain hloc hreturned hl).of_some hstep
  case enqSegment item n le =>
      obtain ⟨q, hq⟩ := hloc
      exact (ordered_enqSegment hw hl (At.mem hq) hlocal hrun hokS).of_some hstep
  case enqLoadStart item n =>
      refine Leads.of_some hstep (.into ?_)
      exact ordered_silent hw (headFrom_same rfl) fun hr => hr.onTail hl
  case enqNew item n start =>
      refine Leads.of_some hstep (.ite (fun _ => .into ?_) fun _ => .nowhere)
      exact ordered_aside hw (by simp [Event.Aside]) (by simp [Event.Boundary]) (headFrom_same rfl)
        fun hr => (hr (by simp [Event.Boundary])).onTail hl
  case enqNewSegment item n m le => exact (enqNewSegment_ordered hw hloc hl).of_some hstep
  case enqCasNext item n m =>
      simp only [step] at hstep
      split at hstep <;> cases hstep
      · exact ordered_link hw hchain' hl hstage.2 hloc'
      · exact ordered_silent hw (headFrom_same rfl) fun hr => hr.mem hl.call
  case enqCasTail item n m =>
      refine Leads.of_some hstep (.into <| ordered_silent hw (headFrom_same ?_) fun _ => trivial)
      split <;> rfl
  case enqClear item | deqClear item =>
      refine Leads.of_some hstep (.into ?_)
      exact ordered_aside hw (by simp [Event.Aside]) (by simp [Event.Boundary]) (headFrom_same rfl)
        fun _ => trivial
  case deqLoadHead =>
      refine Leads.of_some hstep (.into ?_)
      exact ordered_silent hw (headFrom_same rfl) fun hr =>
        hr.onHead ⟨hl, headFrom_head hchain⟩
  case deqProtect n =>
      refine Leads.of_some hstep (.into ?_)
      exact ordered_silent hw (headFrom_same rfl) fun hr => hr.onHead hl
  case deqReload n => exact (deqReload_ordered hw hchain hl).of_some hstep
  case deqSegment n ld =>
      have hat : (projected n c).locals t = .dequeue ld := by
        simp [projected, hlocal, Local.inSegment]
      refine (deqSegment_ordered hw hl ?_).of_some hstep
      exact hl.1.emptiedTo law hrun i.ts hw hseg hreturned (hokS n) hat hl.2.2
  case deqLoadNext n => exact (deqLoadNext_ordered hw hchain hl).of_some hstep
  case deqSegmentAgain n m ld => exact (deqSegmentAgain_ordered hw hl).of_some hstep
  case deqCasHead n m => exact (deqCasHead_ordered hw hchain hloc hl).of_some hstep
  case deqRetire n m =>
      refine Leads.of_some hstep (.into ?_)
      exact ordered_silent hw (headFrom_same rfl) fun hr => orderLoc_afterScan (hr.onHead hl) _
  case deqScan m scan =>
      refine Leads.of_some hstep (.into ?_)
      exact ordered_silent hw (headFrom_same (by cases scan <;> rfl)) fun hr =>
        orderLoc_afterScan (hr.onHead hl) _
  case sizeProtectHead n | sizeProtectTail n m =>
      refine Leads.of_some hstep (.ite (fun _ => .into ?_) fun _ => .into ?_) <;>
        exact ordered_silent hw (headFrom_same rfl) fun _ => trivial
  case sizePublishHead n | sizePublishTail n m | sizeLoadTail n m | sizeLoadHead n m =>
      refine Leads.of_some hstep (.into ?_)
      exact ordered_silent hw (headFrom_same rfl) fun _ => trivial
  case sizeClear ihp size =>
      refine Leads.of_some hstep (.ite (fun _ => .into ?_) fun _ => .into ?_)
      · exact ordered_silent hw (headFrom_same rfl) fun _ => trivial
      · exact ordered_aside hw (by simp [Event.Aside]) (by simp [Event.Boundary])
          (headFrom_same rfl) fun _ => trivial

end Config

/-! ### Runs -/

section Results

variable {S : SegmentType σ κe κd} {okS : Config σ (SegmentLocal κe κd) SegmentEvent → Tid → Prop}
  {spec : SegmentSpec S okS} {maxThreads : Nat} {c : Config (Shared σ) (Local κe κd) Event}
  {t : Tid} {a b s s' k k' : Nat}

/-- Addresses and items are not used again. -/
abbrev Proper (okS : Config σ (SegmentLocal κe κd) SegmentEvent → Tid → Prop)
    (c : Config (Shared σ) (Local κe κd) Event) (t : Tid) (i : Input) : Prop :=
  Orderly okS c t i ∧ FreshItem c t i

theorem Reach.orderly (h : (program S maxThreads).Reach (Proper okS) c) :
    (program S maxThreads).Reach (Orderly okS) c :=
  h.mono fun _ _ _ hc => hc.1

theorem mem_inChain {f : SegmentEvent → Option (Tid × Nat)} {h : List Event} {x : Tid × Nat} :
    x ∈ inChain f h ↔ ∃ s ∈ chain h, ∃ e, .segment s e ∈ h ∧ f e = some x := by
  simp only [inChain, List.mem_flatMap, List.mem_filterMap (f := f), mem_segmentEvents]

variable (spec)

include spec in
/-- An item whose enqueue has returned is in a segment of the list. -/
theorem Reach.returned_put (h : (program S maxThreads).Reach (Orderly okS) c)
    (hret : .retEnq t a ∈ c.history) : ∃ s k p, Put c.history a s k ∧ At c.history s p := by
  obtain ⟨-, hl⟩ := Reach.segments spec h
  have hfinished : (t, a) ∈ c.history.filterMap finishedOf :=
    List.mem_filterMap.mpr ⟨.retEnq t a, hret, rfl⟩
  have hcount : 0 < (inChain depositOf c.history).count (t, a) := by
    rw [(hl t).account.put a]
    exact Nat.add_pos_left (List.count_pos_iff.mpr hfinished) _
  obtain ⟨s, hs, e, he, heq⟩ := mem_inChain.mp (List.count_pos_iff.mp hcount)
  obtain ⟨p, hp⟩ := List.mem_iff_getElem?.mp hs
  cases e with
  | deposit u b k =>
      obtain ⟨rfl, rfl⟩ : u = t ∧ b = a := by simpa [depositOf] using heq
      exact ⟨s, k, p, ⟨hs, u, he⟩, hp⟩
  | _ => cases heq

theorem eq_of_nodup_filterMap {β γ : Type} {f : β → Option γ} {l : List β} {x y : β} {z : γ}
    (hnodup : (l.filterMap f).Nodup) (hx : x ∈ l) (hy : y ∈ l) (hfx : f x = some z)
    (hfy : f y = some z) : x = y := by
  by_contra hne
  have hpairs := List.pairwise_filterMap.mp hnodup
  have hsymm : Std.Symm fun x y : β => ∀ b, f x = some b → ∀ b', f y = some b' → b ≠ b' :=
    ⟨fun _ _ h b hb b' hb' => (h b' hb' b hb).symm⟩
  exact hpairs.forall hx hy hne z hfx z hfy rfl

include spec in
/-- An item is put in the list once. -/
theorem Reach.put_unique (h : (program S maxThreads).Reach (Proper okS) c)
    (hp : Put c.history a s k) (hp' : Put c.history a s' k') : s = s' ∧ k = k' := by
  obtain ⟨items, hperm, hsub⟩ := subperm_map (Reach.deposited_subperm spec (Reach.orderly h))
  have hnodup : ((inChain depositOf c.history).map Prod.snd).Nodup := hperm.nodup_iff.mp
    ((Reach.called_nodup (fun _ _ _ hc => hc.2) h).sublist hsub)
  rw [inChain, List.map_flatMap, List.nodup_flatMap] at hnodup
  obtain ⟨hs, t, ht⟩ := hp
  obtain ⟨hs', t', ht'⟩ := hp'
  have hmem : ∀ {s t k}, .segment s (.deposit t a k) ∈ c.history →
      a ∈ ((c.history.filterMap (segmentEvent s)).filterMap depositOf).map Prod.snd :=
    fun {s t k} ht => List.mem_map.mpr
      ⟨(t, a), List.mem_filterMap.mpr ⟨.deposit t a k, mem_segmentEvents.mpr ht, rfl⟩, rfl⟩
  have hsymm : Std.Symm (Function.onFun List.Disjoint fun s =>
      ((c.history.filterMap (segmentEvent s)).filterMap depositOf).map Prod.snd) :=
    ⟨fun _ _ hdisjoint _ hx hy => hdisjoint hy hx⟩
  obtain rfl : s = s' := by
    by_contra hne
    exact hnodup.2.forall hs hs' hne (hmem ht) (hmem ht')
  have honce := hnodup.1 s hs
  rw [List.map_filterMap] at honce
  have heq := eq_of_nodup_filterMap honce (mem_segmentEvents.mpr ht) (mem_segmentEvents.mpr ht')
    (z := a) rfl rfl
  exact ⟨rfl, (SegmentEvent.deposit.inj heq).2.2⟩

variable {spec}

/-- The order of items, as a rely-guarantee proof. -/
def orderInvariant (law : TicketSpec spec) (maxThreads : Nat) :
    RelyGuarantee (program S maxThreads)
      (fun c t i => (program S maxThreads).Reach (Proper okS) c ∧ Proper okS c t i) Unit where
  glob := OrderGlob
  loc := OrderLoc law
  rely := OrderRely
  init := ⟨(), ⟨fun hd => absurd hd List.not_mem_nil, fun hd => absurd hd List.not_mem_nil,
    fun _ hp => absurd hp.2.choose_spec List.not_mem_nil⟩, fun _ => trivial⟩
  stable h hl := h.loc hl
  step {x c t i g l es} hok hw hl hstep := by
    obtain ⟨hreach, ⟨hfresh, hokS⟩, hitem⟩ := hok
    have horderly := Reach.orderly hreach
    obtain ⟨hchain, hloc⟩ := Reach.chained (fun _ _ _ hc => hc.1) horderly
    obtain ⟨hseg, hsegloc⟩ := Reach.segments spec horderly
    obtain ⟨hchain', hloc', -⟩ := step_preserved hchain (hloc t) hfresh hstep
    have hrun : RunsAlone S okS c := fun s hs =>
      Reach.segment (fun _ _ _ hc => hc) (fun _ _ => spec.ok_idle) horderly (hchain.known s hs)
    exact ⟨(), step_ordered hw (hl t) hchain (hloc t) hchain' hloc' hseg (hsegloc t).stage
      (Reach.returned_put spec horderly) hrun hokS hitem hstep⟩

theorem Reach.ordered (law : TicketSpec spec) (h : (program S maxThreads).Reach (Proper okS) c) :
    OrderGlob ⟨(), c.shared, c.history⟩
      ∧ ∀ t, OrderLoc law ⟨(), c.shared, c.history⟩ t (c.locals t) := by
  obtain ⟨_, hc⟩ := (orderInvariant law maxThreads).holds h.along
  exact hc

/-- Where an item is whose enqueue has returned: it was returned by a dequeue, or its head ticket is
held by a dequeue in progress, or nobody has drawn that ticket and the item lies in its cell, in a
segment reachable from `head`. -/
def Kept (holds : σ → Nat → Nat → Prop) (c : Config (Shared σ) (Local κe κd) Event) (a : Nat) :
    Prop :=
  (∃ t, .retDeq t (some a) ∈ c.history)
  ∨ ∃ s k, Put c.history a s k
    ∧ ((∃ t, Holding c.history t s k
        ∧ (holds (c.shared.nodes s).segment k a ∨ .segment s (.take t a k) ∈ c.history))
      ∨ holds (c.shared.nodes s).segment k a ∧ (∀ t, .segment s (.drawHead t k) ∉ c.history)
        ∧ ∃ segments, Path (nextPtr c.shared) (some c.shared.head) segments ∧ s ∈ segments)

/-- What makes a ring queue a first-in first-out queue. -/
structure Fifo (holds : σ → Nat → Nat → Prop) (c : Config (Shared σ) (Local κe κd) Event) :
    Prop where
  items : ∀ {before after t a}, c.history = before ++ .retDeq t (some a) :: after →
    ∃ u, .call u (.enqueue a) ∈ before
  once : (returnedItems c.history).Nodup
  place : ∀ {a s s' k k'}, Put c.history a s k → Put c.history a s' k' → s = s' ∧ k = k'
  order : ∀ {before after t a b}, c.history = before ++ .retDeq t (some b) :: after →
    ReturnedBefore c.history a b → ∃ s k, Put before a s k ∧ Drawn before s k
  empty : ∀ {before after t}, c.history = before ++ .retDeq t none :: after → Emptied before t
  kept : ∀ {t a}, .retEnq t a ∈ c.history → Kept holds c a

/-- Only the last step of `dequeue` returns from it, and it tells nothing else. -/
theorem deqClear_of_return {i : Input} {g g' : Shared σ} {l l' : Local κe κd} {es : List Event}
    {u : Tid} {item : Option Nat} (hstep : step S maxThreads t i g l = some (g', l', es))
    (hmem : .retDeq u item ∈ es) : u = t ∧ l = .deqClear item ∧ es = [.retDeq t item] := by
  cases step_tells hstep with
  | @retDeq x =>
      obtain ⟨rfl, rfl⟩ : u = t ∧ item = x := by simpa using hmem
      exact ⟨rfl, rfl, rfl⟩
  | _ => simp at hmem

/-- A call to enqueue is the only event of its step. -/
theorem idle_of_call {i : Input} {g g' : Shared σ} {l l' : Local κe κd} {es : List Event}
    {u : Tid} (hstep : step S maxThreads t i g l = some (g', l', es))
    (hmem : .call u (.enqueue a) ∈ es) :
    l = .idle ∧ i.op = some (.enqueue a) ∧ es = [.call u (.enqueue a)] := by
  cases step_tells hstep with
  | @call op hop =>
      obtain ⟨rfl, rfl⟩ : u = t ∧ .enqueue a = op := by simpa using hmem
      exact ⟨rfl, hop, rfl⟩
  | _ => simp at hmem

/-- A return from `dequeue` in the history was the last step of that call. -/
theorem Reach.returning (h : (program S maxThreads).Reach (Proper okS) c)
    {before after : List Event} {item : Option Nat}
    (heq : c.history = before ++ .retDeq t item :: after) :
    ∃ d, (program S maxThreads).Reach (Proper okS) d ∧ d.history = before
      ∧ d.locals t = .deqClear item := by
  obtain ⟨d, u, i, g, l, es, fs, hreach, -, hstep, rfl⟩ := Program.Reach.emitted h heq
  have hmem : .retDeq t item ∈ es ++ .retDeq t item :: fs := by simp
  obtain ⟨rfl, hl, hes⟩ := deqClear_of_return hstep hmem
  have hnil : es = [] := by
    cases es with
    | nil => rfl
    | cons e es => simp at hes
  exact ⟨d, hreach, by simp [hnil], hl⟩

/-- If the enqueue of `b` has been called, what returned before that had returned by then. -/
theorem Reach.returnedBefore (h : (program S maxThreads).Reach (Proper okS) c)
    {before after : List Event} (hbefore : c.history = before ++ after) {u : Tid}
    (hcall : .call u (.enqueue b) ∈ before) (hab : ReturnedBefore c.history a b) :
    ReturnedBefore before a b := by
  rw [hbefore] at hab
  refine hab.old fun v hv => ?_
  obtain ⟨first, last, rfl⟩ := List.append_of_mem hv
  have heq : c.history = (before ++ first) ++ .call v (.enqueue b) :: last := by simp [hbefore]
  obtain ⟨d, w, i, g, l, es, fs, hreach, ⟨-, hitem⟩, hstep, hd⟩ := Program.Reach.emitted h heq
  obtain ⟨hl, hop, hes⟩ := idle_of_call hstep (List.mem_append_right es List.mem_cons_self)
  have hnil : es = [] := by
    cases es with
    | nil => rfl
    | cons e es => simp at hes
  rw [hnil, List.append_nil] at hd
  exact hitem hl b hop (mem_calledItems (hd ▸ List.mem_append_left first hcall))

/-- What a dequeue in progress has taken was in the cell of its ticket. -/
theorem Reach.took_put (law : TicketSpec spec) (h : (program S maxThreads).Reach (Proper okS) c)
    (htook : Took c.history t a) : ∃ s k, Holding c.history t s k
      ∧ .segment s (.take t a k) ∈ c.history ∧ Put c.history a s k := by
  obtain ⟨s, k, hhold, htake⟩ := htook
  obtain ⟨hw, -⟩ := Reach.ordered law h
  obtain ⟨hchain, -⟩ := Reach.chained (fun _ _ _ hc => hc.1) (Reach.orderly h)
  obtain ⟨-, q, hq, -⟩ := hw.drawn hhold.mem
  obtain ⟨start, hrun⟩ := Reach.segment (fun _ _ _ hc => hc) (fun _ _ => spec.ok_idle)
    (Reach.orderly h) (hchain.known s (At.mem hq))
  obtain ⟨u, hu⟩ := law.taken hrun (mem_segmentEvents.mpr htake)
  exact ⟨s, k, hhold, htake, At.mem hq, u, mem_segmentEvents.mp hu⟩

/-- Where the items are. -/
theorem Reach.kept (law : TicketSpec spec) (h : (program S maxThreads).Reach (Proper okS) c)
    (hret : .retEnq t a ∈ c.history) : Kept law.holds c a := by
  have horderly := Reach.orderly h
  obtain ⟨hw, hl⟩ := Reach.ordered law h
  obtain ⟨hchain, -⟩ := Reach.chained (fun _ _ _ hc => hc.1) horderly
  obtain ⟨hseg, hsegloc⟩ := Reach.segments spec horderly
  obtain ⟨s, k, p, hp, hs⟩ := Reach.returned_put spec horderly hret
  have hrun : RunsAlone S okS c := fun s hs =>
    Reach.segment (fun _ _ _ hc => hc) (fun _ _ => spec.ok_idle) horderly (hchain.known s hs)
  obtain ⟨v, hv⟩ := hp.2
  obtain ⟨start, hreach⟩ := hrun s hp.1
  rcases law.kept hreach (mem_segmentEvents.mpr hv) with ⟨u, hu⟩ | ⟨hholds, howner⟩
  · -- Who has taken the item, has returned it or is about to.
    have hcount : 0 < (inChain takeOf c.history).count (u, a) := List.count_pos_iff.mpr
      (mem_inChain.mpr ⟨s, hp.1, .take u a k, mem_segmentEvents.mp hu, rfl⟩)
    rw [(hsegloc u).account.got a] at hcount
    rcases Nat.add_pos_iff_pos_or_pos.mp hcount with hreturned | hgot
    · obtain ⟨e, he, heq⟩ := List.mem_filterMap.mp (List.count_pos_iff.mp hreturned)
      refine .inl ⟨u, ?_⟩
      unfold returnedOf at heq
      split at heq <;> cases heq
      exact he
    · have hgot : (c.locals u).got spec = some a := by
        cases hl : (c.locals u).got spec with
        | none => simp [hl, pairs] at hgot
        | some b => simpa [hl, pairs, eq_comm] using hgot
      have htook : Took c.history u a := by
        have hlu := hl u
        cases hlocal : c.locals u with
        | deqSegment n ld | deqSegmentAgain n m ld =>
            rw [hlocal] at hgot hlu
            first | exact hlu.2.1.held a hgot | exact hlu.2.held a hgot
        | deqClear item =>
            rw [hlocal] at hgot hlu
            exact hlu.2.2 a hgot
        | _ =>
            rw [hlocal] at hgot
            cases hgot
      obtain ⟨s', k', hhold, htake, hp'⟩ := Reach.took_put law h htook
      obtain ⟨rfl, rfl⟩ := Reach.put_unique spec h hp hp'
      exact .inr ⟨s, k, hp, .inl ⟨u, hhold, .inr htake⟩⟩
  · by_cases hdrawn : ∃ u, .segment s (.drawHead u k) ∈ c.history
    · obtain ⟨u, hu⟩ := hdrawn
      obtain ⟨ld, hlocal, hticket⟩ := howner u (mem_segmentEvents.mpr hu)
      have hlu := hl u
      refine .inr ⟨s, k, hp, .inl ⟨u, ?_, .inl hholds⟩⟩
      rcases Local.inSegment_eq_dequeue (show (c.locals u).inSegment s = _ from hlocal)
        with hlocal | ⟨n, hlocal⟩
      · rw [hlocal] at hlu
        exact hlu.2.1.ticket k hticket
      · rw [hlocal] at hlu
        exact hlu.2.ticket k hticket
    · obtain ⟨q, hq⟩ := hchain.head
      have hle : q ≤ p := by
        by_contra hlt
        have hdrained := hseg.passed hq (Nat.not_le.mp hlt) hs
        obtain ⟨u, before, during, after, heq, -⟩ := hp.drawn_of_drained law hrun hw hdrained
        exact hdrawn ⟨u, by rw [show c.history = _ from heq]; simp⟩
      refine .inr ⟨s, k, hp, .inr ⟨hholds, fun u hu => hdrawn ⟨u, hu⟩, (chain c.history).drop q,
        ?_, ?_⟩⟩
      · have hpath := hchain.linked.path q
        rwa [show (chain c.history)[q]? = some c.shared.head from hq] at hpath
      · refine List.mem_of_getElem? (i := p - q) ?_
        rw [List.getElem?_drop, Nat.add_sub_cancel' hle]
        exact hs

/-- **A ring queue is a first-in first-out queue**, whatever the segments are that keep the order of
their tickets. -/
theorem Reach.ring_fifo (law : TicketSpec spec) (h : (program S maxThreads).Reach (Proper okS) c) :
    Fifo law.holds c where
  items {before after t a} heq := by
    obtain ⟨d, hreach, rfl, hlocal⟩ := Reach.returning h heq
    obtain ⟨hw, hl⟩ := Reach.ordered law hreach
    have hlt := hl t
    rw [hlocal] at hlt
    obtain ⟨s, k, -, -, -, u, hu⟩ := Reach.took_put law hreach (hlt.2.2 a rfl)
    exact hw.called hu
  once := (Reach.conserved spec h).once
  place hp hp' := Reach.put_unique spec h hp hp'
  order {before after t a b} heq hab := by
    obtain ⟨d, hreach, rfl, hlocal⟩ := Reach.returning h heq
    have horderly := Reach.orderly hreach
    obtain ⟨hw, hl⟩ := Reach.ordered law hreach
    obtain ⟨hchain, -⟩ := Reach.chained (fun _ _ _ hc => hc.1) horderly
    obtain ⟨hseg, -⟩ := Reach.segments spec horderly
    have hrun : RunsAlone S okS d := fun s hs =>
      Reach.segment (fun _ _ _ hc => hc) (fun _ _ => spec.ok_idle) horderly (hchain.known s hs)
    have hlt := hl t
    rw [hlocal] at hlt
    obtain ⟨m, j, hhold, -, hput⟩ := Reach.took_put law hreach (hlt.2.2 b rfl)
    obtain ⟨v, hv⟩ := hput.2
    obtain ⟨u, hu⟩ := hw.called hv
    obtain ⟨s, k, hp, p, q, hs, hm, hlt⟩ :=
      hw.order (Reach.returnedBefore h heq hu hab) hput
    refine ⟨s, k, hp, ?_⟩
    obtain ⟨-, q', hm', head, hle, hhead⟩ := hw.drawn hhold.mem
    obtain rfl : q' = q := hchain.linked.index_unique hm' hm
    rcases hlt with hlt | ⟨rfl, hlt⟩
    · exact hp.drawn_of_drained law hrun hw (hseg.passed hhead (by omega) hs)
    · obtain rfl : s = m := Option.some.inj (hs.symm.trans hm)
      obtain ⟨start, hreachS⟩ := hrun s hp.1
      have hdrawn := law.drawn hreachS (mem_segmentEvents.mpr hhold.mem)
      exact hp.drawn_of_lt law hrun hw (Nat.lt_trans hlt hdrawn)
  empty {before after t} heq := by
    obtain ⟨d, hreach, rfl, hlocal⟩ := Reach.returning h heq
    have hlt := (Reach.ordered law hreach).2 t
    rw [hlocal] at hlt
    exact hlt.2.1 rfl
  kept hret := Reach.kept law h hret

end Results

end QueueFairness.LinkedRingQueue
