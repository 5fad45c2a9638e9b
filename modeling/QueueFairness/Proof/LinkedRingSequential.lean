import Mathlib.Data.List.Nodup
import QueueFairness.LinkedRingQueue
import QueueFairness.Lib.Solo

/-!
# A ring queue used by one thread at a time

When the calls are made one after another, the list of segments is a list of items: the items of its
rings, one ring after the other. Every ring but the last is closed and full or being emptied, and
each ends at the index where the next begins, so that what lies between the first head and the last
tail is just what is in the queue.
-/

namespace QueueFairness.LinkedRingQueue

open Interleaving HazardPointers

variable {σ κe κd : Type}

/-- A segment type whose segments are bounded lists when they are used by one thread at a time.
`ring s closed h xs` says that `s` holds `xs`, from index `h` on; a segment that is closed and was
found empty is `spent`. -/
structure Sequential (S : SegmentType σ κe κd) where
  ring : σ → Bool → Nat → List Nat → Prop
  spent : σ → Prop
  new : ∀ start, ring (S.new start) false start []
  head : ∀ {s closed h xs}, ring s closed h xs → (S.base s).head = h
  tail : ∀ {s closed h xs}, ring s closed h xs →
    (S.base s).tail.index = h + xs.length + closed.toNat
  enqueue : ∀ {s h xs} t item, ring s false h xs →
    Completes (fun now => S.enqueueStep t now item) (fun s' ok =>
      if ok then ring s' false h (xs ++ [item]) else xs ≠ [] ∧ ring s' true h xs) s S.enqueue
  dequeue_cons : ∀ {s closed h x xs} t, ring s closed h (x :: xs) →
    Completes (S.dequeueStep t) (fun s' r => r = some x ∧ ring s' closed (h + 1) xs) s S.dequeue
  dequeue_nil : ∀ {s h} t, ring s false h [] →
    Completes (S.dequeueStep t) (fun s' r => r = none ∧ ring s' false (h + 1) []) s S.dequeue
  closed_nil : ∀ {s h}, ring s true h [] → spent s
  dequeue_spent : ∀ {s} t, spent s →
    Completes (S.dequeueStep t) (fun s' r => r = none ∧ spent s') s S.dequeue

variable {S : SegmentType σ κe κd} {R : Sequential S}

/-! ### The memory -/

/-- The segments at `front` are closed, hold `xs` from index `h` on, and lead from segment `n` to
segment `m`, which goes on at index `k`. -/
inductive Path (R : Sequential S) (nodes : Nat → Node σ) :
    List Nat → Nat → Nat → List Nat → Nat → Nat → Prop
  | nil {n h : Nat} : Path R nodes [] n h [] n h
  | cons {n n' h m k : Nat} {front xs ys : List Nat} (hring : R.ring (nodes n).segment true h xs)
      (hnext : (nodes n).next = some n') (hpath : Path R nodes front n' (h + xs.length) ys m k) :
      Path R nodes (n :: front) n h (xs ++ ys) m k

/-- The segments at `live` and those that are retired are allocated, and they are different ones. -/
structure Store (g : Shared σ) (live : List Nat) : Prop where
  nodup : live.Nodup
  allocated : ∀ n ∈ live, g.status n = .allocated
  retired : ∀ {t n}, n ∈ g.hp.retiredList t → n ∉ live ∧ g.status n = .allocated
  once : ∀ t, (g.hp.retiredList t).Nodup
  apart : ∀ {t u n}, n ∈ g.hp.retiredList t → n ∈ g.hp.retiredList u → t = u
  free : ∃ bound, ∀ s, bound ≤ s → g.status s ≠ .allocated

/-- The queue holds `ys` in the closed segments at `front`, and `zs` in the last one. -/
structure Represents (R : Sequential S) (g : Shared σ) (front : List Nat) (h : Nat)
    (ys : List Nat) (k : Nat) (zs : List Nat) : Prop where
  path : Path R g.nodes front g.head h ys g.tail k
  ring : R.ring (g.nodes g.tail).segment false k zs
  next : (g.nodes g.tail).next = none
  store : Store g (front ++ [g.tail])

/-- The queue holds `xs`. -/
def Contains (R : Sequential S) (g : Shared σ) (xs : List Nat) : Prop :=
  ∃ front h ys k zs, xs = ys ++ zs ∧ Represents R g front h ys k zs

/-- The answers of a list to the calls. -/
def answers : List Nat → List (Tid × Op) → List Event
  | _, [] => []
  | xs, (t, .enqueue a) :: calls => .retEnq t a :: answers (xs ++ [a]) calls
  | xs, (t, .dequeue) :: calls => .retDeq t xs.head? :: answers xs.tail calls
  | xs, (t, .estimateSize) :: calls => .retSize t xs.length :: answers xs calls

def Event.isReturn : Event → Bool
  | .retEnq _ _ | .retDeq _ _ | .retSize _ _ => true
  | _ => false

/-- The answers of the queue. -/
def returns (history : List Event) : List Event := history.filter Event.isReturn

/-- `new` returns an address that is not in use. -/
def FreeAddress (c : Config (Shared σ) (Local κe κd) Event) (t : Tid) (i : Input) : Prop :=
  ∀ item ltail start, c.locals t = .enqNew item ltail start → c.shared.status i.addr ≠ .allocated

section Memory

variable {nodes nodes' : Nat → Node σ} {g g' : Shared σ} {front live xs zs : List Nat}
  {n m h k s : Nat}

theorem Path.congr (hp : Path R nodes front n h xs m k) (heq : ∀ n ∈ front, nodes' n = nodes n) :
    Path R nodes' front n h xs m k := by
  induction hp with
  | nil => exact .nil
  | cons hring hnext _ ih =>
      have hn := heq _ List.mem_cons_self
      exact .cons (hn ▸ hring) (hn ▸ hnext) (ih fun n hn => heq n (List.mem_cons_of_mem _ hn))

/-- **The indices go on from one ring to the next.** -/
theorem Path.index (hp : Path R nodes front n h xs m k) : k = h + xs.length := by
  induction hp with
  | nil => rfl
  | cons _ _ _ ih => rw [ih, List.length_append, Nat.add_assoc]

theorem Path.snoc (hp : Path R nodes front n h xs m k) (hring : R.ring (nodes m).segment true k zs)
    {s : Nat} (hnext : (nodes m).next = some s) :
    Path R nodes (front ++ [m]) n h (xs ++ zs) s (k + zs.length) := by
  induction hp with
  | nil => simpa using Path.cons hring hnext .nil
  | cons hring' hnext' _ ih =>
      rw [List.append_assoc]
      exact .cons hring' hnext' (ih hring hnext)

/-- A change of the memory that concerns neither the addresses nor the retired segments. -/
theorem Store.congr (hs : Store g live) (hstatus : g'.status = g.status)
    (hretired : g'.hp.retiredList = g.hp.retiredList) : Store g' live where
  nodup := hs.nodup
  allocated := by rw [hstatus]; exact hs.allocated
  retired := by rw [hstatus, hretired]; exact hs.retired
  once := by rw [hretired]; exact hs.once
  apart := by rw [hretired]; exact hs.apart
  free := by rw [hstatus]; exact hs.free

theorem Store.new (hs : Store g live) (hfree : g.status s ≠ .allocated) (start : Nat) :
    Store (g.new S s start) (live ++ [s]) where
  nodup := by
    refine List.nodup_append.mpr ⟨hs.nodup, List.nodup_singleton s, fun n hn p hp heq => ?_⟩
    obtain rfl : p = s := by simpa using hp
    exact hfree (heq ▸ hs.allocated n hn)
  allocated n hn := by
    by_cases hns : n = s
    · simp [Shared.new, Shared.setStatus, hns]
    · have hn : n ∈ live := by simpa [hns] using hn
      simpa [Shared.new, Shared.setStatus, hns] using hs.allocated n hn
  retired {t n} hn := by
    obtain ⟨hmem, hallocated⟩ := hs.retired hn
    have hns : n ≠ s := fun heq => hfree (heq ▸ hallocated)
    exact ⟨by simpa [hns] using hmem, by simpa [Shared.new, Shared.setStatus, hns] using hallocated⟩
  once := hs.once
  apart := hs.apart
  free := by
    obtain ⟨bound, hbound⟩ := hs.free
    refine ⟨max bound (s + 1), fun p hp => ?_⟩
    have hps : p ≠ s := by omega
    simpa [Shared.new, Shared.setStatus, hps] using hbound p (by omega)

theorem Store.retire (hs : Store g (n :: live)) (t : Tid) :
    Store { g with hp := g.hp.setRetired t (g.hp.retiredList t ++ [n]) } live := by
  have hn : n ∉ live := (List.nodup_cons.mp hs.nodup).1
  have hmem : ∀ {u p}, p ∈ (g.hp.setRetired t (g.hp.retiredList t ++ [n])).retiredList u →
      p ∈ g.hp.retiredList u ∨ p = n ∧ u = t := by
    intro u p hp
    by_cases hu : u = t
    · subst hu
      simpa [setRetired] using hp
    · exact .inl (by simpa [setRetired, hu] using hp)
  have hfresh : ∀ {u}, n ∉ g.hp.retiredList u := fun hp => (hs.retired hp).1 List.mem_cons_self
  refine ⟨(List.nodup_cons.mp hs.nodup).2, fun p hp => hs.allocated p (List.mem_cons_of_mem _ hp),
    fun hp => ?_, fun u => ?_, fun hp hp' => ?_, hs.free⟩
  · rcases hmem hp with hp | ⟨rfl, -⟩
    · exact ⟨fun hlive => (hs.retired hp).1 (List.mem_cons_of_mem _ hlive), (hs.retired hp).2⟩
    · exact ⟨hn, hs.allocated _ List.mem_cons_self⟩
  · by_cases hu : u = t
    · subst hu
      simpa [setRetired, List.nodup_append, hs.once u] using
        fun p hp heq => hfresh (heq ▸ hp)
    · simpa [setRetired, hu] using hs.once u
  · rcases hmem hp with hold | ⟨heq, ht⟩
    · rcases hmem hp' with hold' | ⟨heq', -⟩
      · exact hs.apart hold hold'
      · exact absurd (heq' ▸ hold) hfresh
    · rcases hmem hp' with hold' | ⟨-, ht'⟩
      · exact absurd (heq ▸ hold') hfresh
      · exact ht.trans ht'.symm

theorem Store.erase (hs : Store g live) {t : Tid} {i : Nat}
    (hi : (g.hp.retiredList t)[i]? = some n) :
    Store (Shared.setStatus { g with hp := g.hp.setRetired t ((g.hp.retiredList t).eraseIdx i) }
      n .deleted) live := by
  have hmem : ∀ {u p}, p ∈ (g.hp.setRetired t ((g.hp.retiredList t).eraseIdx i)).retiredList u →
      p ∈ g.hp.retiredList u ∧ p ≠ n := by
    intro u p hp
    by_cases hu : u = t
    · subst hu
      have hp : p ∈ (g.hp.retiredList u).eraseIdx i := by simpa [setRetired] using hp
      refine ⟨List.mem_of_mem_eraseIdx hp, fun heq => ?_⟩
      obtain ⟨j, hji, hj⟩ := List.mem_eraseIdx_iff_getElem?.mp (heq ▸ hp)
      obtain ⟨hlt, -⟩ := List.getElem?_eq_some_iff.mp hj
      exact hji ((List.getElem?_inj hlt (hs.once u)).mp (hj.trans hi.symm))
    · have hp : p ∈ g.hp.retiredList u := by simpa [setRetired, hu] using hp
      exact ⟨hp, fun heq => hu (hs.apart (heq ▸ hp) (List.mem_of_getElem? hi))⟩
  have hn := hs.retired (List.mem_of_getElem? hi)
  have hstatus : ∀ p, p ≠ n → Function.update g.status n .deleted p = g.status p :=
    fun p hp => Function.update_of_ne hp ..
  refine ⟨hs.nodup, fun p hp => ?_, fun hp => ?_, fun u => ?_, fun hp hp' =>
    hs.apart (hmem hp).1 (hmem hp').1, ?_⟩
  · exact (hstatus p fun heq => hn.1 (heq ▸ hp)).trans (hs.allocated p hp)
  · obtain ⟨hp, hne⟩ := hmem hp
    exact ⟨(hs.retired hp).1, (hstatus _ hne).trans (hs.retired hp).2⟩
  · by_cases hu : u = t
    · subst hu
      simpa [Shared.setStatus, setRetired] using (hs.once u).eraseIdx i
    · simpa [Shared.setStatus, setRetired, hu] using hs.once u
  · obtain ⟨bound, hbound⟩ := hs.free
    refine ⟨bound, fun p hp => ?_⟩
    by_cases hpn : p = n
    · simp [Shared.setStatus, hpn]
    · exact fun hp' => hbound p hp ((hstatus p hpn).symm.trans hp')

end Memory

/-! ### A call -/

section Call

variable {maxThreads : Nat} {t : Tid} {g g' : Shared σ} {l l' : Local κe κd}
  {history es out : List Event}
  {Q : Config (Shared σ) (Local κe κd) Event → Prop} {front live xs ys zs : List Nat}
  {a n m h k s item : Nat}

theorem returns_append : returns (history ++ es) = returns history ++ returns es :=
  List.filter_append ..

@[simp]
theorem returns_segment (s : Nat) (es : List SegmentEvent) :
    returns (es.map (.segment s)) = [] := by
  simp [returns, Event.isReturn]

theorem returns_snoc (history : List Event) (e : Event) :
    returns (history ++ [e]) = returns history ++ if e.isReturn then [e] else [] := by
  rw [returns_append]
  cases he : e.isReturn <;> simp [returns, he]

/-- Thread `t`, at `l` after `history`, comes to the end of its call, and then `Q` holds. -/
abbrev Ends (S : SegmentType σ κe κd) (maxThreads : Nat) (t : Tid)
    (Q : Config (Shared σ) (Local κe κd) Event → Prop) (g : Shared σ) (l : Local κe κd)
    (history : List Event) : Prop :=
  (program S maxThreads).Finishes FreeAddress t Q
    ⟨g, Function.update (fun _ => .idle) t l, history⟩

/-- The control states inside a call that do not allocate. -/
def Local.Plain : Local κe κd → Prop
  | .idle | .enqNew _ _ _ => False
  | _ => True

theorem Local.Plain.ne_idle (hl : l.Plain) : l ≠ .idle := by
  rintro rfl
  exact hl

theorem Local.Plain.free (hl : l.Plain) (i : Input) :
    FreeAddress ⟨g, Function.update (fun _ => .idle) t l, history⟩ t i := by
  intro item ltail start heq
  have heq : l = .enqNew item ltail start := by simpa using heq
  rw [heq] at hl
  exact hl.elim

/-- A step that depends on nothing that the program text leaves open. -/
theorem ends_next (hl : l.Plain) (hstep : ∀ i, step S maxThreads t i g l = some (g', l', es))
    (hends : Ends S maxThreads t Q g' l' (history ++ es)) : Ends S maxThreads t Q g l history :=
  .next hl.ne_idle ⟨{}, hl.free _⟩ fun i _ => ⟨g', l', es, hstep i, hends⟩

theorem setSegment_setSegment (segment segment' : σ) :
    (g.setSegment s segment).setSegment s segment' = g.setSegment s segment' := by
  simp [Shared.setSegment]

/-- **An operation on one segment, as a part of a call.** -/
theorem ends_segment {κ ρ : Type} {segmentStep : Nat → σ → κ → σ × (κ ⊕ ρ) × List SegmentEvent}
    {wrap : κ → Local κe κd} {finish : ρ → Local κe κd} {post : σ → ρ → Prop} {segment : σ} {lo : κ}
    (hcompletes : Completes segmentStep post segment lo) (hsegment : (g.nodes s).segment = segment)
    (hplain : ∀ lo, (wrap lo).Plain)
    (hstep : ∀ i g lo, step S maxThreads t i g (wrap lo)
      = some (g.setSegment s (segmentStep i.ts (g.nodes s).segment lo).1,
          (segmentStep i.ts (g.nodes s).segment lo).2.1.elim wrap finish,
          (segmentStep i.ts (g.nodes s).segment lo).2.2.map (.segment s)))
    (hends : ∀ segment' r history', post segment' r → returns history' = returns history →
      Ends S maxThreads t Q (g.setSegment s segment') (finish r) history') :
    Ends S maxThreads t Q g (wrap lo) history := by
  induction hcompletes generalizing g history with
  | @step segment lo hdone _ ih =>
      refine .next (hplain lo).ne_idle ⟨{}, (hplain lo).free _⟩ fun i _ =>
        ⟨_, _, _, hstep i g lo, ?_⟩
      have hreturns : ∀ es : List SegmentEvent,
          returns (history ++ es.map (.segment s)) = returns history := fun es => by
        simp [returns_append]
      rw [hsegment]
      cases hr : (segmentStep i.ts segment lo).2.1 with
      | inl lo' =>
          refine ih i.ts lo' hr (by simp [Shared.setSegment]) fun segment' r history' hpost
            heq => ?_
          rw [setSegment_setSegment]
          exact hends segment' r history' hpost (heq.trans (hreturns _))
      | inr r => exact hends _ r _ (hdone i.ts r hr) (hreturns _)

/-- The call is over, the queue holds `xs`, and its answers are `out`. -/
def Answered (R : Sequential S) (xs : List Nat) (out : List Event)
    (c : Config (Shared σ) (Local κe κd) Event) : Prop :=
  (∀ u, c.locals u = .idle) ∧ Contains R c.shared xs ∧ returns c.history = out

theorem Represents.setSlot (hr : Represents R g front h ys k zs) (j : Nat) (p : Option Nat) :
    Represents R (g.setSlot t j p) front h ys k zs :=
  ⟨hr.path, hr.ring, hr.next, hr.store.congr rfl rfl⟩

/-- The last step of a call. -/
theorem ends_last {j : Nat} {e : Event} (hr : Represents R g front h ys k zs) (hl : l.Plain)
    (he : e.isReturn = true) (hout : returns history = out)
    (hstep : ∀ i, step S maxThreads t i g l = some (g.setSlot t j none, .idle, [e])) :
    Ends S maxThreads t (Answered R (ys ++ zs) (out ++ [e])) g l history := by
  refine ends_next hl hstep (.idle (by simp [program]) ⟨fun u => ?_, ?_, ?_⟩)
  · by_cases hu : u = t
    · simp [hu]
    · simp [hu]
  · exact ⟨front, h, ys, k, zs, rfl, hr.setSlot j none⟩
  · simp [returns_snoc, hout, he]

/-! ### Enqueues -/

/-- The new segment has its item and is linked behind the closed one. -/
theorem link_ends (hpath : Path R g.nodes front g.head h ys g.tail k)
    (hring : R.ring (g.nodes g.tail).segment true k zs) (hnext : (g.nodes g.tail).next = none)
    (hstore : Store g (front ++ [g.tail] ++ [s]))
    (hnew : R.ring (g.nodes s).segment false (k + zs.length) xs) (hend : (g.nodes s).next = none)
    (hout : returns history = out) :
    Ends S maxThreads t (Answered R (ys ++ zs ++ xs) (out ++ [.retEnq t a])) g
      (.enqCasNext a g.tail s) history := by
  have hnodup := List.nodup_append.mp hstore.nodup
  have hfront : ∀ p ∈ front, p ≠ g.tail := fun p hp =>
    (List.nodup_append.mp hnodup.1).2.2 p hp _ (List.mem_singleton_self _)
  have hs : s ≠ g.tail := fun heq =>
    hnodup.2.2 g.tail (by simp) s (List.mem_singleton_self _) heq.symm
  -- The two compare-and-swaps succeed.
  let g' : Shared σ := { g.setNext g.tail (some s) with tail := s }
  have hlink : ∀ i, step S maxThreads t i g (.enqCasNext a g.tail s)
      = some (g.setNext g.tail (some s), .enqCasTail a g.tail s, [.link t s]) := fun i => by
    simp [step, hnext]
  have htail : ∀ i, step S maxThreads t i (g.setNext g.tail (some s)) (.enqCasTail a g.tail s)
      = some (g', .enqClear a, []) := fun i => by
    simp [step, Shared.setNext, g']
  have hnode : ∀ p, p ≠ g.tail → g'.nodes p = g.nodes p := fun p hp => by
    simp [g', Shared.setNext, hp]
  have hr : Represents R g' (front ++ [g.tail]) h (ys ++ zs) (k + zs.length) xs := by
    refine ⟨?_, ?_, ?_, hstore.congr rfl rfl⟩
    · refine (hpath.congr fun p hp => hnode p (hfront p hp)).snoc ?_ ?_
      · simpa [g', Shared.setNext] using hring
      · simp [g', Shared.setNext]
    · rw [hnode g'.tail hs]
      exact hnew
    · rw [hnode g'.tail hs]
      exact hend
  refine ends_next trivial hlink (ends_next trivial htail ?_)
  refine ends_last hr trivial rfl ?_ fun i => rfl
  simp [returns_snoc, hout, Event.isReturn]

theorem step_enqSegment (i : Input) (g : Shared σ) (lo : κe) :
    step S maxThreads t i g (.enqSegment a s lo)
      = some (g.setSegment s (S.enqueueStep t i.ts a (g.nodes s).segment lo).1,
          (S.enqueueStep t i.ts a (g.nodes s).segment lo).2.1.elim (.enqSegment a s)
            (fun ok => if ok then .enqClear a else .enqLoadStart a s),
          (S.enqueueStep t i.ts a (g.nodes s).segment lo).2.2.map (.segment s)) := by
  simp only [step, enqueueStep]
  cases (S.enqueueStep t i.ts a (g.nodes s).segment lo).2.1 with
  | inl lo' => rfl
  | inr ok => cases ok <;> rfl

theorem step_enqNewSegment (i : Input) (g : Shared σ) (lo : κe) :
    step S maxThreads t i g (.enqNewSegment a n s lo)
      = some (g.setSegment s (S.enqueueStep t i.ts a (g.nodes s).segment lo).1,
          (S.enqueueStep t i.ts a (g.nodes s).segment lo).2.1.elim (.enqNewSegment a n s)
            (fun _ => .enqCasNext a n s),
          (S.enqueueStep t i.ts a (g.nodes s).segment lo).2.2.map (.segment s)) := by
  simp only [step, enqueueStep]
  cases (S.enqueueStep t i.ts a (g.nodes s).segment lo).2.1 with
  | inl lo' => rfl
  | inr ok => rfl

/-- The last segment is closed: a new one takes the item. -/
theorem append_ends (hpath : Path R g.nodes front g.head h ys g.tail k)
    (hring : R.ring (g.nodes g.tail).segment true k zs) (hnext : (g.nodes g.tail).next = none)
    (hstore : Store g (front ++ [g.tail])) (hout : returns history = out) :
    Ends S maxThreads t (Answered R (ys ++ zs ++ [a]) (out ++ [.retEnq t a])) g
      (.enqLoadStart a g.tail) history := by
  have hstart : ∀ i, step S maxThreads t i g (.enqLoadStart a g.tail)
      = some (g, .enqNew a g.tail (k + zs.length), []) := fun i => by
    simp [step, R.tail hring]
  refine ends_next trivial hstart (.next (by simp [program]) ?_ fun i hfree => ?_)
  · obtain ⟨bound, hbound⟩ := hstore.free
    exact ⟨{ addr := bound }, fun _ _ _ _ => hbound bound (Nat.le_refl _)⟩
  have hs : g.status i.addr ≠ .allocated := hfree a g.tail (k + zs.length) (by simp)
  have hne : ∀ p ∈ front ++ [g.tail], p ≠ i.addr := fun p hp heq =>
    hs (heq ▸ hstore.allocated p hp)
  have htail : g.tail ≠ i.addr := hne _ (by simp)
  have hnew : step S maxThreads t i g (.enqNew a g.tail (k + zs.length))
      = some (g.new S i.addr (k + zs.length),
          .enqNewSegment a g.tail i.addr S.enqueue, [.alloc t i.addr]) := by
    simp [step, hs]
  refine ⟨_, _, _, hnew, ?_⟩
  have hcompletes := R.enqueue t a (R.new (k + zs.length))
  refine ends_segment hcompletes (by simp [Shared.new]) (fun _ => trivial) step_enqNewSegment ?_
  intro segment ok history' hpost hhistory
  have hring' : R.ring segment false (k + zs.length) [a] := by
    split at hpost
    · exact hpost
    · exact absurd rfl hpost.1
  let g' := (g.new S i.addr (k + zs.length)).setSegment i.addr segment
  have hnode : ∀ p, p ≠ i.addr → g'.nodes p = g.nodes p := fun p hp => by
    simp [g', Shared.setSegment, Shared.new, hp]
  have hpath' : Path R g'.nodes front g'.head h ys g'.tail k :=
    hpath.congr fun p hp => hnode p (hne p (by simp [hp]))
  have htailNode : g'.nodes g'.tail = g.nodes g.tail := hnode g.tail htail
  have hstore' : Store g' (front ++ [g'.tail] ++ [i.addr]) :=
    (hstore.new (S := S) hs (k + zs.length)).congr rfl rfl
  have hring'' : R.ring (g'.nodes i.addr).segment false (k + zs.length) [a] := by
    simpa [g', Shared.setSegment] using hring'
  have hend : (g'.nodes i.addr).next = none := by simp [g', Shared.setSegment, Shared.new]
  refine link_ends hpath' (htailNode ▸ hring) (htailNode ▸ hnext) hstore' hring'' hend ?_
  rw [hhistory]
  simp [returns_snoc, hout, Event.isReturn]

/-- The enqueue protects the last segment. -/
theorem protected_ends (hr : Represents R g front h ys k zs) (hout : returns history = out) :
    Ends S maxThreads t (Answered R (ys ++ zs ++ [a]) (out ++ [.retEnq t a])) g
      (.enqReload a g.tail) history := by
  have hreload : ∀ i, step S maxThreads t i g (.enqReload a g.tail)
      = some (g, .enqLoadNext a g.tail, []) := fun i => by
    simp [step]
  have hload : ∀ i, step S maxThreads t i g (.enqLoadNext a g.tail)
      = some (g, .enqSegment a g.tail S.enqueue, []) := fun i => by
    simp [step, hr.next]
  refine ends_next trivial hreload (ends_next trivial hload ?_)
  refine ends_segment (R.enqueue t a hr.ring) rfl (fun _ => trivial) step_enqSegment ?_
  intro segment ok history' hpost hhistory
  replace hhistory : returns history' = out := by
    simpa [returns_append, hout] using hhistory
  have hfront : ∀ p ∈ front, p ≠ g.tail := fun p hp =>
    (List.nodup_append.mp hr.store.nodup).2.2 p hp _ (List.mem_singleton_self _)
  have hpath : Path R (g.setSegment g.tail segment).nodes front g.head h ys g.tail k :=
    hr.path.congr fun p hp => by simp [Shared.setSegment, hfront p hp]
  have hsegment : ((g.setSegment g.tail segment).nodes g.tail).segment = segment := by
    simp [Shared.setSegment]
  have hnext : ((g.setSegment g.tail segment).nodes g.tail).next = none := by
    simpa [Shared.setSegment] using hr.next
  have hstore : Store (g.setSegment g.tail segment) (front ++ [g.tail]) := hr.store.congr rfl rfl
  cases ok with
  | true =>
      rw [List.append_assoc]
      exact ends_last ⟨hpath, hsegment.symm ▸ hpost, hnext, hstore⟩ trivial rfl hhistory
        fun i => rfl
  | false => exact append_ends hpath (hsegment.symm ▸ hpost.2) hnext hstore hhistory

/-- **An enqueue puts its item behind the others.** -/
theorem enqueue_ends (hc : Contains R g xs) (hout : returns history = out) :
    Ends S maxThreads t (Answered R (xs ++ [a]) (out ++ [.retEnq t a])) g (.enqLoadTail a)
      history := by
  obtain ⟨front, h, ys, k, zs, rfl, hr⟩ := hc
  refine ends_next trivial (fun i => rfl) (ends_next trivial (fun i => rfl) ?_)
  exact protected_ends (hr.setSlot kHpTail (some g.tail)) (by simpa [returns_append] using hout)

/-! ### Retiring a segment -/

/-- The object at hand is compared with every slot that is left, and then found or not. -/
theorem compare_ends {i obj : Nat}
    (hfound : Ends S maxThreads t Q g
      (afterScan n (scanFrom maxThreads (g.hp.retiredList t) (i + 1))) history)
    (herase : Ends S maxThreads t Q g (.deqScan n (.erase i obj)) history) (row slot : Nat) :
    Ends S maxThreads t Q g (.deqScan n (.load i obj row slot)) history := by
  -- By induction on the number of slots left to compare with.
  induction hleft : 2 * (maxThreads - row) + slot using Nat.strongRecOn
    generalizing row slot with
  | _ left ih =>
  subst hleft
  have hscan : ∀ j, step S maxThreads t j g (.deqScan n (.load i obj row slot))
      = some (g, afterScan n (afterLoad maxThreads (g.hp.retiredList t) i obj row slot
          (g.hp.hp row slot == some obj)), []) := fun j => rfl
  refine ends_next trivial hscan ?_
  rw [List.append_nil, afterLoad]
  split
  · exact hfound
  · split
    · exact ih _ (by omega) row (slot - 1) rfl
    · split
      · refine ih _ ?_ (row + 1) (maxHPs - 1) rfl
        simp only [maxHPs]
        omega
      · exact herase

/-- **The scan of the retired segments comes to its end**, and the list is as it was. -/
theorem scan_ends (hstore : Store g live) (i : Nat)
    (hends : ∀ g' : Shared σ, g'.nodes = g.nodes → g'.head = g.head → g'.tail = g.tail →
      Store g' live → Ends S maxThreads t Q g' (.deqProtect n) history) :
    Ends S maxThreads t Q g (afterScan n (scanFrom maxThreads (g.hp.retiredList t) i)) history := by
  induction hleft : (g.hp.retiredList t).length - i generalizing g i with
  | zero =>
      rw [scanFrom, List.getElem?_eq_none (by omega)]
      exact hends g rfl rfl rfl hstore
  | succ left ih =>
      have hlt : i < (g.hp.retiredList t).length := by omega
      have hobj := List.getElem?_eq_getElem hlt
      -- Either the scan goes on to the next object, or this one is deleted.
      have hnext := ih hstore (i + 1) hends (by omega)
      have herase : Ends S maxThreads t Q g (.deqScan n (.erase i (g.hp.retiredList t)[i]))
          history := by
        refine ends_next trivial (fun j => rfl) ?_
        have hretired : ((g.hp.setRetired t ((g.hp.retiredList t).eraseIdx i)).retiredList t)
            = (g.hp.retiredList t).eraseIdx i := by
          simp [setRetired]
        have hrest := ih (hstore.erase hobj) i
          (fun g' hnodes hhead htail hs => hends g' hnodes hhead htail hs) (by
            simp only [Shared.setStatus, hretired, List.length_eraseIdx, if_pos hlt]
            omega)
        simpa [scanStep, Shared.setStatus, hretired] using hrest
      rw [scanFrom, hobj, Option.map_some]
      split
      · exact compare_ends hnext herase 0 _
      · exact herase

/-! ### Dequeues -/

theorem step_deqSegment (i : Input) (g : Shared σ) (lo : κd) :
    step S maxThreads t i g (.deqSegment s lo)
      = some (g.setSegment s (S.dequeueStep t i.ts (g.nodes s).segment lo).1,
          (S.dequeueStep t i.ts (g.nodes s).segment lo).2.1.elim (.deqSegment s)
            (fun r => r.elim (.deqLoadNext s) fun item => .deqClear (some item)),
          (S.dequeueStep t i.ts (g.nodes s).segment lo).2.2.map (.segment s)) := by
  simp only [step, dequeueStep]
  cases (S.dequeueStep t i.ts (g.nodes s).segment lo).2.1 with
  | inl lo' => rfl
  | inr r => cases r <;> rfl

theorem step_deqSegmentAgain (i : Input) (g : Shared σ) (lo : κd) :
    step S maxThreads t i g (.deqSegmentAgain s n lo)
      = some (g.setSegment s (S.dequeueStep t i.ts (g.nodes s).segment lo).1,
          (S.dequeueStep t i.ts (g.nodes s).segment lo).2.1.elim (.deqSegmentAgain s n)
            (fun r => r.elim (.deqCasHead s n) fun item => .deqClear (some item)),
          (S.dequeueStep t i.ts (g.nodes s).segment lo).2.2.map (.segment s)) := by
  simp only [step, dequeueStep]
  cases (S.dequeueStep t i.ts (g.nodes s).segment lo).2.1 with
  | inl lo' => rfl
  | inr r => cases r <;> rfl

/-- The first segment is protected. -/
theorem protect_ends
    (hends : Ends S maxThreads t Q (g.setSlot t kHpHead (some g.head))
      (.deqSegment g.head S.dequeue) history) :
    Ends S maxThreads t Q g (.deqProtect g.head) history := by
  have hreload : ∀ i, step S maxThreads t i (g.setSlot t kHpHead (some g.head)) (.deqReload g.head)
      = some (g.setSlot t kHpHead (some g.head), .deqSegment g.head S.dequeue, []) := fun i => by
    simp [step, Shared.setSlot]
  refine ends_next trivial (fun i => rfl) (ends_next trivial hreload ?_)
  simpa using hends

/-- The only segment of the queue. -/
theorem dequeue_last (hr : Represents R g [] h ys k zs) (hout : returns history = out) :
    Ends S maxThreads t (Answered R (ys ++ zs).tail (out ++ [.retDeq t (ys ++ zs).head?])) g
      (.deqSegment g.head S.dequeue) history := by
  obtain ⟨hpath, hring, hnext, hstore⟩ := hr
  generalize hh : g.head = n at *
  cases hpath
  have hnext' : ∀ segment, ((g.setSegment g.tail segment).nodes g.tail).next = none :=
    fun segment => by simpa [Shared.setSegment] using hnext
  have hkeep : ∀ {segment k zs}, R.ring segment false k zs →
      Represents R (g.setSegment g.tail segment) [] k [] k zs := fun {segment k zs} hring => by
    refine ⟨?_, by simpa [Shared.setSegment] using hring, hnext' _, hstore.congr rfl rfl⟩
    rw [show (g.setSegment g.tail segment).head = g.tail from hh]
    exact .nil
  cases zs with
  | nil =>
      refine ends_segment (R.dequeue_nil t hring) rfl (fun _ => trivial) step_deqSegment ?_
      rintro segment r history' ⟨rfl, hring'⟩ hhistory
      have hload : ∀ i, step S maxThreads t i (g.setSegment g.tail segment) (.deqLoadNext g.tail)
          = some (g.setSegment g.tail segment, .deqClear none, []) := fun i => by
        simp only [step, hnext']
      refine ends_next trivial hload ?_
      exact ends_last (hkeep hring') trivial rfl (by simp [hhistory, hout]) fun i => rfl
  | cons x zs =>
      refine ends_segment (R.dequeue_cons t hring) rfl (fun _ => trivial) step_deqSegment ?_
      rintro segment r history' ⟨rfl, hring'⟩ hhistory
      exact ends_last (hkeep hring') trivial rfl (hhistory.trans hout) fun i => rfl

/-- The first segment was found empty twice, and another follows: it is removed and retired. -/
theorem remove_ends (hstore : Store g (g.head :: live))
    (hends : ∀ g' : Shared σ, g'.nodes = g.nodes → g'.head = n → g'.tail = g.tail →
      Store g' live → Ends S maxThreads t Q g' (.deqProtect n) history) :
    Ends S maxThreads t Q g (.deqCasHead g.head n) history := by
  have hcas : ∀ i, step S maxThreads t i g (.deqCasHead g.head n)
      = some ({ g with head := n }, .deqRetire g.head n, []) := fun i => by
    simp [step]
  refine ends_next trivial hcas (ends_next trivial (fun i => rfl) ?_)
  rw [List.append_nil, List.append_nil]
  let g' : Shared σ := { g with
    head := n
    hp := g.hp.setRetired t (g.hp.retiredList t ++ [g.head]) }
  have hstore' : Store g' live := (hstore.retire t).congr rfl rfl
  have hscan : Ends S maxThreads t Q g' (afterScan n (scanFrom maxThreads (g'.hp.retiredList t) 0))
      history := scan_ends hstore' 0 hends
  simpa [g', setRetired] using hscan

/-- The first segment of the queue, when another follows. -/
theorem dequeue_first (hfirst : R.ring (g.nodes g.head).segment true h xs)
    (hsecond : (g.nodes g.head).next = some m)
    (hpath : Path R g.nodes front m (h + xs.length) ys g.tail k)
    (hring : R.ring (g.nodes g.tail).segment false k zs) (hnext : (g.nodes g.tail).next = none)
    (hstore : Store g (g.head :: (front ++ [g.tail]))) (hout : returns history = out)
    (hmore : ∀ g' history', Represents R g' front h ys k zs → returns history' = out →
      Ends S maxThreads t (Answered R (ys ++ zs).tail (out ++ [.retDeq t (ys ++ zs).head?])) g'
        (.deqProtect g'.head) history') :
    Ends S maxThreads t
      (Answered R (xs ++ ys ++ zs).tail (out ++ [.retDeq t (xs ++ ys ++ zs).head?])) g
      (.deqSegment g.head S.dequeue) history := by
  have hne : ∀ p ∈ front ++ [g.tail], p ≠ g.head := fun p hp heq =>
    (List.nodup_cons.mp hstore.nodup).1 (heq ▸ hp)
  have hnode : ∀ segment p, p ∈ front ++ [g.tail] →
      (g.setSegment g.head segment).nodes p = g.nodes p := fun segment p hp => by
    simp [Shared.setSegment, hne p hp]
  have hsecond' : ∀ segment, ((g.setSegment g.head segment).nodes g.head).next = some m :=
    fun segment => by simpa [Shared.setSegment] using hsecond
  have hsegment : ∀ segment, ((g.setSegment g.head segment).nodes g.head).segment = segment :=
    fun segment => by simp [Shared.setSegment]
  have hpath' : ∀ segment, Path R (g.setSegment g.head segment).nodes front m (h + xs.length) ys
      g.tail k := fun segment => hpath.congr fun p hp => hnode segment p (by simp [hp])
  have htail : ∀ segment, (g.setSegment g.head segment).nodes g.tail = g.nodes g.tail :=
    fun segment => hnode segment g.tail (by simp)
  cases xs with
  | cons x xs =>
      refine ends_segment (R.dequeue_cons t hfirst) rfl (fun _ => trivial) step_deqSegment ?_
      rintro segment r history' ⟨rfl, hring'⟩ hhistory
      have hindex : h + (x :: xs).length = h + 1 + xs.length := by
        rw [List.length_cons]
        omega
      have hr : Represents R (g.setSegment g.head segment) (g.head :: front) (h + 1) (xs ++ ys) k
          zs := by
        refine ⟨.cons ?_ (hsecond' segment) (hindex ▸ hpath' segment), ?_, ?_, hstore.congr rfl rfl⟩
        · exact (hsegment segment).symm ▸ hring'
        · exact (congrArg Node.segment (htail segment)).symm ▸ hring
        · exact (congrArg Node.next (htail segment)).trans hnext
      exact ends_last hr trivial rfl (hhistory.trans hout) fun i => rfl
  | nil =>
      -- The segment is tried once more after the next one was seen.
      refine ends_segment (R.dequeue_spent t (R.closed_nil hfirst)) rfl (fun _ => trivial)
        step_deqSegment ?_
      rintro segment r history' ⟨rfl, hspent⟩ hhistory
      have hload : ∀ i, step S maxThreads t i (g.setSegment g.head segment) (.deqLoadNext g.head)
          = some (g.setSegment g.head segment, .deqSegmentAgain g.head m S.dequeue, []) :=
        fun i => by simp only [step, hsecond']
      refine ends_next trivial hload ?_
      refine ends_segment (R.dequeue_spent t hspent) (hsegment segment) (fun _ => trivial)
        step_deqSegmentAgain ?_
      rintro segment' r history'' ⟨rfl, -⟩ hhistory'
      rw [setSegment_setSegment]
      refine remove_ends (g := g.setSegment g.head segment') (hstore.congr rfl rfl) ?_
      intro g' hnodes hhead htail' hs
      subst hhead
      have hlast : g'.nodes g'.tail = g.nodes g.tail := by
        rw [hnodes, htail']
        exact htail segment'
      refine hmore g' history'' ⟨?_, ?_, ?_, ?_⟩ ?_
      · rw [hnodes, htail']
        exact hpath' segment'
      · exact hlast ▸ hring
      · exact hlast ▸ hnext
      · rw [htail']
        exact hs
      · simpa [hhistory', hhistory] using hout

/-- **A dequeue takes the oldest item**, and removes the segments on its way that have none left. -/
theorem dequeue_ends (hr : Represents R g front h ys k zs) (hout : returns history = out) :
    Ends S maxThreads t (Answered R (ys ++ zs).tail (out ++ [.retDeq t (ys ++ zs).head?])) g
      (.deqProtect g.head) history := by
  induction front generalizing g h ys history with
  | nil => exact protect_ends (dequeue_last (hr.setSlot kHpHead (some g.head)) hout)
  | cons n front ih =>
      refine protect_ends ?_
      obtain ⟨hpath, hring, hnext, hstore⟩ := hr.setSlot kHpHead (some g.head) (t := t)
      generalize hg : g.setSlot t kHpHead (some g.head) = g' at *
      have hhead : g.head = g'.head := hg ▸ rfl
      rw [hhead]
      generalize hn : g'.head = n' at hpath
      cases hpath with
      | cons hfirst hsecond hpath =>
          subst hn
          exact dequeue_first hfirst hsecond hpath hring hnext hstore hout
            fun g' history' hr hout => ih hr hout

/-! ### Sizes -/

theorem Represents.head_index (hr : Represents R g front h ys k zs) :
    (S.base (g.nodes g.head).segment).head = h := by
  obtain ⟨hpath, hring, -, -⟩ := hr
  generalize g.head = n at *
  cases hpath with
  | nil => exact R.head hring
  | cons hfirst => exact R.head hfirst

/-- **`estimateSize` tells the number of items.** -/
theorem estimateSize_ends (hr : Represents R g front h ys k zs) (hout : returns history = out) :
    Ends S maxThreads t (Answered R (ys ++ zs) (out ++ [.retSize t (ys ++ zs).length])) g
      (.sizeProtectHead none) history := by
  let g₁ := g.setSlot t kHpHead (some g.head)
  let g₂ := g₁.setSlot t kHpTail (some g.tail)
  have hr : Represents R g₂ front h ys k zs := (hr.setSlot kHpHead _).setSlot kHpTail _
  have hagain : ∀ i, step S maxThreads t i g₁ (.sizeProtectHead (some g.head))
      = some (g₁, .sizeProtectTail g.head none, []) := fun i => by
    simp [step, g₁, Shared.setSlot]
  have htailAgain : ∀ i, step S maxThreads t i g₂ (.sizeProtectTail g.head (some g.tail))
      = some (g₂, .sizeLoadTail g.head g.tail, []) := fun i => by
    simp [step, g₂, g₁, Shared.setSlot]
  have hloadTail : ∀ i, step S maxThreads t i g₂ (.sizeLoadTail g.head g.tail)
      = some (g₂, .sizeLoadHead g.head (k + zs.length), []) := fun i => by
    have htail : (S.base (g₂.nodes g.tail).segment).tail.index = k + zs.length := R.tail hr.ring
    simp [step, htail]
  have hloadHead : ∀ i, step S maxThreads t i g₂ (.sizeLoadHead g.head (k + zs.length))
      = some (g₂, .sizeClear 0 (ys ++ zs).length, []) := fun i => by
    have hhead : (S.base (g₂.nodes g.head).segment).head = h := hr.head_index
    have hsize : k + zs.length - h = (ys ++ zs).length := by
      rw [hr.path.index, List.length_append]
      omega
    simp only [step, hhead, hsize]
  refine ends_next trivial (fun i => rfl) (ends_next trivial (fun i => rfl) ?_)
  refine ends_next trivial hagain (ends_next trivial (fun i => rfl) ?_)
  refine ends_next trivial (fun i => rfl) ?_
  refine ends_next trivial htailAgain (ends_next trivial hloadTail (ends_next trivial hloadHead ?_))
  refine ends_next trivial (fun i => rfl) ?_
  exact ends_last (hr.setSlot 0 none) trivial rfl (by simpa using hout) fun i => rfl

/-! ### The calls -/

/-- **A call is answered as a list would answer it.** -/
theorem call_ends (maxThreads : Nat) (t : Tid) (hc : Contains R g xs)
    (hout : returns history = out) (op : Op) :
    ∃ g' l', (∀ i : Input, i.op = some op →
        step S maxThreads t i g .idle = some (g', l', [.call t op])) ∧
      ∃ xs' e, (∀ calls, answers xs ((t, op) :: calls) = e :: answers xs' calls) ∧
        Ends S maxThreads t (Answered R xs' (out ++ [e])) g' l' (history ++ [.call t op]) := by
  have hcall : returns (history ++ [.call t op]) = out := by
    simp [returns_snoc, hout, Event.isReturn]
  obtain ⟨front, h, ys, k, zs, rfl, hr⟩ := id hc
  cases op with
  | enqueue a =>
      exact ⟨g, .enqLoadTail a, fun i hi => by simp [step, hi], _, _, fun calls => rfl,
        enqueue_ends hc hcall⟩
  | dequeue =>
      refine ⟨g, .deqLoadHead, fun i hi => by simp [step, hi], _, _, fun calls => rfl,
        ends_next trivial (fun i => rfl) ?_⟩
      exact dequeue_ends hr (by simpa using hcall)
  | estimateSize =>
      exact ⟨g, .sizeProtectHead none, fun i hi => by simp [step, hi], _, _, fun calls => rfl,
        estimateSize_ends hr hcall⟩

/-- **Calls made one after another all end, and are answered as a list would answer them.** -/
theorem Sequential.serves (R : Sequential S) {c : Config (Shared σ) (Local κe κd) Event}
    (hc : Answered R xs out c) (calls : List (Tid × Op)) :
    (program S maxThreads).Serves FreeAddress (calls.map fun (t, op) => (t, { op := some op }))
      (fun c => returns c.history = out ++ answers xs calls) c := by
  induction calls generalizing xs out c with
  | nil => simpa [Program.Serves, answers] using hc.2.2
  | cons call calls ih =>
      obtain ⟨t, op⟩ := call
      obtain ⟨hidle, hcontains, hout⟩ := hc
      obtain ⟨g', l', hstep, xs', e, hanswers, hends⟩ :=
        call_ends maxThreads t hcontains hout op
      have hlocals : c.locals = fun _ => .idle := funext hidle
      refine ⟨⟨g', Function.update (fun _ => .idle) t l', c.history ++ [.call t op]⟩, ?_, ?_⟩
      · rw [Program.next, hlocals]
        exact congrArg (Option.map _) (hstep { op := some op } rfl)
      · refine hends.mono fun d hd => ?_
        rw [hanswers, List.append_cons]
        exact ih hd

end Call

/-- The queue is empty at first. -/
theorem answered_init (R : Sequential S) (maxThreads : Nat) :
    Answered R [] [] (program S maxThreads).init := by
  refine ⟨fun _ => rfl, ⟨[], 0, [], 0, [], rfl, .nil, R.new 0, rfl, ?_⟩, rfl⟩
  refine ⟨List.nodup_singleton _, fun n hn => ?_, fun hn => ?_, fun _ => List.nodup_nil,
    fun hn => ?_, 1, fun s hs => ?_⟩
  · obtain rfl : n = sentinel := by simpa [program, Program.init] using hn
    rfl
  · cases hn
  · cases hn
  · have hne : s ≠ sentinel := by simp only [sentinel]; omega
    simp [program, Program.init, hne]

end QueueFairness.LinkedRingQueue
