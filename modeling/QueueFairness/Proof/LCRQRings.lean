import QueueFairness.LCRQ

/-!
# The rings of the old ring queue

The items are numbered, and item `k` goes to slot `k % 1024` of ring `k / 1024`. Where the head
stands within its ring is left open here.
-/

namespace QueueFairness.LCRQ

variable {α : Type} {clock : Nat → Nat} {s : State α} {n m k r i fuel : Nat}

theorem slot_lt (x : Int) : slot x < 1024 := by
  unfold slot ringSize
  omega

theorem slot_natCast (hk : k < 1024) : slot k = k := by
  unfold slot ringSize
  omega

theorem succ64_natCast (hk : k + 1 < 2 ^ 63) : succ64 k = (k + 1 : Nat) := by
  unfold succ64
  rw [Int.bmod_eq_of_le] <;> omega

/-- What is in the slot of item `k`, when items from `m` on and before `n` are queued. -/
def valAt (n m k : Nat) : Val := if m ≤ k ∧ k < n then .valid k else .empty

theorem valAt_succ (hk : k ≠ n) : valAt (n + 1) m k = valAt n m k := by
  unfold valAt
  split <;> split <;> first | rfl | omega

/-- A ring is replaced by one that has the same `f`. -/
theorem setRing_apply {β : Type} (f : RingNode → β) {ring : RingNode} {j : Nat}
    (hf : f ring = f (s.rings r)) : f ((s.setRing r ring).rings j) = f (s.rings j) := by
  by_cases hj : j = r
  · simp [State.setRing, hj, hf]
  · simp [State.setRing, hj]

/-- The rings hold the items from `m` on and before `n`. -/
structure Holds (s : State α) (n m : Nat) : Prop where
  taken : m ≤ n
  newRing : s.newRing = s.tailRing + 1
  full : 1024 * s.tailRing ≤ n
  room : n ≤ 1024 * (s.tailRing + 1)
  tail : (s.rings s.tailRing).tail = (n - 1024 * s.tailRing : Nat)
  next : ∀ r ≤ s.tailRing, (s.rings r).next = if r = s.tailRing then none else some (r + 1)
  head_le : s.headRing ≤ s.tailRing
  behind : 1024 * s.headRing ≤ m
  ahead : m ≤ 1024 * (s.headRing + 1)
  heads : ∀ r, s.headRing < r → r ≤ s.tailRing → (s.rings r).head = 0
  val : ∀ r ≤ s.tailRing, ∀ i < 1024, ((s.rings r).entries i).val = valAt n m (1024 * r + i)
  idx : ∀ i < 1024, n ≤ 1024 * s.tailRing + i → ((s.rings s.tailRing).entries i).idx = i

/-! ### Enqueues -/

theorem map_value_setItem (s : State α) (ptr : Nat) {f : TimedNode α → TimedNode α}
    (hf : ∀ node, (f node).value = node.value) :
    (s.setItem ptr f).items.map TimedNode.value = s.items.map TimedNode.value := by
  apply List.ext_getElem?
  intro j
  rw [State.setItem, List.getElem?_map, List.getElem?_map, List.getElem?_modify]
  cases s.items[j]? with
  | none => rfl
  | some node =>
      by_cases hj : ptr = j
      · simp [hj, hf]
      · simp [hj]

/-- The slot `t` of a ring, which the tail stands at, is filled with the item `ptr`. -/
def State.deposit (clock : Nat → Nat) (s : State α) (r t ptr : Nat) : State α :=
  let ring := { s.rings r with tail := succ64 t }
  ((s.setRing r ring).tick.setRing r (ring.setEntry t ⟨.valid ptr, t⟩)).setItem ptr
    fun node => { node with enqLinTs := clock s.reads }

section Deposit

variable (clock : Nat → Nat) (s : State α) (r t ptr : Nat)

/-- **An enqueue on a ring with a slot left.** -/
theorem ringEnqueue_slot (ht : t < 1024) (htail : (s.rings r).tail = t)
    (hentry : (s.rings r).entries t = ⟨.empty, t⟩) :
    ringEnqueue clock r ptr (fuel + 1) s = some (s.deposit clock r t ptr, 1) := by
  let ring := { s.rings r with tail := succ64 t }
  have hring : (s.setRing r ring).rings r = ring := Function.update_self ..
  rw [ringEnqueue]
  simp only [htail]
  rw [if_neg (by unfold ringSize; omega)]
  change waitForSlot clock r ptr t (fuel + 1) (s.setRing r ring) = _
  simp only [waitForSlot, hring, slot_natCast ht]
  rw [show ring.entries t = ⟨.empty, t⟩ from hentry, if_pos rfl, if_pos rfl]
  rfl

theorem map_value_deposit :
    (s.deposit clock r t ptr).items.map TimedNode.value = s.items.map TimedNode.value :=
  map_value_setItem _ ptr fun _ => rfl

theorem deposit_rings : (s.deposit clock r t ptr).rings
    = (s.setRing r ({ s.rings r with tail := succ64 t }.setEntry t ⟨.valid ptr, t⟩)).rings :=
  Function.update_idem ..

theorem deposit_head (j : Nat) :
    ((s.deposit clock r t ptr).rings j).head = (s.rings j).head := by
  rw [deposit_rings]
  exact setRing_apply RingNode.head rfl

theorem deposit_next (j : Nat) :
    ((s.deposit clock r t ptr).rings j).next = (s.rings j).next := by
  rw [deposit_rings]
  exact setRing_apply RingNode.next rfl

theorem deposit_self : (s.deposit clock r t ptr).rings r
    = { s.rings r with tail := succ64 t }.setEntry t ⟨.valid ptr, t⟩ :=
  Function.update_self ..

theorem deposit_entries {j i : Nat} (hne : j ≠ r ∨ i ≠ t) :
    ((s.deposit clock r t ptr).rings j).entries i = (s.rings j).entries i := by
  by_cases hj : j = r
  · subst hj
    rw [deposit_self]
    exact Function.update_of_ne (hne.resolve_left (not_not_intro rfl)) ..
  · rw [deposit_rings]
    exact congrArg (RingNode.entries · i) (Function.update_of_ne hj ..)

end Deposit

theorem Holds.deposit {t : Nat} (hs : Holds s (1024 * s.tailRing + t) m) (ht : t < 1024)
    (clock : Nat → Nat) :
    Holds (s.deposit clock s.tailRing t (1024 * s.tailRing + t)) (1024 * s.tailRing + t + 1) m where
  taken := Nat.le_succ_of_le hs.taken
  newRing := hs.newRing
  full := Nat.le_succ_of_le hs.full
  room := by
    change _ ≤ 1024 * (s.tailRing + 1)
    omega
  tail := by
    change ((s.deposit clock s.tailRing t _).rings s.tailRing).tail
      = (1024 * s.tailRing + t + 1 - 1024 * s.tailRing : Nat)
    have hsucc : succ64 t = (t + 1 : Nat) := succ64_natCast (by omega)
    simp only [deposit_self, RingNode.setEntry, hsucc, Nat.add_assoc, Nat.add_sub_cancel_left]
  next r hr := (deposit_next ..).trans (hs.next r hr)
  head_le := hs.head_le
  behind := hs.behind
  ahead := hs.ahead
  heads r hr hle := (deposit_head ..).trans (hs.heads r hr hle)
  val r hr i hi := by
    by_cases hne : r = s.tailRing ∧ i = t
    · obtain ⟨rfl, rfl⟩ := hne
      rw [deposit_self, valAt, if_pos ⟨hs.taken, Nat.lt_succ_self _⟩]
      simp [RingNode.setEntry]
    · have hr : r ≤ s.tailRing := hr
      rw [deposit_entries clock s s.tailRing t _ (by omega), valAt_succ (by omega)]
      exact hs.val r hr i hi
  idx i hi hle := by
    have hle : 1024 * s.tailRing + t + 1 ≤ 1024 * s.tailRing + i := hle
    change (((s.deposit clock s.tailRing t _).rings s.tailRing).entries i).idx = i
    rw [deposit_entries clock s s.tailRing t _ (by omega)]
    exact hs.idx i hi (by omega)

/-- The tail of a ring that is used up moves on. -/
def State.overrun (s : State α) (r : Nat) : State α :=
  s.setRing r { s.rings r with tail := succ64 (s.rings r).tail }

/-- Ring `r` is closed and followed by a new one. -/
def State.expand (s : State α) (r : Nat) : State α :=
  { (s.allocRing.setNext r s.newRing).closeRing r with tailRing := s.newRing }

section Expand

variable (s : State α) (r : Nat)

/-- **An enqueue on a ring that is used up.** -/
theorem ringEnqueue_full (hfull : 1024 ≤ (s.rings r).tail) :
    ringEnqueue clock r k fuel s = some (s.overrun r, 0) :=
  if_pos hfull

theorem overrun_entries (j : Nat) : ((s.overrun r).rings j).entries = (s.rings j).entries :=
  setRing_apply RingNode.entries rfl

theorem overrun_head (j : Nat) : ((s.overrun r).rings j).head = (s.rings j).head :=
  setRing_apply RingNode.head rfl

theorem overrun_next (j : Nat) : ((s.overrun r).rings j).next = (s.rings j).next :=
  setRing_apply RingNode.next rfl

theorem nextRing_none (hnone : (s.rings r).next = none) (hne : r ≠ s.newRing) :
    nextRing r s = s.expand r := by
  have halloc : (s.allocRing.rings r).next = none := by
    rw [← hnone]
    exact congrArg RingNode.next (Function.update_of_ne hne ..)
  rw [nextRing, hnone]
  dsimp only
  rw [halloc]
  rfl

theorem expand_self (hne : r ≠ s.newRing) :
    (s.expand r).rings r = { s.rings r with next := some s.newRing }.close := by
  simp [State.expand, State.closeRing, State.setNext, State.allocRing, State.setRing, hne]

theorem expand_newRing (hne : r ≠ s.newRing) : (s.expand r).rings s.newRing = .new := by
  simp [State.expand, State.closeRing, State.setNext, State.allocRing, State.setRing, hne.symm]

theorem expand_of_ne {j : Nat} (hj : j ≠ r) (hj' : j ≠ s.newRing) :
    (s.expand r).rings j = s.rings j := by
  simp [State.expand, State.closeRing, State.setNext, State.allocRing, State.setRing, hj, hj']

theorem expand_head {j : Nat} (hne : r ≠ s.newRing) (hj : j ≠ s.newRing) :
    ((s.expand r).rings j).head = (s.rings j).head := by
  by_cases hjr : j = r
  · rw [hjr, expand_self s r hne]
    rfl
  · rw [expand_of_ne s r hjr hj]

theorem expand_val {j i : Nat} (hne : r ≠ s.newRing) (hj : j ≠ s.newRing) :
    (((s.expand r).rings j).entries i).val = ((s.rings j).entries i).val := by
  by_cases hjr : j = r
  · rw [hjr, expand_self s r hne]
    simp only [RingNode.close]
    split <;> rfl
  · rw [expand_of_ne s r hjr hj]

end Expand

theorem Holds.expand (hs : Holds s n m) (hfull : n = 1024 * (s.tailRing + 1)) :
    Holds ((s.overrun s.tailRing).expand s.tailRing) n m
      ∧ (((s.overrun s.tailRing).expand s.tailRing).rings s.headRing).head
        = (s.rings s.headRing).head := by
  let s₁ := s.overrun s.tailRing
  have hlast := hs.newRing
  have hhead_le := hs.head_le
  have hne : s.tailRing ≠ s₁.newRing := by
    change s.tailRing ≠ s.newRing
    omega
  have hnew : (s₁.expand s.tailRing).rings s.newRing = .new := expand_newRing s₁ _ hne
  have hlinked : ((s₁.expand s.tailRing).rings s.tailRing).next = some s.newRing := by
    rw [expand_self s₁ _ hne]
    rfl
  have hnext : ∀ r, r ≠ s.tailRing → r ≠ s.newRing →
      ((s₁.expand s.tailRing).rings r).next = (s.rings r).next := fun r hr hr' => by
    rw [expand_of_ne s₁ _ hr hr', overrun_next]
  have hhead : ∀ r, r ≠ s.newRing →
      ((s₁.expand s.tailRing).rings r).head = (s.rings r).head := fun r hr =>
    (expand_head s₁ _ hne hr).trans (overrun_head ..)
  have hval : ∀ r i, r ≠ s.newRing → (((s₁.expand s.tailRing).rings r).entries i).val
      = ((s.rings r).entries i).val := fun r i hr => by
    rw [expand_val s₁ _ hne hr, overrun_entries]
  have htailRing : (s₁.expand s.tailRing).tailRing = s.newRing := rfl
  have hheadRing : (s₁.expand s.tailRing).headRing = s.headRing := rfl
  have hnewRing : (s₁.expand s.tailRing).newRing = s.newRing + 1 := rfl
  change Holds (s₁.expand s.tailRing) n m ∧ ((s₁.expand s.tailRing).rings s.headRing).head = _
  generalize s₁.expand s.tailRing = s' at *
  refine ⟨{
    taken := hs.taken
    newRing := by rw [hnewRing, htailRing]
    full := by omega
    room := by omega
    tail := by rw [htailRing, hnew, hlast, hfull, Nat.sub_self]; rfl
    next := fun r hr => ?next
    head_le := by omega
    behind := by rw [hheadRing]; exact hs.behind
    ahead := by rw [hheadRing]; exact hs.ahead
    heads := fun r hr hle => ?heads
    val := fun r hr i hi => ?val
    idx := fun i _ _ => by rw [htailRing, hnew]; rfl }, hhead _ (by omega)⟩
  case next =>
    rw [htailRing] at hr ⊢
    by_cases hrt : r = s.tailRing
    · rw [hrt, hlinked, if_neg (by omega), hlast]
    · by_cases hrn : r = s.newRing
      · rw [hrn, hnew, if_pos rfl]
        rfl
      · rw [hnext r hrt hrn, if_neg hrn, hs.next r (by omega), if_neg hrt]
  case heads =>
    by_cases hrn : r = s.newRing
    · rw [hrn, hnew]
      rfl
    · rw [hhead r hrn]
      exact hs.heads r (by omega) (by omega)
  case val =>
    by_cases hrn : r = s.newRing
    · rw [hrn, hnew, valAt, if_neg (by omega)]
      rfl
    · rw [hval r i hrn]
      exact hs.val r (by omega) i hi

/-- The loop ends on a ring with a slot left. -/
theorem Holds.enqueueLoop_deposit (hs : Holds s n m) (hroom : n < 1024 * (s.tailRing + 1))
    (clock : Nat → Nat) (k fuel : Nat) :
    ∃ s', enqueueLoop clock n (k + 1) (fuel + 1) s = some s' ∧ Holds s' (n + 1) m
      ∧ s'.items.map TimedNode.value = s.items.map TimedNode.value ∧ s'.tailRing = s.tailRing
      ∧ s'.headRing = s.headRing ∧ (s'.rings s.headRing).head = (s.rings s.headRing).head := by
  obtain ⟨t, rfl⟩ := Nat.exists_eq_add_of_le hs.full
  have ht : t < 1024 := by omega
  have htail : (s.rings s.tailRing).tail = t := by
    rw [hs.tail, Nat.add_sub_cancel_left]
  have hval := hs.val _ (Nat.le_refl _) t ht
  rw [valAt, if_neg (by omega)] at hval
  have hentry : (s.rings s.tailRing).entries t = ⟨.empty, t⟩ := by
    rw [← hval, ← hs.idx t ht (Nat.le_refl _)]
  refine ⟨_, ?_, hs.deposit ht clock, map_value_deposit .., rfl, rfl, deposit_head ..⟩
  rw [LCRQ.enqueueLoop, ringEnqueue_slot clock s _ t _ ht htail hentry]
  rfl

/-- **An enqueue puts the next item at the end.** -/
theorem Holds.enqueueLoop (hs : Holds s n m) (clock : Nat → Nat) (k fuel : Nat) :
    ∃ s', enqueueLoop clock n (k + 1) (fuel + 2) s = some s' ∧ Holds s' (n + 1) m
      ∧ s'.items.map TimedNode.value = s.items.map TimedNode.value ∧ 1024 * s'.tailRing ≤ n
      ∧ s'.headRing = s.headRing ∧ (s'.rings s.headRing).head = (s.rings s.headRing).head := by
  rcases Nat.lt_or_ge n (1024 * (s.tailRing + 1)) with hroom | hroom
  · obtain ⟨s', hloop, hs', hitems, htailRing, hhead⟩ :=
      hs.enqueueLoop_deposit hroom clock k (fuel + 1)
    exact ⟨s', hloop, hs', hitems, htailRing ▸ hs.full, hhead⟩
  · have hfull : n = 1024 * (s.tailRing + 1) := Nat.le_antisymm hs.room hroom
    have hlast := hs.newRing
    let s₁ := s.overrun s.tailRing
    have htail : 1024 ≤ (s.rings s.tailRing).tail := by
      rw [hs.tail]
      omega
    have hnone : (s₁.rings s.tailRing).next = none := by
      rw [overrun_next, hs.next _ (Nat.le_refl _), if_pos rfl]
    have hnext : nextRing s.tailRing s₁ = s₁.expand s.tailRing :=
      nextRing_none _ _ hnone (show s.tailRing ≠ s.newRing by omega)
    have hroom₁ : n < 1024 * (s.newRing + 1) := by omega
    obtain ⟨hs₁, hhead₁⟩ := hs.expand hfull
    obtain ⟨s', hloop, hs', hitems, htailRing, hheadRing, hhead⟩ :=
      hs₁.enqueueLoop_deposit hroom₁ clock k fuel
    refine ⟨s', ?_, hs', hitems, ?_, hheadRing, hhead.trans hhead₁⟩
    · rw [LCRQ.enqueueLoop, ringEnqueue_full _ _ htail]
      simp only [Option.bind_eq_bind, Option.bind_some]
      rw [if_neg (by decide), if_pos trivial, hnext, hloop]
    · rw [htailRing]
      exact hs₁.full

/-! ### Dequeues -/

/-- Empty slots are given up. -/
theorem waitForItem_empty {head : Int} {attempts : Nat} (hlt : attempts < 100)
    (hfuel : 100 ≤ fuel + attempts) (hempty : ((s.rings r).entries (slot head)).val = .empty) :
    waitForItem clock r head fuel attempts s = some (s, none) := by
  induction fuel generalizing attempts with
  | zero => omega
  | succ fuel ih =>
      simp only [waitForItem, hempty]
      split
      · rename_i hmore
        exact ih hmore.2 (by omega)
      · rfl

/-- The head of the ring moves on. -/
def State.setHead (s : State α) (r : Nat) (head : Int) : State α :=
  s.setRing r { s.rings r with head := head }

/-- **A dequeue on a ring that is used up, or whose head stands at an empty slot.** -/
theorem ringDequeue_none (hfuel : 100 ≤ fuel)
    (hnone : 1024 ≤ (s.rings r).head
      ∨ ((s.rings r).entries (slot (s.rings r).head)).val = .empty) :
    ringDequeue clock r fuel s = some (s.setHead r (succ64 (s.rings r).head), none) := by
  rw [ringDequeue]
  split
  · rfl
  · rename_i hlt
    have hempty := hnone.resolve_left hlt
    refine waitForItem_empty (by decide) (by omega) ?_
    simpa [State.setRing] using hempty

section SetHead

variable (s : State α) (r j : Nat) (head : Int)

@[simp]
theorem setHead_entries : ((s.setHead r head).rings j).entries = (s.rings j).entries :=
  setRing_apply RingNode.entries rfl

@[simp]
theorem setHead_tail : ((s.setHead r head).rings j).tail = (s.rings j).tail :=
  setRing_apply RingNode.tail rfl

@[simp]
theorem setHead_next : ((s.setHead r head).rings j).next = (s.rings j).next :=
  setRing_apply RingNode.next rfl

@[simp]
theorem setHead_self : ((s.setHead r head).rings r).head = head := by
  simp [State.setHead, State.setRing]

theorem setHead_of_ne (hj : j ≠ r) : (s.setHead r head).rings j = s.rings j := by
  simp [State.setHead, State.setRing, hj]

end SetHead

/-- The slot of an item that was dequeued, or not enqueued yet, is empty. -/
theorem Holds.empty (hs : Holds s n m) (hr : r ≤ s.tailRing) (hi : i < 1024)
    (hspent : n ≤ 1024 * r + i ∨ 1024 * r + i < m) : ((s.rings r).entries i).val = .empty := by
  rw [hs.val r hr i hi, valAt, if_neg (by omega)]

theorem Holds.setHead (hs : Holds s n m) (head : Int) : Holds (s.setHead s.headRing head) n m where
  taken := hs.taken
  newRing := hs.newRing
  full := hs.full
  room := hs.room
  tail := (setHead_tail ..).trans hs.tail
  next r hr := (setHead_next ..).trans (hs.next r hr)
  head_le := hs.head_le
  behind := hs.behind
  ahead := hs.ahead
  heads r hr hle := by
    rw [setHead_of_ne s s.headRing r head (Nat.ne_of_gt hr)]
    exact hs.heads r hr hle
  val r hr i hi := by
    rw [setHead_entries]
    exact hs.val r hr i hi
  idx i hi hle := by
    rw [setHead_entries]
    exact hs.idx i hi hle

theorem valAt_head (hk : k ≠ m) : valAt n (m + 1) k = valAt n m k := by
  unfold valAt
  split <;> split <;> first | rfl | omega

/-- The slot `h` of a ring, which the head stands at, is emptied of the item `ptr`. -/
def State.take (clock : Nat → Nat) (s : State α) (r h ptr : Nat) : State α :=
  let s₁ := s.setHead r (succ64 h)
  (s₁.tick.setRing r ((s₁.rings r).setEntry h ⟨.empty, h + ringSize⟩)).setItem ptr
    fun node => { node with deqLinTs := clock s.reads }

/-- **A dequeue on a ring whose head stands at an item.** -/
theorem ringDequeue_item {h ptr : Nat} (hh : h < 1024) (hhead : (s.rings r).head = h)
    (hval : ((s.rings r).entries h).val = .valid ptr) :
    ringDequeue clock r (fuel + 1) s = some (s.take clock r h ptr, some ptr) := by
  have hentry : ((s.setHead r (succ64 h)).rings r).entries h = (s.rings r).entries h := by
    rw [setHead_entries]
  rw [ringDequeue]
  simp only [hhead]
  rw [if_neg (by unfold ringSize; omega)]
  change waitForItem clock r h (fuel + 1) 0 (s.setHead r (succ64 h)) = _
  simp only [waitForItem, slot_natCast hh, hentry, hval]
  rfl

section Take

variable (clock : Nat → Nat) (s : State α) (r h ptr : Nat)

theorem map_value_take :
    (s.take clock r h ptr).items.map TimedNode.value = s.items.map TimedNode.value :=
  map_value_setItem _ ptr fun _ => rfl

theorem take_tail (j : Nat) : ((s.take clock r h ptr).rings j).tail = (s.rings j).tail :=
  Eq.trans (b := ((s.setHead r (succ64 h)).rings j).tail) (setRing_apply RingNode.tail rfl)
    (setHead_tail ..)

theorem take_next (j : Nat) : ((s.take clock r h ptr).rings j).next = (s.rings j).next :=
  Eq.trans (b := ((s.setHead r (succ64 h)).rings j).next) (setRing_apply RingNode.next rfl)
    (setHead_next ..)

theorem take_self : (s.take clock r h ptr).rings r
    = ((s.setHead r (succ64 h)).rings r).setEntry h ⟨.empty, h + ringSize⟩ :=
  Function.update_self ..

theorem take_of_ne {j : Nat} (hj : j ≠ r) : (s.take clock r h ptr).rings j = s.rings j :=
  (Function.update_of_ne hj ..).trans (setHead_of_ne s r j _ hj)

theorem take_entries {j i : Nat} (hne : j ≠ r ∨ i ≠ h) :
    ((s.take clock r h ptr).rings j).entries i = (s.rings j).entries i := by
  by_cases hj : j = r
  · subst hj
    rw [take_self, ← setHead_entries s j j (succ64 h)]
    exact Function.update_of_ne (hne.resolve_left (not_not_intro rfl)) ..
  · rw [take_of_ne clock s r h ptr hj]

end Take

/-- The oldest item is taken. -/
theorem Holds.take {h : Nat} (hs : Holds s n (1024 * s.headRing + h)) (hh : h < 1024)
    (hlt : 1024 * s.headRing + h < n) (clock : Nat → Nat) :
    Holds (s.take clock s.headRing h (1024 * s.headRing + h)) n (1024 * s.headRing + h + 1) where
  taken := hlt
  newRing := hs.newRing
  full := hs.full
  room := hs.room
  tail := (take_tail ..).trans hs.tail
  next r hr := (take_next ..).trans (hs.next r hr)
  head_le := hs.head_le
  behind := by
    change 1024 * s.headRing ≤ _
    omega
  ahead := by
    change _ ≤ 1024 * (s.headRing + 1)
    omega
  heads r hr hle := by
    rw [take_of_ne clock s s.headRing h _ (Nat.ne_of_gt hr)]
    exact hs.heads r hr hle
  val r hr i hi := by
    by_cases hne : r = s.headRing ∧ i = h
    · obtain ⟨rfl, rfl⟩ := hne
      rw [take_self, valAt, if_neg (by omega)]
      simp [RingNode.setEntry]
    · rw [take_entries clock s _ h _ (by omega), valAt_head (by omega)]
      exact hs.val r hr i hi
  idx i hi hle := by
    have hle : n ≤ 1024 * s.tailRing + i := hle
    change (((s.take clock s.headRing h _).rings s.tailRing).entries i).idx = i
    rw [take_entries clock s _ h _ (by omega)]
    exact hs.idx i hi hle

theorem take_head (clock : Nat → Nat) (s : State α) (r ptr : Nat) {h : Nat} (hh : h < 1024) :
    ((s.take clock r h ptr).rings r).head = (h + 1 : Nat) := by
  have hsucc : succ64 h = (h + 1 : Nat) := succ64_natCast (by omega)
  simp only [take_self, RingNode.setEntry, setHead_self, hsucc]

/-- The head goes on to the next ring. -/
theorem Holds.advance (hs : Holds s n m) (hend : m = 1024 * (s.headRing + 1))
    (hlt : s.headRing < s.tailRing) : Holds { s with headRing := s.headRing + 1 } n m where
  taken := hs.taken
  newRing := hs.newRing
  full := hs.full
  room := hs.room
  tail := hs.tail
  next := hs.next
  head_le := hlt
  behind := by dsimp only; omega
  ahead := by dsimp only; omega
  heads r hr hle := hs.heads r (Nat.lt_of_succ_lt hr) hle
  val := hs.val
  idx := hs.idx

end QueueFairness.LCRQ
