import QueueFairness.MSQueue

/-!
# The moves of MSQueue

Everything that a step can do, one constructor for each way through a branch of the code, with what
the branch has checked.
-/

namespace QueueFairness.MSQueue

open Interleaving AtomicQueue

variable {α : Type}

/-- Thread `t` goes from the control state to the next, under input `i`. -/
inductive Move (t : Tid) (i : Input α) (g : Shared α) :
    Local α → Shared α → Local α → List (Event α) → Prop
  | callEnqueue {value : α} :
      Move t i g .idle g (.enqNowInv value) [.act (.call t (.enqueue value))]
  | callDequeue : Move t i g .idle g .deqNowInv [.act (.call t .dequeue)]
  | enqNowInv {value : α} :
      Move t i g (.enqNowInv value) { g with clock := i.ts } (.enqNew value i.ts) []
  | enqNew {value : α} {inv : Nat} (hfree : g.status i.addr = .unallocated) :
      Move t i g (.enqNew value inv) ((g.setStatus i.addr .allocated).setNode i.addr { value })
        (.enqStoreInv i.addr inv) [.alloc t i.addr]
  | enqStoreInv {node inv : Nat} :
      Move t i g (.enqStoreInv node inv) (g.setNode node { g.heap node with enqInvTs := some inv })
        (.enqLoadTail node) []
  | enqLoadTail {node : Nat} : Move t i g (.enqLoadTail node) g (.enqLoadNext node g.tail) []
  | enqLoadNext {node n : Nat} {curTail : MSPointer} (hn : curTail.ptr = some n) :
      Move t i g (.enqLoadNext node curTail) g (.enqCheckTail node curTail (g.heap n).next) []
  | enqAtEnd {node : Nat} {curTail next : MSPointer} (htail : curTail = g.tail)
      (hnext : next.ptr = none) :
      Move t i g (.enqCheckTail node curTail next) g (.enqCasNext node curTail next) []
  | enqBehind {node : Nat} {curTail next : MSPointer} (htail : curTail = g.tail)
      (hnext : next.ptr ≠ none) :
      Move t i g (.enqCheckTail node curTail next) g (.enqHelpTail node curTail next) []
  | enqPassed {node : Nat} {curTail next : MSPointer} (htail : curTail ≠ g.tail) :
      Move t i g (.enqCheckTail node curTail next) g (.enqLoadTail node) []
  | link {node n : Nat} {curTail next : MSPointer} (hn : curTail.ptr = some n)
      (hcas : (g.heap n).next = next) :
      Move t i g (.enqCasNext node curTail next)
        (g.setNode n { g.heap n with next := ⟨some node, next.count + 1⟩ })
          (.enqNowLin node curTail)
        [.link t node, .act (.effect t (.enqueue (g.heap node).value) .enqueued)]
  | linkFailed {node n : Nat} {curTail next : MSPointer} (hn : curTail.ptr = some n)
      (hcas : i.fail = false → (g.heap n).next ≠ next) :
      Move t i g (.enqCasNext node curTail next) g (.enqRetry node) []
  | enqRetry {node : Nat} :
      Move t i g (.enqRetry node) { g with enqRetries := g.enqRetries + 1 } (.enqLoadTail node) []
  | enqHelpTail {node : Nat} {curTail next : MSPointer} :
      Move t i g (.enqHelpTail node curTail next)
        (g.casTail i.fail curTail ⟨next.ptr, curTail.count + 1⟩) (.enqLoadTail node) []
  | enqNowLin {node : Nat} {curTail : MSPointer} :
      Move t i g (.enqNowLin node curTail) { g with clock := i.ts }
        (.enqStoreLin node curTail i.ts) []
  | enqStoreLin {node lin : Nat} {curTail : MSPointer} :
      Move t i g (.enqStoreLin node curTail lin)
        (g.setNode node { g.heap node with enqLinTs := some lin }) (.enqSwingTail node curTail)
        [.stamp t node lin]
  | enqSwingTail {node : Nat} {curTail : MSPointer} :
      Move t i g (.enqSwingTail node curTail)
        (g.casTail i.fail curTail ⟨some node, curTail.count + 1⟩) .idle [.act (.ret t .enqueued)]
  | deqNowInv : Move t i g .deqNowInv { g with clock := i.ts } (.deqLoadHead i.ts) []
  | deqLoadHead {inv : Nat} : Move t i g (.deqLoadHead inv) g (.deqLoadTail inv g.head) []
  | deqLoadTail {inv : Nat} {curHead : MSPointer} :
      Move t i g (.deqLoadTail inv curHead) g (.deqLoadNext inv curHead g.tail) []
  | deqLoadNext {inv n : Nat} {curHead curTail : MSPointer} (hn : curHead.ptr = some n) :
      Move t i g (.deqLoadNext inv curHead curTail) g
        (.deqCheckHead inv curHead curTail (g.heap n).next) []
  | deqEmpty {inv : Nat} {curHead curTail next : MSPointer} (hhead : curHead = g.head)
      (hptr : curHead.ptr = curTail.ptr) (hnext : next.ptr = none) :
      Move t i g (.deqCheckHead inv curHead curTail next) g .idle
        [.act (.ret t (.dequeued false none))]
  | deqBehind {inv : Nat} {curHead curTail next : MSPointer} (hhead : curHead = g.head)
      (hptr : curHead.ptr = curTail.ptr) (hnext : next.ptr ≠ none) :
      Move t i g (.deqCheckHead inv curHead curTail next) g (.deqHelpTail inv curTail next) []
  | deqTorn {inv : Nat} {curHead curTail next : MSPointer} (hhead : curHead = g.head)
      (hptr : curHead.ptr ≠ curTail.ptr) (hnext : next.ptr = none) :
      Move t i g (.deqCheckHead inv curHead curTail next) g (.deqLoadHead inv) []
  | deqFront {inv : Nat} {curHead curTail next : MSPointer} (hhead : curHead = g.head)
      (hptr : curHead.ptr ≠ curTail.ptr) (hnext : next.ptr ≠ none) :
      Move t i g (.deqCheckHead inv curHead curTail next) g (.deqReadValue inv curHead next) []
  | deqPassed {inv : Nat} {curHead curTail next : MSPointer} (hhead : curHead ≠ g.head) :
      Move t i g (.deqCheckHead inv curHead curTail next) g (.deqLoadHead inv) []
  | deqHelpTail {inv : Nat} {curTail next : MSPointer} :
      Move t i g (.deqHelpTail inv curTail next)
        (g.casTail i.fail curTail ⟨next.ptr, curTail.count + 1⟩) (.deqLoadHead inv) []
  | deqReadValue {inv n : Nat} {curHead next : MSPointer} (hn : next.ptr = some n) :
      Move t i g (.deqReadValue inv curHead next) g
        (.deqReadInv inv curHead next (g.heap n).value) [.out t (g.heap n).value]
  | deqReadInv {inv n : Nat} {curHead next : MSPointer} {value : α} (hn : next.ptr = some n) :
      Move t i g (.deqReadInv inv curHead next value) g
        (.deqReadLin inv curHead next value (g.heap n).enqInvTs) []
  | deqReadLin {inv n : Nat} {curHead next : MSPointer} {value : α} {ei : Option Nat}
      (hn : next.ptr = some n) :
      Move t i g (.deqReadLin inv curHead next value ei) g
        (.deqCasHead inv curHead next value ei (g.heap n).enqLinTs) []
  | unlink {inv n : Nat} {curHead next : MSPointer} {value : α} {ei el : Option Nat}
      (hn : curHead.ptr = some n) (hcas : g.head = curHead) :
      Move t i g (.deqCasHead inv curHead next value ei el)
        { g with head := ⟨next.ptr, curHead.count + 1⟩ } (.deqNowLin inv curHead next value ei el)
        [.unlink t n, .act (.effect t .dequeue (.dequeued true (some value)))]
  | unlinkFailed {inv : Nat} {curHead next : MSPointer} {value : α} {ei el : Option Nat}
      (hcas : i.fail = false → g.head ≠ curHead) :
      Move t i g (.deqCasHead inv curHead next value ei el) g (.deqLoadHead inv) []
  | deqNowLin {inv n : Nat} {curHead next : MSPointer} {value : α} {ei el : Option Nat}
      (hn : next.ptr = some n) :
      Move t i g (.deqNowLin inv curHead next value ei el)
        { g with
          clock := i.ts
          log := Function.update g.log t (g.log t ++ [⟨ei, el, inv, i.ts⟩]) }
        (.deqDelete curHead value) [.logged t n ⟨ei, el, inv, i.ts⟩]
  | deqDelete {n : Nat} {curHead : MSPointer} {value : α} (hn : curHead.ptr = some n) :
      Move t i g (.deqDelete curHead value) (g.setStatus n .deleted) .idle
        [.act (.ret t (.dequeued true (some value)))]

variable {t : Tid} {i : Input α} {g g' : Shared α} {l l' : Local α} {es : List (Event α)}

/-- **A step is one of the moves.** -/
theorem step_move (hstep : step t i g l = some (g', l', es)) : Move t i g l g' l' es := by
  cases l with
  | idle =>
      obtain ⟨op, -, heq⟩ := Option.map_eq_some_iff.mp hstep
      cases op <;> simp only [Prod.mk.injEq] at heq <;> obtain ⟨rfl, rfl, rfl⟩ := heq
      · exact .callEnqueue
      · exact .callDequeue
  | enqNowInv | enqNowLin | deqNowInv =>
      simp only [step, Option.ite_none_right_eq_some, Option.some.injEq, Prod.mk.injEq] at hstep
      obtain ⟨-, rfl, rfl, rfl⟩ := hstep
      constructor
  | enqNew value inv =>
      simp only [step, Option.ite_none_right_eq_some, Option.some.injEq, Prod.mk.injEq] at hstep
      obtain ⟨hfree, rfl, rfl, rfl⟩ := hstep
      exact .enqNew hfree
  | enqStoreInv | enqLoadTail | enqRetry | enqHelpTail | enqStoreLin | enqSwingTail | deqLoadHead
  | deqLoadTail | deqHelpTail =>
      simp only [step, Option.some.injEq, Prod.mk.injEq] at hstep
      obtain ⟨rfl, rfl, rfl⟩ := hstep
      constructor
  | enqLoadNext | deqLoadNext | deqReadValue | deqReadInv | deqReadLin | deqDelete =>
      obtain ⟨n, hn, heq⟩ := Option.map_eq_some_iff.mp hstep
      simp only [Prod.mk.injEq] at heq
      obtain ⟨rfl, rfl, rfl⟩ := heq
      constructor
      exact hn
  | enqCheckTail node curTail next =>
      simp only [step] at hstep
      split at hstep <;> rename_i htail <;> [split at hstep <;> rename_i hnext; skip] <;>
        simp only [Option.some.injEq, Prod.mk.injEq] at hstep <;> obtain ⟨rfl, rfl, rfl⟩ := hstep
      · exact .enqAtEnd htail hnext
      · exact .enqBehind htail (by simp [hnext])
      · exact .enqPassed htail
  | enqCasNext node curTail next =>
      obtain ⟨n, hn, heq⟩ := Option.map_eq_some_iff.mp hstep
      split at heq <;> rename_i hcas <;> simp only [Prod.mk.injEq] at heq <;>
        obtain ⟨rfl, rfl, rfl⟩ := heq
      · exact .link hn hcas.1
      · exact .linkFailed hn fun hfail heq => hcas ⟨heq, hfail⟩
  | deqCheckHead inv curHead curTail next =>
      simp only [step] at hstep
      split at hstep <;> rename_i hhead <;>
        [split at hstep <;> rename_i hptr <;> split at hstep <;> rename_i hnext; skip] <;>
        simp only [Option.some.injEq, Prod.mk.injEq] at hstep <;> obtain ⟨rfl, rfl, rfl⟩ := hstep
      · exact .deqEmpty hhead hptr hnext
      · exact .deqBehind hhead hptr (by simp [hnext])
      · exact .deqTorn hhead hptr hnext
      · exact .deqFront hhead hptr (by simp [hnext])
      · exact .deqPassed hhead
  | deqCasHead inv curHead next value ei el =>
      obtain ⟨n, hn, heq⟩ := Option.map_eq_some_iff.mp hstep
      split at heq <;> rename_i hcas <;> simp only [Prod.mk.injEq] at heq <;>
        obtain ⟨rfl, rfl, rfl⟩ := heq
      · exact .unlink hn hcas.1
      · exact .unlinkFailed fun hfail heq => hcas ⟨heq, hfail⟩
  | deqNowLin inv curHead next value ei el =>
      simp only [step, Option.ite_none_right_eq_some] at hstep
      obtain ⟨-, hstep⟩ := hstep
      obtain ⟨n, hn, heq⟩ := Option.map_eq_some_iff.mp hstep
      simp only [Prod.mk.injEq] at heq
      obtain ⟨rfl, rfl, rfl⟩ := heq
      exact .deqNowLin hn

end QueueFairness.MSQueue
