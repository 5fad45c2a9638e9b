import Mathlib.Data.Nat.Basic
import Mathlib.Order.Basic
import Mathlib.Tactic.Common
import QueueFairness.Lib.Interleaving

/-!
# Log records

The four time stamps every queue of the benchmark logs for a dequeued item
(`std::tuple<uint64_t, uint64_t, uint64_t, uint64_t>`), and the clock they come from. `now()` reads
the time stamp counter; all that is assumed of it is that a later step does not read less.
-/

namespace QueueFairness

structure LogRecord where
  enqInvTs : Nat
  enqLinTs : Nat
  deqInvTs : Nat
  deqLinTs : Nat
  deriving DecidableEq

/-- The order every record is meant to satisfy: an item enters the queue after its enqueue was
called, and leaves it after that and after its dequeue was called. -/
structure LogRecord.Ordered (r : LogRecord) : Prop where
  enq : r.enqInvTs ≤ r.enqLinTs
  lin : r.enqLinTs ≤ r.deqLinTs
  deq : r.deqInvTs ≤ r.deqLinTs

/-- `Node<T>`: an item with its four time stamps. -/
structure TimedNode (α : Type) where
  value : α
  enqInvTs : Nat := 0
  enqLinTs : Nat := 0
  deqInvTs : Nat := 0
  deqLinTs : Nat := 0

end QueueFairness
