import Mathlib.Data.Nat.Notation

/-!
# The delay queue

A queue whose entries arrive after a delay, as the DRAM and the L2 cache use it.
-/

set_option autoImplicit false

namespace PyTorchSim.Model

/-- A delay queue that is used for latency only; each entry has its finish cycle.
SOURCE: DelayQueue.h:9-44 -/
structure DelayQueue (α : Type) where
  cycles : ℕ := 0
  queue : List (α × ℕ) := []

namespace DelayQueue

variable {α : Type}

/-- SOURCE: DelayQueue.cc:5-9 -/
def push (q : DelayQueue α) (data : α) (delay : ℕ) : DelayQueue α :=
  { q with queue := q.queue ++ [(data, q.cycles + delay)] }

/-- SOURCE: DelayQueue.cc:34-36 -/
def arrived (q : DelayQueue α) : Bool := q.queue.head?.any fun e => e.2 ≤ q.cycles

/-- SOURCE: DelayQueue.cc:27-31 -/
def top (q : DelayQueue α) : Option α := q.queue.head?.map Prod.fst

/-- SOURCE: DelayQueue.cc:20-24 -/
def pop (q : DelayQueue α) : DelayQueue α := { q with queue := q.queue.tail }

/-- SOURCE: DelayQueue.cc:39-41 -/
def queueEmpty (q : DelayQueue α) : Bool := q.queue.isEmpty

/-- SOURCE: DelayQueue.cc:44-47 -/
def full (maxSize : ℕ) (q : DelayQueue α) : Bool := 0 < maxSize ∧ maxSize ≤ q.queue.length

/-- SOURCE: DelayQueue.cc:49-53 -/
def cycle (q : DelayQueue α) : DelayQueue α := { q with cycles := q.cycles + 1 }

end DelayQueue

end PyTorchSim.Model
