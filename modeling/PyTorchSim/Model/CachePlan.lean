import PyTorchSim.Model.Core

/-!
# The cache plan

Buffers that are to be kept in the L2 are recorded by their first address and the address behind
their last byte.  The parser stores the pairs in a tree of intervals, which is asked once for a DMA
instruction.
-/

set_option autoImplicit false

namespace PyTorchSim.Model

/-- A buffer of the plan.
SOURCE: mlir_codegen_backend.py:127-143 -/
structure PlannedBuffer where
  dataPtr : ℕ
  bufferSize : ℕ
  deriving DecidableEq, Repr

/-- SOURCE: IntervalTree.h:14-26 -/
structure Interval where
  start : ℕ
  stop : ℕ
  deriving DecidableEq, Repr

/-- SOURCE: IntervalTree.h:20-24 -/
def Interval.new (s e : ℕ) : Interval where
  start := min s e
  stop := max s e

/-- `[start, end]` of `sram_plan_prefix`, as an entry of the plan.
SOURCE: mlir_codegen_backend.py:130-134, TileGraphParser.cc:731-741 -/
def PlannedBuffer.entry (b : PlannedBuffer) : Interval :=
  .new b.dataPtr (b.dataPtr + b.bufferSize)

/-- The stored intervals that meet the closed interval from `start` to `stop`.
SOURCE: IntervalTree.h:188-218 -/
def findOverlapping (plan : List Interval) (start stop : ℕ) : List Interval :=
  plan.filter fun i => i.stop ≥ start ∧ i.start ≤ stop

/-- SOURCE: TileGraph.h:22 -/
def isCacheable (plan : List Interval) (start stop : ℕ) : Bool :=
  (findOverlapping plan start stop).length ≠ 0

end PyTorchSim.Model
