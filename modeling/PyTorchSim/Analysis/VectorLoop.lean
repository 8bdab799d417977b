import Mathlib.Tactic.Common
import PyTorchSim.Analysis.PerLaneLayout
import PyTorchSim.Frontend.PointwiseLoop

/-!
# The elements that a pointwise compute loop touches

The loop loads and stores whole vectors without a mask, so it stays inside the buffer exactly when
the vector size divides the number of elements.  The vector size is a multiple of the lane stride,
from eight strides down to one, that the elements of a lane can hold, and at most the cap for narrow
floats.
-/

set_option autoImplicit false

namespace PyTorchSim.Analysis

open PyTorchSim.Frontend PyTorchSim.Library

variable {T T' : MLIRMultiDimTile} {loop : LoopLevel} {vlen size step n s c e : ℕ}
  {bufferTypes : List Dtype}

/-! ## The last iteration -/

/-- A vector size under the cap. -/
def capped (cap : Option ℕ) (vecSize : ℕ) : ℕ :=
  match cap with
  | none => vecSize
  | some cap => min vecSize cap

end PyTorchSim.Analysis
