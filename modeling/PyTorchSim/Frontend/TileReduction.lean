import Mathlib.Algebra.BigOperators.Group.List.Basic
import PyTorchSim.Frontend.IndexExpr
import PyTorchSim.Frontend.PointwiseLoop

/-!
# The reduction of a tile

The compute loop combines the vectors of a lane's buffer slot by slot, in accumulators that the
loops over the tiles of the reduced dimensions hand on.  Behind these loops the slots of one output
row are combined.

The values are those of a commutative monoid, whose neutral element is the initial value of the
reduction.
-/

set_option autoImplicit false

namespace PyTorchSim.Frontend

/-- The tile of the output, whose index has the dimensions that are not reduced.
SOURCE: mlir_codegen_backend.py:724 -/
def storeTile (kg : MLIRMultiDimTile) (nrRanges reductionDepth : ℕ) :
    Except String MLIRMultiDimTile :=
  dmaTile kg (dmaLocalDims (List.range reductionDepth) (List.range nrRanges) reductionDepth false)
    reductionDepth (nrRanges - reductionDepth) true

/-- The loops over the tiles of the reduced dimensions.
SOURCE: mlir_codegen_backend.py:913-915 -/
def reductionLoops (ranges : List ℕ) (T : MLIRMultiDimTile) (reductionDepth : ℕ) : List LoopLevel :=
  ((ranges.zip T.tileSize).drop reductionDepth).map fun p => ⟨0, p.1, p.2⟩

/-- Loops inside each other with an accumulator that the inner loop takes from the outer one.
SOURCE: mlir_codegen_backend.py:936-942 -/
def nestedFor {σ : Type} : List LoopLevel → (List ℕ → σ → σ) → σ → σ
  | [], body, acc => body [] acc
  | level :: levels, body, acc =>
    level.indices.foldl (fun acc i => nestedFor levels (fun indices => body (i :: indices)) acc) acc

/-- The slots of the last vector that lie in the buffer, where there are others.
SOURCE: mlir_codegen_backend.py:1506-1520 -/
def getMask (loop : LoopLevel) : Option (ℕ → ℕ → Bool) :=
  if loop.size % loop.step = 0 then none
  else some fun computeIdx slot => slot < loop.size - computeIdx

section

variable {M : Type} [CommMonoid M]

/-- The value in a slot, or the initial value where the slot is masked.
SOURCE: mlir_codegen_backend.py:684-686 -/
def maskedValue (loop : LoopLevel) (value : ℕ → M) (computeIdx slot : ℕ) : M :=
  match getMask loop with
  | none => value (computeIdx + slot)
  | some mask => if mask computeIdx slot then value (computeIdx + slot) else 1

/-- The compute loop over a lane's buffer.
SOURCE: mlir_codegen_backend.py:683-692 -/
def computeLoop (loop : LoopLevel) (value : ℕ → M) (acc : ℕ → M) : ℕ → M :=
  loop.indices.foldl
    (fun acc computeIdx slot => maskedValue loop value computeIdx slot * acc slot) acc

/-- SOURCE: mlir_ops.py:1157-1167 -/
def multiReduction (acc : ℕ → M) (init : M) (vecSize redSize : ℕ) : List M :=
  (List.range redSize).map fun slot =>
    init * ((List.range (vecSize / redSize)).map fun i => acc (i * redSize + slot)).prod

/-- SOURCE: mlir_codegen_backend.py:698 -/
def reductionSize (T : MLIRMultiDimTile) : ℕ := T.getNumelPerLane / T.getReductionNumel

/-- The vector that a lane stores: `value` gives, for the indices of the reduction loops, the
elements of the lane's buffer.
SOURCE: mlir_codegen_backend.py:648-713 -/
def reduction (T : MLIRMultiDimTile) (loop : LoopLevel) (levels : List LoopLevel)
    (value : List ℕ → ℕ → M) : Except String (List M) :=
  let vecLen := T.getComputeVecSize
  let acc := nestedFor levels (fun indices => computeLoop loop (value indices)) fun _ => 1
  if reductionSize T = 0 then .error "ZeroDivisionError"
  else if vecLen % reductionSize T ≠ 0 then .error "AssertionError"
  else if vecLen > reductionSize T then .ok (multiReduction acc 1 vecLen (reductionSize T))
  else .ok ((List.range (reductionSize T)).map acc)

end

end PyTorchSim.Frontend
