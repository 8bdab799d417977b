import PyTorchSim.Frontend.TileDesc

/-!
# The compute loop of a pointwise kernel

The compute loop walks over the elements of a lane's buffer, a vector at a time.  The vector size
comes from the tile and is capped where a buffer has a narrow float type; the loads and stores are
those of whole vectors.
-/

set_option autoImplicit false

namespace PyTorchSim.Frontend

/-- SOURCE: mlir_common.py:44-55 -/
inductive Dtype where
  | float32
  | float64
  | float16
  | int64
  | int32
  | int16
  | int8
  | uint8
  | bool
  | bfloat16
  deriving DecidableEq, Repr

/-- The bits of the MLIR type.
SOURCE: mlir_common.py:44-55, 82-93 -/
def Dtype.bits : Dtype → ℕ
  | .float64 | .int64 => 64
  | .float32 | .int32 => 32
  | .float16 | .bfloat16 | .int16 => 16
  | .int8 | .uint8 | .bool => 8

/-- SOURCE: mlir_common.py:105-108 -/
def DTYPE_LOWP_FP : List Dtype := [.bfloat16, .float16]

/-- SOURCE: mlir_common.py:1104-1120 -/
def widenSafeCap (vlen : ℕ) (bufferTypes : List Dtype) : Option ℕ :=
  let lowpBits := (bufferTypes.filter (· ∈ DTYPE_LOWP_FP)).map Dtype.bits
  match lowpBits.min? with
  | none => none
  | some minLowpBits => some (vlen / minLowpBits)

/-- SOURCE: mlir_common.py:1091-1126 -/
def getSafeVecSize (vlen : ℕ) (bufferTypes : List Dtype) (defaultVecSize : ℕ) : ℕ :=
  match widenSafeCap vlen bufferTypes with
  | none => defaultVecSize
  | some cap => if cap = 0 then defaultVecSize else min defaultVecSize cap

/-- SOURCE: mlir_common.py:1129-1146 -/
structure LoopLevel where
  start : ℕ
  size : ℕ
  step : ℕ
  deriving DecidableEq, Repr

namespace LoopLevel

/-- The values of the loop variable of `affine.for start to size step step`. -/
def indices (loop : LoopLevel) : List ℕ :=
  List.range' loop.start ((loop.size - loop.start) ⌈/⌉ loop.step) loop.step

/-- The elements of a buffer that the loads and stores of the loop touch.  They have no mask: only a
reduction and a template ask for one.
SOURCE: mlir_ops.py:1244-1276 -/
def accesses (loop : LoopLevel) (vecSize : ℕ) : List ℕ :=
  loop.indices.flatMap fun computeIdx => List.range' computeIdx vecSize

end LoopLevel

/-- What `codegen_nodes` sets up for the compute loop before it runs the nodes.
SOURCE: mlir_common.py:827-844 -/
def prepareComputeLoop (vlen : ℕ) (bufferTypes : List Dtype) (T : MLIRMultiDimTile) :
    Except String (MLIRMultiDimTile × LoopLevel) :=
  let safeVecSize := getSafeVecSize vlen bufferTypes T.getComputeVecSize
  let T := { T with vmap := { T.vmap with forcedVecSize := some safeVecSize } }
  let computeVec := T.getComputeVecSize
  if computeVec > 1 ∧ computeVec &&& (computeVec - 1) ≠ 0 then
    .error s!"Non-power-of-2 compute_vec_size {computeVec}: tile rejected
      (RVV requires power-of-2 LMUL)"
  else .ok (T, ⟨0, T.getNumelPerLane, computeVec⟩)

end PyTorchSim.Frontend
