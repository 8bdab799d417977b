import Mathlib.Algebra.Order.Field.Rat
import PyTorchSim.Frontend.TileDesc

/-!
# Trimming the tail of a tile

A dimension that the tile does not divide is padded.  Where the padding is too large a share of it,
the code searches the smaller sizes for one that costs less: the padding, and a penalty for the
number of iterations.

Costs and ratios are exact here.
-/

set_option autoImplicit false

namespace PyTorchSim.Frontend

/-- SOURCE: mlir_common.py:506-512 -/
def getPaddingRatio (tileRange dimRange : ℕ) : Except String ℚ :=
  if tileRange ≤ 0 ∨ dimRange ≤ 0 then
    .error "tile_range and dim_range must be positive integers"
  else
    let tail := dimRange % tileRange
    let padding := (tileRange - tail) % tileRange
    .ok (padding / dimRange)

/-- SOURCE: mlir_common.py:520-533 -/
def TileConstraint.adjust (constraint : TileConstraint) (old new dim : ℕ) : Except String ℕ :=
  if constraint.fixed then .ok old
  else
    let new := new - new % constraint.multipleOf
    if !constraint.mustDivideDim then .ok (max new constraint.multipleOf)
    else
      -- `new` and what is left after each multiple taken away, down to 0
      let candidates := (List.range (new / constraint.multipleOf)).map fun steps =>
        new - steps * constraint.multipleOf
      match candidates.find? fun candidate => dim % candidate == 0 with
      | some candidate => .ok candidate
      | none => .error "Cannot find suitable tile size under the given constraints."

namespace MLIRMultiDimTile

/-- SOURCE: mlir_common.py:317 -/
def tailRatioThreshold : ℚ := 1 / 100

/-- The best size so far, and its cost. -/
structure BestTile where
  size : ℕ
  cost : ℚ
  deriving DecidableEq

/-- The weights are `ALPHA = 1` and `BETA`.
SOURCE: mlir_common.py:433-443 -/
def tileCost (beta : ℚ) (tileRange dimRange : ℕ) : Except String ℚ := do
  let ratio ← getPaddingRatio tileRange dimRange
  return 1 * ratio + beta * (dimRange / tileRange)

/-- SOURCE: mlir_common.py:438-445 -/
def tryCandidate (constraint : TileConstraint) (beta : ℚ) (tileRange dimRange : ℕ)
    (best : BestTile) (candidate : ℕ) : Except String BestTile := do
  let newCandidate ← constraint.adjust tileRange candidate dimRange
  let cost ← tileCost beta newCandidate dimRange
  return if cost < best.cost then ⟨newCandidate, cost⟩ else best

/-- SOURCE: mlir_common.py:420-446 -/
def trimAxis (constraint : TileConstraint) (dimRange tileRange : ℕ) : Except String ℕ :=
  if constraint.fixed then .ok tileRange
  else do
    let beta : ℚ := if constraint.mustDivideDim then 0 else 1 / 2
    let paddingRatio ← getPaddingRatio tileRange dimRange
    if paddingRatio < tailRatioThreshold then return tileRange
    let best ← ((List.range' 1 (tileRange - 1)).reverse).foldlM
      (tryCandidate constraint beta tileRange dimRange)
      ⟨tileRange, 1 * paddingRatio + beta * (dimRange / tileRange)⟩
    return best.size

/-- An axis is read before it is written, and each one once.
SOURCE: mlir_common.py:418-446 -/
def trimLargeTail (T : MLIRMultiDimTile) (ranges : List ℕ) : Except String MLIRMultiDimTile :=
  ((List.range ranges.length).zip (ranges.zip T.tileSize)).foldlM
    (fun tile axis => do
      let size ← trimAxis (T.tileConstraint.getD axis.1 {}) axis.2.1 axis.2.2
      return { tile with tileSize := tile.tileSize.set axis.1 size }) T

end MLIRMultiDimTile

end PyTorchSim.Frontend
