import Mathlib.Algebra.Order.Floor.Div
import Mathlib.Data.List.Sort

/-!
# Tile descriptors

A kernel works on a tile of its iteration space at a time.  The descriptor of a tile holds the size
of each of its axes, the order in which the axes lie in the scratchpad, and the axis along which the
tile is divided over the vector lanes.

The sizes are those of tensors that fit in memory, on which `math.ceil(a / b)` is the ceiling of the
quotient.  An axis that is not one of the tile's raises an exception in the source; here it has size
0, and the results below are about tiles whose split axis is one of theirs.
-/

set_option autoImplicit false

namespace PyTorchSim.Frontend

/-- SOURCE: mlir_common.py:510-515 -/
structure TileConstraint where
  multipleOf : ℕ := 1
  mustDivideDim : Bool := false
  fixed : Bool := false
  deriving DecidableEq, Repr

/-! ## The vector lane mapping -/

/-- SOURCE: mlir_common.py:256-261 -/
structure VectorLaneMapping where
  vectorLane : ℕ
  forcedVecSize : Option ℕ
  vlaneSplitAxis : ℕ
  vlaneStride : ℕ
  deriving DecidableEq, Repr

namespace VectorLaneMapping

/-- SOURCE: mlir_common.py:263-267 -/
def getUsedVlane (v : VectorLaneMapping) (tileSize : List ℕ) : ℕ :=
  min (tileSize.getD v.vlaneSplitAxis 0 ⌈/⌉ v.vlaneStride) v.vectorLane

/-- SOURCE: mlir_common.py:269-275 -/
def getTileSizePerLane (v : VectorLaneMapping) (tileSize : List ℕ) : List ℕ :=
  tileSize.set v.vlaneSplitAxis
    (tileSize.getD v.vlaneSplitAxis 0 ⌈/⌉ v.getUsedVlane tileSize)

/-- SOURCE: mlir_common.py:277-278 -/
def getNumelPerLane (v : VectorLaneMapping) (tileSize : List ℕ) : ℕ :=
  (v.getTileSizePerLane tileSize).prod

/-- The loop compares each stride with that of the split axis, which it never changes.
SOURCE: mlir_common.py:280-289 -/
def getTileStridePerLane (v : VectorLaneMapping) (tileSize tileStride : List ℕ) : List ℕ :=
  let coeff := tileSize.getD v.vlaneSplitAxis 0 /
    (v.getTileSizePerLane tileSize).getD v.vlaneSplitAxis 0
  tileStride.map fun stride =>
    if tileStride.getD v.vlaneSplitAxis 0 < stride then stride / coeff else stride

/-- The first of the multiples `val * 8`, `val * 4`, `val * 2` that the test accepts, or `val`.
SOURCE: mlir_common.py:295-300, 310-313 -/
def firstMultiple (fits : ℕ → Bool) (val : ℕ) : ℕ :=
  match [8, 4, 2].find? fits with
  | some mult => val * mult
  | none => val

/-- SOURCE: mlir_common.py:291-313 -/
def getComputeVecSize (v : VectorLaneMapping) (tileSize : List ℕ) (reductionNumel nrRdim : ℕ) : ℕ :=
  let perLane := v.getNumelPerLane tileSize
  if nrRdim ≠ 0 then
    let val := perLane / max reductionNumel 1
    let result := firstMultiple (fun mult => val * mult ≤ perLane) val
    match v.forcedVecSize with
    | none => result
    | some forced =>
      let capped := min result forced / max val 1 * max val 1
      max capped val
  else
    match v.forcedVecSize with
    | some forced => forced
    | none => firstMultiple (fun mult => mult ≤ perLane / v.vlaneStride) v.vlaneStride

end VectorLaneMapping

/-! ## The strides of a tile -/

/-- The axes from the innermost to the outermost, each with its size.
SOURCE: mlir_common.py:578-582 -/
def sortedPairs (tileAxisOrder tileSize : List ℕ) : List (ℕ × ℕ × ℕ) :=
  (tileAxisOrder.zip (tileSize.zip (List.range tileAxisOrder.length))).insertionSort
    (fun a b => b.1 ≤ a.1)

/-- The body of the loop that gives each axis the product of the sizes of those inside it.
SOURCE: mlir_common.py:583-585 -/
def placeStride (acc : List ℕ × ℕ) (pair : ℕ × ℕ × ℕ) : List ℕ × ℕ :=
  (acc.1.set pair.2.2 acc.2, acc.2 * pair.2.1)

/-- SOURCE: mlir_common.py:574-586 -/
def tileStrides (tileAxisOrder tileSize : List ℕ) : List ℕ :=
  ((sortedPairs tileAxisOrder tileSize).foldl placeStride
    (List.replicate tileSize.length 1, 1)).1

/-! ## The tile descriptor -/

/-- SOURCE: mlir_common.py:535-556 -/
structure MLIRMultiDimTile where
  tileSize : List ℕ
  tileStride : List ℕ
  tileConstraint : List TileConstraint
  tileAxisOrder : List ℕ
  vmap : VectorLaneMapping
  nrRdim : ℕ
  deriving DecidableEq, Repr

/-- The two ways to divide an axis.
SOURCE: mlir_common.py:319 -/
inductive DivisorMode where
  | pad
  | split
  deriving DecidableEq, Repr

namespace MLIRMultiDimTile

/-- SOURCE: mlir_common.py:536-556 -/
def make (tileSize : List ℕ) (vectorLane vlaneSplitAxis vlaneStride : ℕ)
    (forcedVecSize : Option ℕ) : MLIRMultiDimTile where
  tileSize := tileSize
  tileStride := tileStrides (List.range tileSize.length) tileSize
  tileConstraint := (List.range tileSize.length).map fun idx =>
    { multipleOf := if idx = vlaneSplitAxis then vlaneStride else 1 }
  tileAxisOrder := List.range tileSize.length
  vmap := ⟨vectorLane, forcedVecSize, vlaneSplitAxis, vlaneStride⟩
  nrRdim := 0

/-- SOURCE: mlir_common.py:574-586 -/
def updateTileStride (T : MLIRMultiDimTile) : MLIRMultiDimTile :=
  { T with tileStride := tileStrides T.tileAxisOrder T.tileSize }

/-- SOURCE: mlir_common.py:565-568 -/
def setTileSize (T : MLIRMultiDimTile) (tileSize : List ℕ) (tileAxisOrder : Option (List ℕ)) :
    MLIRMultiDimTile :=
  updateTileStride
    { T with
      tileSize := tileSize
      tileAxisOrder := tileAxisOrder.getD (List.range tileSize.length) }

/-- SOURCE: mlir_common.py:597 -/
def getUsedVlane (T : MLIRMultiDimTile) : ℕ := T.vmap.getUsedVlane T.tileSize

/-- SOURCE: mlir_common.py:596 -/
def getTileSizePerLane (T : MLIRMultiDimTile) : List ℕ := T.vmap.getTileSizePerLane T.tileSize

/-- SOURCE: mlir_common.py:598 -/
def getNumelPerLane (T : MLIRMultiDimTile) : ℕ := T.vmap.getNumelPerLane T.tileSize

/-- SOURCE: mlir_common.py:599 -/
def getTileStridePerLane (T : MLIRMultiDimTile) : List ℕ :=
  T.vmap.getTileStridePerLane T.tileSize T.tileStride

/-- The product of the last `nrRdim` sizes.  The slice `[-0:]` is the whole list.
SOURCE: mlir_common.py:563 -/
def getReductionNumel (T : MLIRMultiDimTile) : ℕ :=
  (if T.nrRdim = 0 then T.tileSize else T.tileSize.drop (T.tileSize.length - T.nrRdim)).prod

/-- SOURCE: mlir_common.py:600 -/
def getComputeVecSize (T : MLIRMultiDimTile) : ℕ :=
  T.vmap.getComputeVecSize T.tileSize T.getReductionNumel T.nrRdim

/-- The sum `old_order_val + 0.1` lies between the place of the old axis and the next one, so the
places are counted in tenths.
SOURCE: mlir_common.py:337-343 -/
def splitAxisOrder (tileAxisOrder : List ℕ) (axis : ℕ) : List ℕ :=
  let oldOrderVal := tileAxisOrder.getD axis 0
  let newOrder := (tileAxisOrder.map (10 * ·)).insertIdx (axis + 1) (10 * oldOrderVal + 1)
  (((List.range newOrder.length).zip newOrder).insertionSort (fun a b => a.2 ≤ b.2)).map Prod.fst

/-- SOURCE: mlir_common.py:319-352 -/
def applyDivisor (T : MLIRMultiDimTile) (axis divisor : ℕ) (mode : DivisorMode) :
    MLIRMultiDimTile :=
  let oldSize := T.tileSize.getD axis 0
  if divisor ≤ 1 then T
  else
    let padded := oldSize ⌈/⌉ divisor * divisor
    let outer := oldSize ⌈/⌉ divisor
    let inner := divisor
    match mode with
    | .pad => updateTileStride { T with tileSize := T.tileSize.set axis padded }
    | .split =>
      let T := updateTileStride
        { T with
          tileSize := (T.tileSize.set axis outer).insertIdx (axis + 1) inner
          tileAxisOrder := splitAxisOrder T.tileAxisOrder axis }
      if axis < T.vmap.vlaneSplitAxis then
        { T with vmap := { T.vmap with vlaneSplitAxis := T.vmap.vlaneSplitAxis + 1 } }
      else T

/-- The sizes with that of the split axis rounded up to the lane stride.
SOURCE: mlir_common.py:358-362 -/
def roundedDims (T : MLIRMultiDimTile) (dimSizes : List ℕ) : List ℕ :=
  let remain := dimSizes.getD T.vmap.vlaneSplitAxis 0 % T.vmap.vlaneStride
  if remain ≠ 0 then
    dimSizes.set T.vmap.vlaneSplitAxis
      (dimSizes.getD T.vmap.vlaneSplitAxis 0 + (T.vmap.vlaneStride - remain))
  else dimSizes

/-- SOURCE: mlir_common.py:354-364 -/
def isDimDividable (T : MLIRMultiDimTile) (dimSizes : List ℕ) : Except String Bool :=
  if dimSizes.length ≠ T.tileSize.length then
    .error "dim_sizes must match the tile size dimensions"
  else .ok (((T.roundedDims dimSizes).zip T.tileSize).all fun p => p.1 % p.2 == 0)

/-- The largest candidate up to the tile size that divides the dimension.
SOURCE: mlir_common.py:371-375 -/
def adjustOne (dimSize tileSize : ℕ) : ℕ :=
  ((List.range' 1 tileSize).reverse.find? (fun candidate => dimSize % candidate == 0)).getD 1

/-- The candidate sizes, and the tile with its constraints and its lane stride changed; the sizes of
the tile itself are left to the caller.
SOURCE: mlir_common.py:366-387 -/
def adjustTileToDivisible (T : MLIRMultiDimTile) (dimSizes : List ℕ) :
    Except String (List ℕ × MLIRMultiDimTile) :=
  if dimSizes.length ≠ T.tileSize.length then
    .error "dim_sizes must match the tile size dimensions"
  else
    let candidateTileSize := List.zipWith adjustOne dimSizes T.tileSize
    let T :=
      { T with tileConstraint := T.tileConstraint.map fun c => { c with mustDivideDim := true } }
    let remain := candidateTileSize.getD T.vmap.vlaneSplitAxis 0 % T.vmap.vlaneStride
    if remain ≠ 0 then
      .ok (candidateTileSize, { T with vmap := { T.vmap with vlaneStride := 1 } })
    else .ok (candidateTileSize, T)

/-- SOURCE: mlir_common.py:458-463 -/
def padVlaneTile (T : MLIRMultiDimTile) : MLIRMultiDimTile :=
  let size := T.tileSize.getD T.vmap.vlaneSplitAxis 0
  let usedVlane := min (size ⌈/⌉ T.vmap.vlaneStride) T.vmap.vectorLane
  let paddedSize := usedVlane * T.vmap.vlaneStride
  { T with tileSize := T.tileSize.set T.vmap.vlaneSplitAxis (size ⌈/⌉ paddedSize * paddedSize) }

/-- One divider of the constraints of an axis.
SOURCE: mlir_common.py:467-476 -/
def applyDivider (T : MLIRMultiDimTile) (idx divider : ℕ) : MLIRMultiDimTile :=
  if divider = 1 then T
  else
    let constraint := T.tileConstraint.getD idx {}
    if !constraint.fixed then
      { T with
        tileConstraint := T.tileConstraint.set idx { constraint with fixed := true }
        tileSize := T.tileSize.set idx divider }
    else if divider < T.tileSize.getD idx 0 then
      { T with tileSize := T.tileSize.set idx divider }
    else T

/-- The constraints of an axis are the dividers of its terms, in the order in which the set gives
them; `zip` stops at the last range.
SOURCE: mlir_common.py:465-477 -/
def applyConstraints (T : MLIRMultiDimTile) (constraints : List (List ℕ)) (ranges : List ℕ) :
    MLIRMultiDimTile :=
  (((List.range constraints.length).zip (constraints.zip ranges)).foldl
    (fun T entry => entry.2.1.foldl (fun T divider => T.applyDivider entry.1 divider) T)
    T).updateTileStride

end MLIRMultiDimTile

end PyTorchSim.Frontend
