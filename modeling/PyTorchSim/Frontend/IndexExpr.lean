import PyTorchSim.Frontend.TileDesc

/-!
# Index expressions

An operand of a kernel may be the value of an index.  The kernel then computes, for each position of
a lane's buffer, the coordinates of the element of the tile that lies there: it takes the position
apart with the strides and sizes of a lane, and adds the lane to the coordinate along the split
axis.
-/

set_option autoImplicit false

namespace PyTorchSim.Frontend

/-- `ops.vlane_offset` adds the number of the lane times its attribute.
SOURCE: mlir_codegen_backend.py:774, 805-810 -/
def vlaneOffset (lane offset : ℕ) : ℕ := lane * offset

/-- The entry of `dim_list` for one dimension.  Positions are not negative, so `truncdiv` and
`remainder` are those of natural numbers.
SOURCE: mlir_codegen_backend.py:771-812 -/
def tileDim (T : MLIRMultiDimTile) (lane vectorIndex idx : ℕ) : ℕ :=
  let tileSizePerLane := T.getTileSizePerLane
  let strides := T.getTileStridePerLane
  let offset := T.vmap.vlaneStride
  let outerSz := T.tileSize.getD idx 0 / T.vmap.vlaneStride
  let dim := vectorIndex / strides.getD idx 0 % tileSizePerLane.getD idx 0
  if idx = T.vmap.vlaneSplitAxis then
    let strideDim := dim % T.vmap.vlaneStride
    let outerDim := dim / T.vmap.vlaneStride % outerSz
    strideDim + outerDim * T.vmap.vectorLane + vlaneOffset lane offset
  else dim

/-- SOURCE: mlir_codegen_backend.py:770-813 -/
def dimList (T : MLIRMultiDimTile) (lane vectorIndex : ℕ) : List ℕ :=
  (List.range T.getTileSizePerLane.length).map (tileDim T lane vectorIndex)

/-! ## The tiles of an index expression and of a load -/

/-- The dimensions of the tile of a buffer: those of its index, or all of them where the buffer is
broadcast.
SOURCE: mlir_codegen_backend.py:1187, 1196-1198 -/
def dmaLocalDims (indexDims totalDims : List ℕ) (reductionDepth : ℕ) (broadcast : Bool) : List ℕ :=
  if broadcast && (totalDims ≠ indexDims ||
      (reductionDepth ≠ totalDims.length && totalDims.take reductionDepth = indexDims)) then totalDims
  else indexDims

/-- The local tile with the sizes, the order and the split axis given, and the lane stride of the
kernel's tile.  It is first made without a split axis.
SOURCE: mlir_codegen_backend.py:1190, 1221-1223 -/
def localTile (kg : MLIRMultiDimTile) (tileSize : List ℕ) (axisOrder : Option (List ℕ))
    (vlaneSplitAxis : ℕ) : MLIRMultiDimTile :=
  let tile := (MLIRMultiDimTile.make [1] kg.vmap.vectorLane 1 0 none).setTileSize tileSize axisOrder
  { tile with
    vmap :=
      { tile.vmap with vlaneSplitAxis := vlaneSplitAxis, vlaneStride := kg.vmap.vlaneStride } }

/-- The tile that `get_dma_info` builds for a buffer from the tile of the kernel.
SOURCE: mlir_codegen_backend.py:1203-1261 -/
def dmaTile (kg : MLIRMultiDimTile) (localDims : List ℕ) (reductionDepth nrRdim : ℕ)
    (storeReduction : Bool) : Except String MLIRMultiDimTile :=
  let localVlaneSplitAxis :=
    if kg.vmap.vlaneSplitAxis ∈ localDims then localDims.idxOf kg.vmap.vlaneSplitAxis
    else localDims.length - 1
  let dimSizes := localDims.map fun dim => kg.tileSize.getD dim 0
  if localDims.length = 0 then
    if !storeReduction then
      .ok (localTile kg [kg.getUsedVlane * kg.vmap.vlaneStride] none localVlaneSplitAxis)
    else
      let tile := (MLIRMultiDimTile.make [1] kg.vmap.vectorLane 1 0 none).setTileSize [1] none
      .ok { tile with vmap := { tile.vmap with vlaneSplitAxis := 0, vlaneStride := 1 } }
  else if localDims.length = 1 ∧ localDims.length ≤ reductionDepth then
    .ok (localTile kg dimSizes none localVlaneSplitAxis)
  else if localDims.length = 1 ∧ localDims.length = reductionDepth + 1 then
    .ok (localTile kg (1 :: dimSizes) none (localVlaneSplitAxis + 1))
  else if localDims.length = 2 then
    let isReduction := reductionDepth = 1 && !storeReduction
    .ok (localTile kg dimSizes (if isReduction then some [1, 0] else none) localVlaneSplitAxis)
  else if localDims.length = 3 then
    let isReduction := reductionDepth < 3 && !storeReduction
    let axisOrder := if nrRdim = 1 then [1, 2, 0] else [2, 1, 0]
    .ok (localTile kg dimSizes (if isReduction then some axisOrder else none) localVlaneSplitAxis)
  else if localDims.length = 4 then
    let isReduction := reductionDepth < 3 && !storeReduction
    if isReduction then .error "Currently not implemented... ;)"
    else .ok (localTile kg dimSizes none localVlaneSplitAxis)
  else .error "Currently not implemented... ;)"

/-- The tile of a load that uses all loop dimensions. -/
def loadTile (kg : MLIRMultiDimTile) (nrRanges reductionDepth : ℕ) :
    Except String MLIRMultiDimTile :=
  let totalDims := List.range nrRanges
  dmaTile kg (dmaLocalDims totalDims totalDims reductionDepth true) reductionDepth
    (nrRanges - reductionDepth) false

end PyTorchSim.Frontend
