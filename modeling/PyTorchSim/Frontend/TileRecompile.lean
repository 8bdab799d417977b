import PyTorchSim.Frontend.TileDesc

/-!
# Recompilation of a kernel

While the nodes of a kernel are run, an access may find that the tile does not suit it.  It changes
the tile of the kernel group and raises a signal, and the nodes are run again with the changed tile.
-/

set_option autoImplicit false

namespace PyTorchSim.Frontend

/-- What the nodes of a kernel ask of the tile, in the order in which they are run: that it divides
the dimensions, for an index expression or an indirect access; or that a divisor of an index term,
or the divisor and the modulus of one, suit the size of an axis. -/
inductive TileAccess where
  | indexExpr
  | indirectIndexing
  | floorDiv (dimIdx divisor : ℕ)
  | modularIndexing (dimIdx floorDivisor modDivisor : ℕ)
  deriving DecidableEq, Repr

/-- Why a `RecompileSignal` is raised. -/
inductive RecompileReason where
  | notDividable
  | divisor
  deriving DecidableEq, Repr

/-- A signal, with the tile that it leaves to the kernel group. -/
structure RecompileSignal where
  reason : RecompileReason
  tile : MLIRMultiDimTile
  deriving DecidableEq, Repr

/-- SOURCE: mlir_codegen_backend.py:762-767, 1526-1531 -/
def checkDividable (ranges : List ℕ) (T : MLIRMultiDimTile) :
    Except String (Option RecompileSignal) := do
  let dividable ← T.isDimDividable ranges
  if !dividable then
    let (newTileSize, T) ← T.adjustTileToDivisible ranges
    return some ⟨.notDividable, T.setTileSize newTileSize none⟩
  return none

/-- The tile with a new size of one axis, which is fixed from then on.
SOURCE: mlir_codegen_backend.py:1326-1329, 1370-1373, 1393-1396 -/
def fixTileDim (T : MLIRMultiDimTile) (dimIdx newSize : ℕ) : MLIRMultiDimTile :=
  let T := T.setTileSize (T.tileSize.set dimIdx newSize) none
  { T with
    tileConstraint :=
      T.tileConstraint.set dimIdx { T.tileConstraint.getD dimIdx {} with fixed := true } }

/-- SOURCE: mlir_codegen_backend.py:1320-1337 -/
def checkFloorDiv (dimIdx divisor : ℕ) (T : MLIRMultiDimTile) : Option RecompileSignal :=
  let originalSize := T.tileSize.getD dimIdx 0
  if originalSize % divisor ≠ 0 then
    let divisor := divisor * T.vmap.vlaneStride
    let T' := fixTileDim T dimIdx ((originalSize + divisor - 1) / divisor * divisor)
    if dimIdx = T'.vmap.vlaneSplitAxis then
      some ⟨.divisor,
        { T' with vmap := { T'.vmap with vlaneSplitAxis := (dimIdx + 1) % T.tileSize.length } }⟩
    else some ⟨.divisor, T'⟩
  else none

/-- The largest size up to the original one, in steps of the floor divisor, that divides the modulus
and is a multiple of the floor divisor.
SOURCE: mlir_codegen_backend.py:1382-1391 -/
def modularTileSize (originalSize floorDivisor modDivisor : ℕ) : ℕ :=
  let candidates := (List.range originalSize).map fun steps => originalSize - steps * floorDivisor
  (candidates.find? fun newSize =>
    0 < newSize && modDivisor % newSize == 0 && newSize % floorDivisor == 0).getD
    (modDivisor * floorDivisor)

/-- SOURCE: mlir_codegen_backend.py:1362-1399 -/
def checkModularIndexing (dimIdx floorDivisor modDivisor : ℕ) (T : MLIRMultiDimTile) :
    Option RecompileSignal :=
  let currentTileSize := T.tileSize.getD dimIdx 0
  if currentTileSize % floorDivisor ≠ 0 then
    let divisor := floorDivisor * T.vmap.vlaneStride
    some ⟨.divisor, fixTileDim T dimIdx ((currentTileSize + divisor - 1) / divisor * divisor)⟩
  else if modDivisor * floorDivisor % currentTileSize ≠ 0 then
    some ⟨.divisor, fixTileDim T dimIdx (modularTileSize currentTileSize floorDivisor modDivisor)⟩
  else none

def checkAccess (ranges : List ℕ) (T : MLIRMultiDimTile) :
    TileAccess → Except String (Option RecompileSignal)
  | .indexExpr => checkDividable ranges T
  | .indirectIndexing => checkDividable ranges T
  | .floorDiv dimIdx divisor => .ok (checkFloorDiv dimIdx divisor T)
  | .modularIndexing dimIdx floorDivisor modDivisor =>
    .ok (checkModularIndexing dimIdx floorDivisor modDivisor T)

/-- The nodes are run up to the first signal.
SOURCE: mlir_common.py:845-849 -/
def runNodes (ranges : List ℕ) (T : MLIRMultiDimTile) :
    List TileAccess → Except String (Option RecompileSignal)
  | [] => .ok none
  | access :: accesses => do
    match ← checkAccess ranges T access with
    | some signal => return some signal
    | none => runNodes ranges T accesses

/-- In a recompilation `compute_tile_size` applies the constraints of the implicit dimensions again.
SOURCE: mlir_common.py:791-803 -/
def recomputeTileSize (constraints : List (List ℕ)) (ranges : List ℕ) (T : MLIRMultiDimTile) :
    MLIRMultiDimTile :=
  if constraints ≠ [] then T.applyConstraints constraints ranges else T

/-- The attempts to compile a kernel: the signals that were raised, and the tile of the attempt that
raised none; there is no such tile when the retries are used up. -/
structure CompileHistory where
  signals : List RecompileSignal
  compiled : Option MLIRMultiDimTile
  deriving DecidableEq, Repr

/-- SOURCE: mlir_common.py:817 -/
def maxRetryCompile : ℕ := 5

/-- The retry loop, with the retries that are left.  Without any the source raises "Failed to
compile kernel.".
SOURCE: mlir_common.py:818-854 -/
def compileNodes (constraints : List (List ℕ)) (ranges : List ℕ) (accesses : List TileAccess) :
    ℕ → MLIRMultiDimTile → Except String CompileHistory
  | retries, T => do
    match ← runNodes ranges T accesses with
    | none => return ⟨[], some T⟩
    | some signal =>
      match retries with
      | 0 => return ⟨[signal], none⟩
      | retries + 1 =>
        let history ← compileNodes constraints ranges accesses retries
          (recomputeTileSize constraints ranges signal.tile)
        return ⟨signal :: history.signals, history.compiled⟩

end PyTorchSim.Frontend
