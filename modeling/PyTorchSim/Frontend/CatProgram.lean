import PyTorchSim.Frontend.CatTemplate

/-!
# The rendered concatenation kernel

What `TEMPLATE` makes of a candidate: the buffers that are declared, and for each input a copy in
the loop nest over the tiles.  A DMA moves the coordinates of its tile that lie below the bounds of
the loops over its axes.

A kernel in which a buffer is used with another type than it is declared with is not accepted.
-/

set_option autoImplicit false

namespace PyTorchSim.Frontend

open CatTemplate

/-- The part of one input. -/
structure CatCopy where
  dramName : String
  tile : List ℕ
  extent : ℕ
  tileDim : ℕ
  cumOffset : ℕ
  inputOffset : ℤ
  inputStrides : List ℤ
  inputDramStrides : List ℤ
  outputOffset : ℤ
  outputStrides : List ℤ
  outputDramStrides : List ℤ
  deriving DecidableEq, Repr

structure CatProgram where
  rank : ℕ
  dim : ℕ
  outputSizes : List ℕ
  tileSizes : List ℕ
  excluded : List ℕ
  buffers : List (String × List ℕ)
  copies : List CatCopy
  deriving DecidableEq, Repr

/-- SOURCE: mlir_cat_template.py:324-326 -/
def cumulativeOffset (t : CatTemplate) (i : ℕ) : ℕ := ((t.inputNodes.take i).map t.extent).sum

/-- The strides of the axes of a tile.
SOURCE: mlir_cat_template.py:337-354 -/
def dramStrides (rank dim : ℕ) (excluded : List ℕ) (stride : List ℤ) : List ℤ :=
  (List.range rank).filterMap fun d =>
    if d = dim then some (stride.getD d 0)
    else if tileIdx dim d ∈ excluded then none
    else some (stride.getD d 0)

/-- SOURCE: mlir_cat_template.py:80-130 -/
def renderCat (t : CatTemplate) (kernel : CatKernel) (tileInfo : List ℕ) : CatProgram :=
  let (excluded, tileSizes) := computeExcludedDims tileInfo
  let shares := t.calculateInputTileSizes kernel tileSizes
  let copy (i : ℕ) (x : CatInput) : CatCopy := {
    dramName := x.name
    tile := tileShape t.rank t.dim excluded tileSizes (shares.getD i 0)
    extent := t.extent x
    tileDim := shares.getD i 0
    cumOffset := cumulativeOffset t i
    inputOffset := x.offset
    inputStrides := (List.range t.rank).map fun d => x.stride.getD d 0
    inputDramStrides := dramStrides t.rank t.dim excluded x.stride
    outputOffset := t.outputNode.offset
    outputStrides := (List.range t.rank).map fun d => t.outputNode.stride.getD d 0
    outputDramStrides := dramStrides t.rank t.dim excluded t.outputNode.stride }
  { rank := t.rank
    dim := t.dim
    outputSizes := t.outputSizes
    tileSizes := tileSizes
    excluded := excluded
    buffers := uniqueTileDescs (t.inputTiles kernel tileInfo)
    copies := t.inputNodes.mapIdx copy }

namespace CatProgram

/-- Every use of a buffer has the type that the buffer is declared with. -/
def wellTyped (p : CatProgram) : Bool :=
  p.copies.all fun copy => p.buffers.lookup copy.dramName = some copy.tile

/-- The axes of a tile. -/
def tiledAxes (p : CatProgram) : List ℕ :=
  (List.range p.rank).filter fun d => d = p.dim ∨ tileIdx p.dim d ∉ p.excluded

/-- `affine.for %i = 0 to size step step` -/
def loopRange (size step : ℕ) : List ℕ := (List.range (size ⌈/⌉ step)).map (· * step)

def dot (strides : List ℤ) (coords : List ℕ) : ℤ :=
  (List.zipWith (fun (s : ℤ) (c : ℕ) => s * c) strides coords).sum

/-- The loop variable of an axis: `index_local` for the concatenated one. -/
def loopValue (p : CatProgram) (index : List ℕ) (indexLocal d : ℕ) : ℕ :=
  if d = p.dim then indexLocal else index.getD (tileIdx p.dim d) 0

def loopBound (p : CatProgram) (copy : CatCopy) (d : ℕ) : ℕ :=
  if d = p.dim then copy.extent else p.outputSizes.getD (tileIdx p.dim d) 0

/-- The coordinates of the tile that a DMA moves. -/
def moved (p : CatProgram) (copy : CatCopy) (index : List ℕ) (indexLocal : ℕ) : List (List ℕ) :=
  product (List.zipWith (fun size d =>
    List.range (min size (p.loopBound copy d - p.loopValue index indexLocal d)))
    copy.tile p.tiledAxes)

/-- SOURCE: mlir_cat_template.py:30 -/
def inputDramOffset (p : CatProgram) (copy : CatCopy) (index : List ℕ) (indexLocal : ℕ) : ℤ :=
  dot copy.inputStrides ((List.range p.rank).map (p.loopValue index indexLocal)) + copy.inputOffset

/-- SOURCE: mlir_cat_template.py:29, 31 -/
def outputDramOffset (p : CatProgram) (copy : CatCopy) (index : List ℕ) (indexLocal : ℕ) : ℤ :=
  dot copy.outputStrides
    ((List.range p.rank).map (p.loopValue index (indexLocal + copy.cumOffset))) +
    copy.outputOffset

end CatProgram

/-- The buffers of the scratchpad, and the memory of the output. -/
structure CatState (α : Type) where
  spad : String → List ℕ → α
  y : ℤ → α

namespace CatProgram

variable {α : Type}

/-- The two DMAs of a copy: a tile of the input is loaded, and stored to the output.
SOURCE: mlir_cat_template.py:32-33 -/
def copyTile (p : CatProgram) (dram : String → ℤ → α) (copy : CatCopy) (index : List ℕ)
    (s : CatState α) (indexLocal : ℕ) : CatState α :=
  let coords := p.moved copy index indexLocal
  let tile := coords.foldl (fun tile c => Function.update tile c
    (dram copy.dramName (p.inputDramOffset copy index indexLocal + dot copy.inputDramStrides c)))
    (s.spad copy.dramName)
  let y := coords.foldl (fun y c => Function.update y
    (p.outputDramOffset copy index indexLocal + dot copy.outputDramStrides c) (tile c)) s.y
  ⟨Function.update s.spad copy.dramName tile, y⟩

/-- SOURCE: mlir_cat_template.py:22-39 -/
def run (p : CatProgram) (dram : String → ℤ → α) (s : CatState α) : CatState α :=
  (product (List.zipWith loopRange p.outputSizes p.tileSizes)).foldl (fun s index =>
    p.copies.foldl (fun s copy =>
      (loopRange copy.extent copy.tileDim).foldl (p.copyTile dram copy index) s) s) s

end CatProgram

end PyTorchSim.Frontend
