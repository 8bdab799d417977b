import PyTorchSim.Frontend.TensorOps
import PyTorchSim.Frontend.TileDesc

/-!
# The concatenation template

The kernel of a concatenation copies the inputs tile by tile, through one buffer for each distinct
input.  A tile has the candidate's sizes on the axes that are not concatenated, and a share of the
scratchpad on the one that is.

The sizes are those of tensors that fit in memory, on which `math.ceil(a / b)` is the ceiling of the
quotient.
-/

set_option autoImplicit false

namespace PyTorchSim.Frontend

structure ElementType where
  name : String
  nbytes : ℕ
  deriving DecidableEq, Repr

/-- What the template reads of an input: its buffer, and the view of the buffer. -/
structure CatInput where
  name : String
  dtype : ElementType
  sizes : List ℕ
  stride : List ℤ
  offset : ℤ
  deriving DecidableEq, Repr

structure CatTemplate where
  inputNodes : List CatInput
  outputNode : CatInput
  dim : ℕ
  deriving DecidableEq, Repr

structure CatKernel where
  vectorLane : ℕ
  spadSize : ℕ
  deriving DecidableEq, Repr

/-- `itertools.product` -/
def product : List (List ℕ) → List (List ℕ)
  | [] => [[]]
  | l :: ls => l.flatMap fun a => (product ls).map (a :: ·)

namespace CatTemplate

def rank (t : CatTemplate) : ℕ := t.outputNode.sizes.length

def numInputs (t : CatTemplate) : ℕ := t.inputNodes.length

/-- The sizes of the axes that are not concatenated. -/
def outputSizes (t : CatTemplate) : List ℕ := t.outputNode.sizes.eraseIdx t.dim

/-- The extent of an input on the axis that is concatenated. -/
def extent (t : CatTemplate) (x : CatInput) : ℕ := x.sizes.getD t.dim 0

/-- SOURCE: mlir_cat_template.py:168-181 -/
def dimTileCandidates (kernel : CatKernel) (maxTileTotal dimSize : ℕ) : List ℕ :=
  let maxTile := min dimSize maxTileTotal
  let multiples := (List.range' 1 (maxTile / kernel.vectorLane)).map (· * kernel.vectorLane)
  let powers := if 0 < maxTile then (List.range (Nat.log2 maxTile + 1)).map (2 ^ ·) else []
  let dividing := (multiples ++ powers).filter fun t => t ≤ dimSize ∧ dimSize % t = 0
  ((dividing ++ [dimSize]).dedup.insertionSort (· ≤ ·)).take 5

/-- The combinations that are taken to fit.
SOURCE: mlir_cat_template.py:164-189 -/
def fittingTiles (t : CatTemplate) (kernel : CatKernel) : List (List ℕ) :=
  let precisionBytes := t.outputNode.dtype.nbytes
  let maxTileTotal :=
    kernel.spadSize / (kernel.vectorLane * precisionBytes * 2 * t.numInputs)
  (product (t.outputSizes.map (dimTileCandidates kernel maxTileTotal))).filter fun combo =>
    combo.prod * (t.numInputs + 1) * precisionBytes ≤ kernel.spadSize * kernel.vectorLane

/-- SOURCE: mlir_cat_template.py:141-195 -/
def getTileCandidates (t : CatTemplate) (kernel : CatKernel) :
    Except TorchError (List (List ℕ)) :=
  if t.inputNodes.any fun x => x.dtype ≠ t.outputNode.dtype then .error .notImplementedError
  else if t.outputSizes = [] then .ok [[1]]
  else
    let fitting := t.fittingTiles kernel
    let candidates := if fitting = [] then [List.replicate t.outputSizes.length 1] else fitting
    .ok ((candidates.insertionSort fun a b => b.prod ≤ a.prod).take 4)

/-- The axes whose tiles are left out, and the sizes with those axes set to 1.
SOURCE: mlir_cat_template.py:201-210 -/
def computeExcludedDims (tileSizes : List ℕ) : List ℕ × List ℕ :=
  let maxTiled := 3
  if tileSizes.length ≤ maxTiled then ([], tileSizes)
  else
    let sortedDims := tileSizes.zipIdx.insertionSort fun a b => b.1 ≤ a.1
    let excluded := (sortedDims.drop maxTiled).map Prod.snd
    (excluded, excluded.foldl (fun sizes idx => sizes.set idx 1) tileSizes)

/-- The loop over the inputs: each takes what it can of the rest, and 1 when nothing is left.
SOURCE: mlir_cat_template.py:218-225 -/
def shareExtents (extraConcat : ℤ) : List ℕ → List ℕ
  | [] => []
  | extent :: extents =>
    if 0 < extraConcat then
      let tileDim := min extent extraConcat.toNat
      tileDim :: shareExtents (extraConcat - tileDim) extents
    else 1 :: shareExtents extraConcat extents

/-- What is left of half of the scratchpad, in elements along the concatenated axis.
SOURCE: mlir_cat_template.py:214-216 -/
def extraConcat (t : CatTemplate) (kernel : CatKernel) (tileSizes : List ℕ) : ℤ :=
  let maxSpadPerInput := kernel.spadSize * kernel.vectorLane / 2
  (maxSpadPerInput ⌈/⌉ (tileSizes.prod * t.outputNode.dtype.nbytes) : ℕ) - t.numInputs

/-- SOURCE: mlir_cat_template.py:212-226 -/
def calculateInputTileSizes (t : CatTemplate) (kernel : CatKernel) (tileSizes : List ℕ) :
    List ℕ :=
  shareExtents (t.extraConcat kernel tileSizes) (t.inputNodes.map t.extent)

/-- The position of an axis among those that are not concatenated. -/
def tileIdx (dim d : ℕ) : ℕ := if d < dim then d else d - 1

/-- The axes of a tile that are not concatenated: those that are not left out. -/
def tiledSizes (excluded tileSizes : List ℕ) : List ℕ :=
  (List.range tileSizes.length).filterMap fun idx =>
    if idx ∈ excluded then none else some (tileSizes.getD idx 0)

/-- The sizes of the tile of an input, one for each axis that is not left out.
SOURCE: mlir_cat_template.py:259-267 -/
def tileShape (rank dim : ℕ) (excluded tileSizes : List ℕ) (tileDim : ℕ) : List ℕ :=
  (List.range rank).filterMap fun d =>
    if d = dim then some tileDim
    else if tileIdx dim d ∈ excluded then none
    else some (tileSizes.getD (tileIdx dim d) 0)

/-- The tiles of the inputs, with the names of their buffers.
SOURCE: mlir_cat_template.py:80-92, 256-272 -/
def inputTiles (t : CatTemplate) (kernel : CatKernel) (tileInfo : List ℕ) :
    List (String × List ℕ) :=
  let (excluded, tileSizes) := computeExcludedDims tileInfo
  List.zipWith (fun x tileDim => (x.name, tileShape t.rank t.dim excluded tileSizes tileDim))
    t.inputNodes (t.calculateInputTileSizes kernel tileSizes)

/-- The first tile of each buffer.
SOURCE: mlir_cat_template.py:273-276 -/
def uniqueTileDescs (tiles : List (String × List ℕ)) : List (String × List ℕ) :=
  tiles.foldl (fun unique tile =>
    if unique.any (fun u => u.1 = tile.1) then unique else unique ++ [tile]) []

/-- The elements a lane holds of a buffer.
SOURCE: mlir_codegen_backend.py:1444-1450 and mlir_cat_template.py:246-251 -/
def bufferSizePerLane (kernel : CatKernel) (tileSize : List ℕ) : ℕ :=
  let vmap : VectorLaneMapping := ⟨kernel.vectorLane, none, tileSize.length - 1, 1⟩
  max (vmap.getNumelPerLane tileSize) 2

/-- The bytes a lane holds of all buffers. -/
def spadBytesPerLane (t : CatTemplate) (kernel : CatKernel) (tileInfo : List ℕ) : ℕ :=
  ((uniqueTileDescs (t.inputTiles kernel tileInfo)).map fun tile =>
    bufferSizePerLane kernel tile.2).sum * t.outputNode.dtype.nbytes

end CatTemplate

end PyTorchSim.Frontend
