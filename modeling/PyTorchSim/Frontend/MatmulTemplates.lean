import PyTorchSim.Frontend.MatmulProgram
import PyTorchSim.Frontend.TileMapping

/-!
# The templates of matrix multiplications

What the GEMM and the BMM template render for operands of given layouts, and the tiles that they
choose from, without fused nodes and without a file of tile sizes.  The output is a buffer of its
own, so its layout has no offset.
-/

set_option autoImplicit false

namespace PyTorchSim.Frontend

/-- The layout of a matrix. -/
structure MatrixLayout where
  rowStride : ℕ
  colStride : ℕ
  offset : ℕ
  deriving DecidableEq, Repr

def MatrixLayout.strides (x : MatrixLayout) : List ℕ := [x.rowStride, x.colStride]

/-- The address of an element. -/
def MatrixLayout.address (x : MatrixLayout) (i j : ℕ) : ℕ :=
  i * x.rowStride + j * x.colStride + x.offset

/-- The layout of a batch of matrices. -/
structure BatchLayout where
  batchStride : ℕ
  rowStride : ℕ
  colStride : ℕ
  offset : ℕ
  deriving DecidableEq, Repr

def BatchLayout.strides (x : BatchLayout) : List ℕ := [x.batchStride, x.rowStride, x.colStride]

/-- The address of an element. -/
def BatchLayout.address (x : BatchLayout) (b i j : ℕ) : ℕ :=
  b * x.batchStride + i * x.rowStride + j * x.colStride + x.offset

/-- The tile sizes of a candidate, and the sizes that a fine-grained DMA splits them into. -/
structure MatmulTile where
  tileM : ℕ
  tileN : ℕ
  tileK : ℕ
  subTileM : ℕ
  subTileN : ℕ
  subTileK : ℕ
  deriving DecidableEq, Repr

/-- Without prologue nodes.
SOURCE: mlir_template.py:208-279 -/
def combinationMapping (hw : SpadHardware) (padK : Bool) (M N K nExtraNode precisionBytes : ℕ) :
    List (ℕ × ℕ × ℕ) :=
  let kPadFactor := padFactor hw K (if padK then 8 else 1)
  let K := max K 8
  let mPadded := padTo M (padFactor hw M 8)
  let nPadded := padTo N (padFactor hw N 8)
  let kPadded := padTo K kPadFactor
  sortByUse
    ((tileRange hw K kPadded).flatMap fun tileK =>
      (tileRange hw M mPadded).flatMap fun tileM =>
        (tileRange hw N nPadded).filterMap fun tileN =>
          let use := gemmUse hw nExtraNode precisionBytes tileM tileN tileK
          if checkSpadSize hw use then some (use.total, tileM, tileN, tileK) else none)

/-- The DMA of an operand of the given layout, with the loops over its axes. -/
def operandDma (tileSize loops stride : List ℕ) (offset : ℕ) : DmaTile where
  tileSize := tileSize
  loops := loops
  indexList := List.zipWith loopTimes loops stride
  offset := offset

/-! ## GEMM -/

/-- The sizes and the operands of `Y = X * W + Bias`. -/
structure GemmTemplate where
  M : ℕ
  N : ℕ
  K : ℕ
  x : MatrixLayout
  w : MatrixLayout
  bias : Option MatrixLayout
  y : MatrixLayout
  y_offset : y.offset = 0
  deriving DecidableEq, Repr

/-- The templates without fused nodes. -/
inductive GemmText where
  | emptyTemplate
  | gemmTemplate (program : MatmulProgram)
  deriving DecidableEq, Repr

/-- What a kernel does. -/
def GemmText.run {R : Type} [Semiring R] (mem : MatmulMemory R) (s : MatmulState R) :
    GemmText → MatmulState R
  | .emptyTemplate => s
  | .gemmTemplate program => program.run mem s

namespace GemmTemplate

variable (t : GemmTemplate)

/-- The strides of the weight: those of the output when it has one column.
SOURCE: mlir_gemm_template.py:161 -/
def wStride : List ℕ :=
  if 1 < t.N then t.w.strides else [t.y.rowStride, 0]

/-- SOURCE: mlir_gemm_template.py:170 -/
def yStride : List ℕ :=
  if 1 < t.N then t.y.strides else [t.y.rowStride, 0]

/-- SOURCE: mlir_gemm_template.py:32-52, 119-189 -/
def program (tile : MatmulTile) : MatmulProgram where
  outerLoops := [(t.M, tile.tileM), (t.N, tile.tileN)]
  accumulationLoop := (t.K, tile.tileK)
  lead := []
  x := operandDma [tile.tileM, tile.tileK] [0, 2] t.x.strides t.x.offset
  w := operandDma [tile.tileK, tile.tileN] [2, 1] t.wStride t.w.offset
  y := operandDma [tile.tileM, tile.tileN] [0, 1] t.yStride 0
  bias := t.bias.map fun bias =>
    operandDma [tile.tileM, tile.tileN] [0, 1] bias.strides bias.offset

/-- SOURCE: mlir_gemm_template.py:112-269 -/
def render (tile : MatmulTile) : GemmText :=
  if t.M = 0 ∨ t.N = 0 ∨ t.K = 0 then .emptyTemplate else .gemmTemplate (t.program tile)

/-- The candidates of a tile.
SOURCE: mlir_gemm_template.py:338-356 -/
def subTiles (vectorLane : ℕ) (subtile : Bool) (mnk : ℕ × ℕ × ℕ) : List MatmulTile :=
  let (tileM, tileN, tileK) := mnk
  let full : MatmulTile := ⟨tileM, tileN, tileK, tileM, tileN, tileK⟩
  if subtile then
    let subTileM := if tileM < vectorLane then tileM else vectorLane
    let subTileN :=
      if tileM = t.M ∧ tileN = t.N ∧ tileN ≤ 512 then
        if tileN < vectorLane then tileN else vectorLane
      else tileN
    [full, ⟨tileM, tileN, tileK, subTileM, subTileN, tileK⟩]
  else [full]

/-- SOURCE: mlir_gemm_template.py:312-356 -/
def selectTile (hw : SpadHardware) (subtile : Bool) (precisionBytes : ℕ) : List MatmulTile :=
  let tileCandidates :=
    if t.M = 0 ∨ t.N = 0 ∨ t.K = 0 then [(1, 1, 1)]
    else combinationMapping hw true t.M t.N t.K 0 precisionBytes
  tileCandidates.flatMap (t.subTiles hw.vectorLane subtile)

end GemmTemplate

/-! ## BMM -/

/-- The sizes and the operands of a batch of products. -/
structure BmmTemplate where
  B : ℕ
  M : ℕ
  N : ℕ
  K : ℕ
  x : BatchLayout
  w : BatchLayout
  bias : Option BatchLayout
  y : BatchLayout
  y_offset : y.offset = 0
  deriving DecidableEq, Repr

namespace BmmTemplate

variable (t : BmmTemplate)

/-- The bias is loaded with the descriptor of the output.
SOURCE: mlir_bmm_template.py:33-54, 195-241 -/
def render (tile : MatmulTile) : MatmulProgram where
  outerLoops := [(t.B, 1), (t.M, tile.tileM), (t.N, tile.tileN)]
  accumulationLoop := (t.K, tile.tileK)
  lead := [0]
  x := operandDma [1, tile.tileM, tile.tileK] [0, 1, 3] t.x.strides t.x.offset
  w := operandDma [1, tile.tileK, tile.tileN] [0, 3, 2] t.w.strides t.w.offset
  y := operandDma [1, tile.tileM, tile.tileN] [0, 1, 2] t.y.strides 0
  bias := t.bias.map fun bias =>
    operandDma [1, tile.tileM, tile.tileN] [0, 1, 2] bias.strides 0

/-- SOURCE: mlir_bmm_template.py:359-367 -/
def selectTile (hw : SpadHardware) (precisionBytes : ℕ) : List MatmulTile :=
  (combinationMapping hw true t.M t.N t.K 0 precisionBytes).map fun (tileM, tileN, tileK) =>
    let subTileM := if tileM < hw.vectorLane then tileM else hw.vectorLane
    ⟨tileM, tileN, tileK, subTileM, tileN, tileK⟩

end BmmTemplate

end PyTorchSim.Frontend
