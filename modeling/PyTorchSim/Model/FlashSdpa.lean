import Mathlib.Algebra.BigOperators.Group.Finset.Basic
import Mathlib.Algebra.Order.Field.Basic
import Mathlib.Data.Fin.VecNotation

/-!
# The flash attention kernel

The loop nest that `FLASH_SDPA_TEMPLATE` renders, over an ordered field with a function `exp`.
A tensor in the DRAM is a function of head, row and column: the offset maps and the strides of
the DMA operations address the element by the layout of the tensor.  A buffer of the scratchpad
is a function of the lane and of the position in the part of that lane; the tiles of `query`,
`out`, `mul`, `max` and `sum` are split along the query rows, so a lane holds one of them.
-/

set_option autoImplicit false

namespace PyTorchSim.Model

open Finset

/-- `affine.for` with its `iter_args`. -/
def affineFor {σ : Type} (lo hi step : ℕ) (init : σ) (body : ℕ → σ → σ) : σ :=
  (List.range' lo ((hi - lo + step - 1) / step) step).foldl (fun s i => body i s) init

section

variable {α : Type} [Field α] [LinearOrder α]

/-- A tensor in the DRAM: head, row, column. -/
abbrev DramTensor (α : Type) := ℕ → ℕ → ℕ → α

/-- A buffer of the scratchpad: lane, position. -/
abbrev SpadBuffer (α : Type) := ℕ → ℕ → α

/-- `affine.vector_store` of `size` elements at the start of the part of each lane. -/
def vectorStore (size : ℕ) (value : SpadBuffer α) (buffer : SpadBuffer α) : SpadBuffer α :=
  fun lane i => if i < size then value lane i else buffer lane i

/-- The tile that a load brings in: rows from `row` on, columns from `col` on, and 0 behind the
rows of the tensor.
SOURCE: mlir_sdpa_template.py:202-204, 216-219 -/
def mvin (tensor : DramTensor α) (rows head row col : ℕ) : ℕ → ℕ → α :=
  fun i j => if row + i < rows then tensor head (row + i) (col + j) else 0

/-- The tensor after a tile of `tileL` rows and `tileE` columns is stored; rows behind the
tensor are not written.
SOURCE: mlir_sdpa_template.py:316-317 -/
def mvout (tile : SpadBuffer α) (tileL tileE rows head row col : ℕ) (tensor : DramTensor α) :
    DramTensor α :=
  fun h r c =>
    if h = head ∧ row ≤ r ∧ r < row + tileL ∧ r < rows ∧ col ≤ c ∧ c < col + tileE then
      tile (r - row) (c - col)
    else tensor h r c

/-- SOURCE: mlir_template.py:1005-1007 -/
def getSpadSizePerLane (vectorLane tileM tileN : ℕ) : ℕ :=
  max (tileM * ((tileN + vectorLane - 1) / vectorLane)) 2

/-- SOURCE: mlir_sdpa_template.py:441 -/
def chunkSize : ℕ := 16

/-- A vector of two elements with its elements exchanged (`vector.shuffle`). -/
def shuffle2 (v : Fin 2 → α) : Fin 2 → α := ![v 1, v 0]

/-- `vector.shape_cast` of a chunk to rows of two, and `vector.multi_reduction` of the rows. -/
def multiReduction (op : α → α → α) (chunk : ℕ → α) (acc : Fin 2 → α) : Fin 2 → α :=
  fun j => (List.range (chunkSize / 2)).foldl (fun a i => op a (chunk (2 * i + j))) (acc j)

/-- The largest of the first `tileS` scores of a lane, twice.
SOURCE: mlir_sdpa_template.py:238-249 -/
def reducedMax (negInf : α) (tileS : ℕ) (mul : ℕ → α) : Fin 2 → α :=
  let chunk := affineFor 0 tileS chunkSize (fun _ => negInf) fun index5 iterMax c =>
    max (mul (index5 + c)) (iterMax c)
  let reduced1 := multiReduction max chunk fun _ => negInf
  fun j => max (reduced1 j) (shuffle2 reduced1 j)

/-- The sum of the first `tileS` scores of a lane, twice.
SOURCE: mlir_sdpa_template.py:285-295 -/
def reducedSum (tileS : ℕ) (mul : ℕ → α) : Fin 2 → α :=
  let chunk := affineFor 0 tileS chunkSize (fun _ => (0 : α)) fun index5 iterSum c =>
    mul (index5 + c) + iterSum c
  let reduced1 := multiReduction (· + ·) chunk fun _ => 0
  fun j => reduced1 j + shuffle2 reduced1 j

/-- The buffers that a tile of keys changes; `max` and `sum` are vectors of two elements. -/
structure SdpaBuffers (α : Type) where
  out : SpadBuffer α
  mul : SpadBuffer α
  max : ℕ → Fin 2 → α
  sum : ℕ → Fin 2 → α

/-- The parameters of the rendered kernel: `tile_l` and `tile_s` are the number of lanes and
`tile_e` is the head dimension.
SOURCE: mlir_sdpa_template.py:340-549 -/
structure SdpaKernel (α : Type) where
  b : ℕ
  l : ℕ
  s : ℕ
  e : ℕ
  vectorLane : ℕ
  scale : α

namespace SdpaKernel

variable (p : SdpaKernel α) (exp : α → α)

/-- SOURCE: mlir_sdpa_template.py:184 -/
def negInf : α := -(10 ^ 30)

/-- A tile of keys: the scores, their maximum, the rescaled output and sum, the exponentials.
`linalg.matmul` adds to the buffer that it writes.
SOURCE: mlir_sdpa_template.py:211-303 -/
def keyTile (query : SpadBuffer α) (key value : ℕ → ℕ → α) (buf : SdpaBuffers α) :
    SdpaBuffers α :=
  let tileS := p.vectorLane
  let mul := vectorStore (getSpadSizePerLane p.vectorLane tileS p.vectorLane) (fun _ _ => 0) buf.mul
  -- key @ query.t and scaling
  let mul : SpadBuffer α := fun lane s => mul lane s + ∑ i ∈ range p.e, key s i * query lane i
  let mul := vectorStore tileS (fun lane s => mul lane s * p.scale) mul
  let newMax := fun lane j => max (reducedMax negInf tileS (mul lane) j) (buf.max lane j)
  let rescale := fun lane => exp (buf.max lane 0 - newMax lane 0)
  let out := vectorStore p.e (fun lane i => rescale lane * buf.out lane i) buf.out
  let mul := vectorStore tileS (fun lane s => exp (mul lane s - newMax lane 0)) mul
  let newSum := fun lane j => reducedSum tileS (mul lane) j + buf.sum lane j * rescale lane
  -- value.t @ mul
  let out : SpadBuffer α := fun lane i => out lane i + ∑ s ∈ range tileS, value s i * mul lane s
  ⟨out, mul, newMax, newSum⟩

/-- A tile of query rows against all tiles of keys, and the final division.
SOURCE: mlir_sdpa_template.py:201-317 -/
def queryTile (q k v : DramTensor α) (index0 index3 index1 : ℕ)
    (st : DramTensor α × SdpaBuffers α) : DramTensor α × SdpaBuffers α :=
  let query := mvin q p.l index0 index1 index3
  let buf : SdpaBuffers α :=
    { out := vectorStore (getSpadSizePerLane p.vectorLane p.vectorLane p.e) (fun _ _ => 0) st.2.out
      mul := st.2.mul
      max := fun _ _ => negInf
      sum := fun _ _ => 0 }
  let buf := affineFor 0 p.s p.vectorLane buf fun index2 buf =>
    p.keyTile exp query (mvin k p.s index0 index2 index3) (mvin v p.s index0 index2 index3) buf
  let reciprocal := fun lane => 1 / buf.sum lane 0
  let out := vectorStore p.e (fun lane i => buf.out lane i * reciprocal lane) buf.out
  (mvout out p.vectorLane p.e p.l index0 index1 index3 st.1, { buf with out := out })

/-- The kernel on given contents of the output and of the buffers.
SOURCE: mlir_sdpa_template.py:155-325 -/
def flashSdpa (q k v : DramTensor α) (st : DramTensor α × SdpaBuffers α) :
    DramTensor α × SdpaBuffers α :=
  affineFor 0 p.b 1 st fun index0 st =>
    affineFor 0 1 1 st fun index3 st =>
      affineFor 0 p.l p.vectorLane st fun index1 st =>
        p.queryTile exp q k v index0 index3 index1 st

end SdpaKernel

end

end PyTorchSim.Model
