import Mathlib.Algebra.BigOperators.Group.Finset.Basic
import PyTorchSim.Frontend.CatProgram
import PyTorchSim.Frontend.TensorOps
import PyTorchSim.Frontend.TileDesc
import PyTorchSim.Frontend.TileMapping

/-!
# The templates of convolutions

The loop nest that the four templates of convolutions render for a convolution with one group when
nothing is fused into them, the tiles that they choose from without a file of tile sizes, and what
their wrappers make of the operands.  The output is a buffer of its own.

A buffer of the scratchpad is a function of the lane and of the place in the part of that lane.  An
element of a tile lies in the lane of its coordinate on the split axis, counted round the lanes, and
at the place that the strides per lane give.  `linalg.matmul` works on views of the buffers, which
are given by their offset in the lanes.

A DMA moves the whole tile; what lies over the bounds of the loops over its axes is loaded as zero
and not stored.  An index that a map computes has no bound.
-/

set_option autoImplicit false

namespace PyTorchSim.Frontend

open CatProgram (loopRange)
open Library (unravel)
open PyTorchSim.Model (getSpadSizePerLane)

/-! ## Programs -/

/-- The variables of the loops over tiles and of the maps of them, and the constant `%c0`. -/
inductive ConvVar where
  | tileM
  | tileN
  | oH
  | oW
  | kH
  | kW
  | tileK
  | indexIH
  | indexIW
  | c0
  deriving DecidableEq, Repr

/-- The values of the variables. -/
abbrev ConvIndex := ConvVar → ℕ

/-- An entry `var * coefficient` of an index list.  `Number(0)` has the coefficient 0. -/
structure ConvTerm where
  coefficient : ℕ
  var : ConvVar
  deriving DecidableEq, Repr

/-- SOURCE: mlir_codegen_backend.py:476-494 -/
def ConvTerm.value (t : ConvTerm) (index : ConvIndex) : ℕ := t.coefficient * index t.var

/-- SOURCE: mlir_template.py:936-945 -/
def ConvTerm.dramStride (t : ConvTerm) : ℕ := if t = ⟨1, .c0⟩ then 0 else t.coefficient

/-- A tile in the scratchpad, and where a DMA finds it in memory.  The lane stride is 1. -/
structure ConvDma where
  tileSize : List ℕ
  tileStride : List ℕ
  vlaneSplitAxis : ℕ
  indexList : List ConvTerm
  offset : ℕ
  deriving DecidableEq, Repr

namespace ConvDma

variable (t : ConvDma)

/-- The coordinates of the elements. -/
def coordinates : List (List ℕ) := product (t.tileSize.map List.range)

/-- The lane of an element, and its place in the lane.
SOURCE: mlir_common.py:280-289, mlir_codegen_backend.py:801-812 -/
def place (vectorLane : ℕ) (c : List ℕ) : ℕ × ℕ :=
  let vmap : VectorLaneMapping := ⟨vectorLane, none, t.vlaneSplitAxis, 1⟩
  let split := c.getD t.vlaneSplitAxis 0
  (split % vectorLane,
    (List.zipWith (· * ·) (vmap.getTileStridePerLane t.tileSize t.tileStride)
      (c.set t.vlaneSplitAxis (split / vectorLane))).sum)

/-- The address of an element.
SOURCE: mlir_codegen_backend.py:496-502, mlir_template.py:922, 936-945 -/
def address (index : ConvIndex) (c : List ℕ) : ℕ :=
  (t.indexList.map fun term => term.value index).sum + t.offset +
    (List.zipWith (· * ·) (t.indexList.map ConvTerm.dramStride) c).sum

end ConvDma

/-- `affine.for %var = 0 to bound step step` -/
structure ConvLoop where
  var : ConvVar
  bound : ℕ
  step : ℕ
  deriving DecidableEq, Repr

/-- `%var = affine.apply affine_map<(d0, d1) -> (d0 * stride + d1)>(%d0, %d1)` -/
structure ConvMap where
  var : ConvVar
  stride : ℕ
  d0 : ConvVar
  d1 : ConvVar
  deriving DecidableEq, Repr

/-- A rendered template.  The offset maps are pairs of coefficients, and `columnX` are the
coefficients of `%tile_o_w` and `%tile_k_w` in the second argument of `#offset_x_map`. -/
structure ConvProgram where
  vectorLane : ℕ
  outerLoops : List ConvLoop
  accumulationLoops : List ConvLoop
  maps : List ConvMap
  x : ConvDma
  w : ConvDma
  y : ConvDma
  bias : Option ConvDma
  zeroSize : ℕ
  tileM : ℕ
  tileN : ℕ
  tileK : ℕ
  tileKH : ℕ
  tileKW : ℕ
  tileOH : ℕ
  tileOW : ℕ
  strideH : ℕ
  columnX : ℕ × ℕ
  offsetX : ℕ × ℕ
  offsetW : ℕ × ℕ
  offsetY : ℕ × ℕ
  deriving DecidableEq, Repr

/-- The operands in memory. -/
structure ConvMemory (R : Type) where
  x : ℕ → R
  w : ℕ → R
  bias : ℕ → R

/-- The buffers of the scratchpad, and the output in memory. -/
structure ConvState (R : Type) where
  xBuffer : ℕ × ℕ → R
  wBuffer : ℕ × ℕ → R
  yBuffer : ℕ × ℕ → R
  y : ℕ → R

/-- A nest of loops around a body. -/
def runLoops {σ : Type} (body : ConvIndex → σ → σ) : List ConvLoop → ConvIndex → σ → σ
  | [], index, s => body index s
  | loop :: loops, index, s =>
    (loopRange loop.bound loop.step).foldl
      (fun s v => runLoops body loops (Function.update index loop.var v) s) s

/-- The lane and the place of an element of the view of a matrix with `rows` rows. -/
def viewPlace (vectorLane rows offset i j : ℕ) : ℕ × ℕ :=
  (j % vectorLane, offset + i + rows * (j / vectorLane))

namespace ConvProgram

variable {R : Type} [Semiring R] (p : ConvProgram)

/-- The bound of a loop variable. -/
def bound (var : ConvVar) : Option ℕ :=
  ((p.outerLoops ++ p.accumulationLoops).find? fun loop => loop.var = var).map ConvLoop.bound

/-- The element does not lie over the bound of a loop. -/
def inBounds (t : ConvDma) (index : ConvIndex) (c : List ℕ) : Bool :=
  (List.zipWith (fun (term : ConvTerm) i =>
    (p.bound term.var).all fun bound => decide (index term.var + i < bound)) t.indexList c).all id

/-- `MVIN` -/
def load (t : ConvDma) (dram : ℕ → R) (index : ConvIndex) (buffer : ℕ × ℕ → R) : ℕ × ℕ → R :=
  t.coordinates.foldl (fun buffer c => Function.update buffer (t.place p.vectorLane c)
    (if p.inBounds t index c then dram (t.address index c) else 0)) buffer

/-- `MVOUT` -/
def store (index : ConvIndex) (s : ConvState R) : ConvState R :=
  { s with y := (p.y.coordinates.filter (p.inBounds p.y index)).foldl (fun y c =>
      Function.update y (p.y.address index c) (s.yBuffer (p.y.place p.vectorLane c))) s.y }

/-- `linalg.matmul` -/
def matmul (offsetX offsetW offsetY : ℕ) (x w y : ℕ × ℕ → R) : ℕ × ℕ → R :=
  (List.range p.tileM).foldl (fun y i => (List.range p.tileN).foldl (fun y j =>
    let place := viewPlace p.vectorLane p.tileM offsetY i j
    Function.update y place (y place + ∑ k ∈ Finset.range p.tileK,
      x (viewPlace p.vectorLane p.tileM offsetX i k) *
        w (viewPlace p.vectorLane p.tileK offsetW k j))) y) y

/-- The offset of the view of the input.
SOURCE: mlir_conv_template.py:80-82, mlir_conv_mt_template.py:77-78,
mlir_conv_sb_template.py:78-79, mlir_conv_sbs_template.py:78-79 -/
def viewX (tileOH tileOW tileKH tileKW : ℕ) : ℕ :=
  p.offsetX.1 * (tileOH * p.strideH + tileKH) +
    p.offsetX.2 * (p.columnX.1 * tileOW + p.columnX.2 * tileKW)

/-- The offset of the view of the weight. -/
def viewW (tileKH tileKW : ℕ) : ℕ := p.offsetW.1 * tileKH + p.offsetW.2 * tileKW

/-- The offset of the view of the output. -/
def viewY (tileOH tileOW : ℕ) : ℕ := p.offsetY.1 * tileOH + p.offsetY.2 * tileOW

/-- The products of the tiles in the scratchpad.
SOURCE: mlir_conv_template.py:74-91, mlir_conv_mt_template.py:71-87, mlir_conv_sb_template.py:72-88,
mlir_conv_sbs_template.py:72-88 -/
def compute (x w y : ℕ × ℕ → R) : ℕ × ℕ → R :=
  (List.range p.tileKH).foldl (fun y tileKH =>
    (List.range p.tileKW).foldl (fun y tileKW =>
      (List.range p.tileOH).foldl (fun y tileOH =>
        (List.range p.tileOW).foldl (fun y tileOW =>
          p.matmul (p.viewX tileOH tileOW tileKH tileKW) (p.viewW tileKH tileKW)
            (p.viewY tileOH tileOW) x w y) y) y) y) y

/-- The values of the maps. -/
def applyMaps (index : ConvIndex) : ConvIndex :=
  p.maps.foldl (fun index m =>
    Function.update index m.var (index m.d0 * m.stride + index m.d1)) index

/-- The body of the accumulation loops.
SOURCE: mlir_conv_template.py:68-91, mlir_conv_mt_template.py:66-87, mlir_conv_sb_template.py:66-88,
mlir_conv_sbs_template.py:67-88 -/
def accumulate (mem : ConvMemory R) (index : ConvIndex) (s : ConvState R) : ConvState R :=
  let index := p.applyMaps index
  let x := p.load p.x mem.x index s.xBuffer
  let w := p.load p.w mem.w index s.wBuffer
  { s with xBuffer := x, wBuffer := w, yBuffer := p.compute x w s.yBuffer }

/-- What the accumulation starts from: the bias, or zeros in the first `zeroSize` places of each
lane.
SOURCE: mlir_conv_template.py:59-64, mlir_conv_mt_template.py:58-63, mlir_conv_sb_template.py:57-62,
mlir_conv_sbs_template.py:58-63 -/
def start (mem : ConvMemory R) (index : ConvIndex) (buffer : ℕ × ℕ → R) : ℕ × ℕ → R :=
  match p.bias with
  | some bias => p.load bias mem.bias index buffer
  | none => fun place => if place.2 < p.zeroSize then 0 else buffer place

/-- A tile of the output.
SOURCE: mlir_conv_template.py:59-96, mlir_conv_mt_template.py:58-91, mlir_conv_sb_template.py:57-93,
mlir_conv_sbs_template.py:58-93 -/
def outputTile (mem : ConvMemory R) (index : ConvIndex) (s : ConvState R) : ConvState R :=
  p.store index (runLoops (p.accumulate mem) p.accumulationLoops index
    { s with yBuffer := p.start mem index s.yBuffer })

/-- SOURCE: mlir_conv_template.py:55-100, mlir_conv_mt_template.py:54-95,
mlir_conv_sb_template.py:54-96, mlir_conv_sbs_template.py:55-96 -/
def run (mem : ConvMemory R) (s : ConvState R) : ConvState R :=
  runLoops (p.outputTile mem) p.outerLoops (fun _ => 0) s

end ConvProgram

/-! ## Convolutions -/

/-- The templates. -/
inductive ConvKind where
  | conv
  | multiTile
  | singleBatch
  | singleBatchStrided
  deriving DecidableEq, Repr

/-- The sizes and the parameters of a convolution, and where the bias lies in its buffer.  The
operator refuses what the fields exclude.
SOURCE: mlir_conv_common.py:13-27, 70-87 -/
structure ConvTemplate where
  batch : ℕ
  iC : ℕ
  iH : ℕ
  iW : ℕ
  oC : ℕ
  kH : ℕ
  kW : ℕ
  stride : ℕ × ℕ
  padding : ℕ × ℕ
  dilation : ℕ × ℕ
  biasOffset : Option ℕ
  oC_pos : 0 < oC
  kernel_pos : 0 < kH ∧ 0 < kW
  stride_pos : 0 < stride.1 ∧ 0 < stride.2
  dilation_pos : 0 < dilation.1 ∧ 0 < dilation.2
  rows_fit : dilation.1 * (kH - 1) < iH + 2 * padding.1
  cols_fit : dilation.2 * (kW - 1) < iW + 2 * padding.2

/-- The number of places a kernel takes on an axis of the padded input. -/
def placesOf (padded kernel stride dilation : ℕ) : ℕ :=
  (padded - dilation * (kernel - 1) - 1) / stride + 1

namespace ConvTemplate

variable (t : ConvTemplate)

def paddedH : ℕ := t.iH + 2 * t.padding.1

def paddedW : ℕ := t.iW + 2 * t.padding.2

/-- SOURCE: mlir_lowering.py:112-145 -/
def oH : ℕ := placesOf t.paddedH t.kH t.stride.1 t.dilation.1

/-- SOURCE: mlir_lowering.py:112-145 -/
def oW : ℕ := placesOf t.paddedW t.kW t.stride.2 t.dilation.2

/-! ## The tiles -/

/-- `TILE_I_H`
SOURCE: mlir_conv_template.py:249, mlir_conv_mt_template.py:246, mlir_conv_sb_template.py:244,
mlir_conv_sbs_template.py:245 -/
def tileIH (tile : ConvTile) : ℕ := inputExtent tile.oH tile.kH t.stride.1 t.dilation.1

/-- `TILE_I_W`
SOURCE: mlir_conv_template.py:250, mlir_conv_sb_template.py:245, mlir_conv_sbs_template.py:246 -/
def tileIW (tile : ConvTile) : ℕ := inputExtent tile.oW tile.kW t.stride.2 t.dilation.2

/-- The arguments of the mappings. -/
def problem (kernelW precisionBytes : ℕ) (hprecision : 0 < precisionBytes) : ConvProblem where
  M := t.batch
  N := t.oC
  K := t.iC
  kernelH := t.kH
  kernelW := kernelW
  outputH := t.oH
  outputW := t.oW
  stride := t.stride
  dilation := t.dilation
  nExtraNode := 0
  precisionBytes := precisionBytes
  n_pos := t.oC_pos
  precision_pos := hprecision

section Rendering

variable (hw : SpadHardware) (tile : ConvTile)

/-! ## The tile descriptors that templates share -/

/-- SOURCE: mlir_conv_template.py:162-168, mlir_conv_sb_template.py:158-164,
mlir_conv_sbs_template.py:159-165 -/
def weightDma : ConvDma where
  tileSize := [tile.kH, tile.kW, tile.k, tile.n]
  tileStride := [tile.kW * tile.k * tile.n, tile.k * tile.n, 1, tile.k]
  vlaneSplitAxis := 3
  indexList := [⟨t.kW * t.iC * t.oC, .kH⟩, ⟨t.iC * t.oC, .kW⟩, ⟨t.oC, .tileK⟩, ⟨1, .tileN⟩]
  offset := 0

/-- SOURCE: mlir_conv_template.py:170-176, mlir_conv_mt_template.py:166-172 -/
def outputDma : ConvDma where
  tileSize := [tile.m, tile.n, tile.oH, tile.oW]
  tileStride := [1, tile.m, tile.oW * tile.m * tile.n, tile.m * tile.n]
  vlaneSplitAxis := 1
  indexList := [⟨t.oC * t.oH * t.oW, .tileM⟩, ⟨t.oH * t.oW, .tileN⟩, ⟨t.oW, .oH⟩, ⟨1, .oW⟩]
  offset := 0

/-- SOURCE: mlir_conv_sb_template.py:166-171, mlir_conv_sbs_template.py:167-172 -/
def singleBatchOutputDma : ConvDma where
  tileSize := [1, tile.n, tile.oH, tile.m]
  tileStride := [tile.oH * tile.m * tile.n, tile.m, tile.m * tile.n, 1]
  vlaneSplitAxis := 1
  indexList := [⟨0, .c0⟩, ⟨t.oH * t.oW, .tileN⟩, ⟨t.oW, .oH⟩, ⟨1, .tileM⟩]
  offset := 0

/-- The bias is loaded into the tile of the output.
SOURCE: mlir_conv_template.py:178-184, mlir_conv_mt_template.py:174-180,
mlir_conv_sb_template.py:173-179, mlir_conv_sbs_template.py:174-180 -/
def biasDma (y : ConvDma) (offset : ℕ) : ConvDma :=
  { y with
    indexList := [⟨0, .c0⟩, ⟨1, .tileN⟩, ⟨0, .c0⟩, ⟨0, .c0⟩]
    offset := offset }

/-! ## The templates -/

/-- SOURCE: mlir_conv_template.py:39-100, 132-244 -/
def renderConv : ConvProgram where
  vectorLane := hw.vectorLane
  outerLoops := [⟨.tileM, t.batch, tile.m⟩, ⟨.tileN, t.oC, tile.n⟩, ⟨.oH, t.oH, tile.oH⟩,
    ⟨.oW, t.oW, tile.oW⟩]
  accumulationLoops := [⟨.kH, t.kH, tile.kH⟩, ⟨.kW, t.kW, tile.kW⟩, ⟨.tileK, t.iC, tile.k⟩]
  maps := [⟨.indexIH, t.stride.1, .oH, .kH⟩, ⟨.indexIW, t.stride.2, .oW, .kW⟩]
  x := {
    tileSize := [t.tileIH tile, t.tileIW tile, tile.m, tile.k]
    tileStride := [t.tileIW tile * tile.m * tile.k, tile.m * tile.k, 1, tile.m]
    vlaneSplitAxis := 3
    indexList := [⟨t.paddedW * t.batch * t.iC, .indexIH⟩, ⟨t.iC * t.batch, .indexIW⟩,
      ⟨t.iC, .tileM⟩, ⟨1, .tileK⟩]
    offset := 0 }
  w := t.weightDma tile
  y := t.outputDma tile
  bias := t.biasOffset.map (biasDma (t.outputDma tile))
  zeroSize := getSpadSizePerLane hw.vectorLane (tile.oH * tile.m) tile.n
  tileM := tile.m
  tileN := tile.n
  tileK := tile.k
  tileKH := tile.kH
  tileKW := tile.kW
  tileOH := tile.oH
  tileOW := tile.oW
  strideH := t.stride.1
  columnX := (t.stride.2, 1)
  offsetX := (getSpadSizePerLane hw.vectorLane (t.tileIW tile * tile.m) tile.k,
    getSpadSizePerLane hw.vectorLane tile.m tile.k)
  offsetW := (getSpadSizePerLane hw.vectorLane (tile.kW * tile.k) tile.n,
    getSpadSizePerLane hw.vectorLane tile.k tile.n)
  offsetY := (getSpadSizePerLane hw.vectorLane (tile.oW * tile.m) tile.n,
    getSpadSizePerLane hw.vectorLane tile.m tile.n)

/-- The columns of the kernel are channels of the input.
SOURCE: mlir_conv_mt_template.py:39-95, 127-240 -/
def renderMultiTile : ConvProgram where
  vectorLane := hw.vectorLane
  outerLoops := [⟨.tileM, t.batch, tile.m⟩, ⟨.tileN, t.oC, tile.n⟩, ⟨.oH, t.oH, tile.oH⟩,
    ⟨.oW, t.oW, tile.oW⟩]
  accumulationLoops := [⟨.kH, t.kH, tile.kH⟩, ⟨.tileK, t.iC * t.kW, tile.k⟩]
  maps := [⟨.indexIH, t.stride.1, .oH, .kH⟩]
  x := {
    tileSize := [t.tileIH tile, tile.oW, tile.m, tile.k]
    tileStride := [tile.oW * tile.m * tile.k, tile.m * tile.k, 1, tile.m]
    vlaneSplitAxis := 3
    indexList := [⟨t.paddedW * t.batch * t.iC, .indexIH⟩, ⟨t.iC * t.stride.2, .oW⟩,
      ⟨t.iC * t.paddedW, .tileM⟩, ⟨1, .tileK⟩]
    offset := 0 }
  w := {
    tileSize := [tile.kH, 1, tile.k, tile.n]
    tileStride := [tile.k * tile.n, tile.k * tile.n, 1, tile.k]
    vlaneSplitAxis := 3
    indexList := [⟨t.kW * t.iC * t.oC, .kH⟩, ⟨1, .c0⟩, ⟨t.oC, .tileK⟩, ⟨1, .tileN⟩]
    offset := 0 }
  y := t.outputDma tile
  bias := t.biasOffset.map (biasDma (t.outputDma tile))
  zeroSize := getSpadSizePerLane hw.vectorLane (tile.oH * tile.m) tile.n
  tileM := tile.m
  tileN := tile.n
  tileK := tile.k
  tileKH := tile.kH
  tileKW := 1
  tileOH := tile.oH
  tileOW := tile.oW
  strideH := t.stride.1
  columnX := (1, 0)
  offsetX := (getSpadSizePerLane hw.vectorLane (tile.oW * tile.m) tile.k,
    getSpadSizePerLane hw.vectorLane tile.m tile.k)
  offsetW := (getSpadSizePerLane hw.vectorLane (1 * tile.k) tile.n,
    getSpadSizePerLane hw.vectorLane tile.k tile.n)
  offsetY := (getSpadSizePerLane hw.vectorLane (tile.oW * tile.m) tile.n,
    getSpadSizePerLane hw.vectorLane tile.m tile.n)

/-- The rows of the matrices are columns of the output.
SOURCE: mlir_conv_sb_template.py:39-96, 128-239 -/
def renderSingleBatch : ConvProgram where
  vectorLane := hw.vectorLane
  outerLoops := [⟨.tileN, t.oC, tile.n⟩, ⟨.oH, t.oH, tile.oH⟩, ⟨.tileM, t.oW, tile.m⟩]
  accumulationLoops := [⟨.kH, t.kH, tile.kH⟩, ⟨.kW, t.kW, tile.kW⟩, ⟨.tileK, t.iC, tile.k⟩]
  maps := [⟨.indexIH, t.stride.1, .oH, .kH⟩, ⟨.indexIW, t.stride.2, .tileM, .kW⟩]
  x := {
    tileSize := [1, t.tileIH tile, t.tileIW tile, tile.k]
    tileStride := [t.tileIH tile * t.tileIW tile * tile.k, t.tileIW tile * tile.k, 1,
      t.tileIW tile]
    vlaneSplitAxis := 3
    indexList := [⟨t.paddedW * t.paddedH * t.iC, .c0⟩, ⟨t.paddedW * t.iC, .indexIH⟩,
      ⟨t.iC, .indexIW⟩, ⟨1, .tileK⟩]
    offset := 0 }
  w := t.weightDma tile
  y := t.singleBatchOutputDma tile
  bias := t.biasOffset.map (biasDma (t.singleBatchOutputDma tile))
  zeroSize := getSpadSizePerLane hw.vectorLane (tile.oH * tile.m) tile.n
  tileM := tile.m
  tileN := tile.n
  tileK := tile.k
  tileKH := tile.kH
  tileKW := tile.kW
  tileOH := tile.oH
  tileOW := 1
  strideH := t.stride.1
  columnX := (0, 1)
  offsetX := (getSpadSizePerLane hw.vectorLane (t.tileIW tile) tile.k, 1)
  offsetW := (getSpadSizePerLane hw.vectorLane (tile.kW * tile.k) tile.n,
    getSpadSizePerLane hw.vectorLane tile.k tile.n)
  offsetY := (getSpadSizePerLane hw.vectorLane tile.m tile.n,
    getSpadSizePerLane hw.vectorLane tile.m tile.n)

/-- SOURCE: mlir_conv_sbs_template.py:39-96, 128-240 -/
def renderSingleBatchStrided : ConvProgram where
  vectorLane := hw.vectorLane
  outerLoops := [⟨.tileN, t.oC, tile.n⟩, ⟨.oH, t.oH, tile.oH⟩, ⟨.tileM, t.oW, tile.m⟩]
  accumulationLoops := [⟨.kH, t.kH, tile.kH⟩, ⟨.kW, t.kW, tile.kW⟩, ⟨.tileK, t.iC, tile.k⟩]
  maps := [⟨.indexIH, t.stride.1, .oH, .kH⟩]
  x := {
    tileSize := [t.tileIH tile, tile.kW, tile.m, tile.k]
    tileStride := [tile.kW * tile.m * tile.k, tile.m * tile.k, 1, tile.m]
    vlaneSplitAxis := 3
    indexList := [⟨t.paddedW * t.iC, .indexIH⟩, ⟨t.iC, .kW⟩, ⟨t.iC * t.stride.2, .tileM⟩,
      ⟨1, .tileK⟩]
    offset := 0 }
  w := t.weightDma tile
  y := t.singleBatchOutputDma tile
  bias := t.biasOffset.map (biasDma (t.singleBatchOutputDma tile))
  zeroSize := getSpadSizePerLane hw.vectorLane (tile.oH * tile.m) tile.n
  tileM := tile.m
  tileN := tile.n
  tileK := tile.k
  tileKH := tile.kH
  tileKW := tile.kW
  tileOH := tile.oH
  tileOW := 1
  strideH := t.stride.1
  columnX := (0, 1)
  offsetX := (getSpadSizePerLane hw.vectorLane (tile.m * tile.kW) tile.k,
    getSpadSizePerLane hw.vectorLane tile.m tile.k)
  offsetW := (getSpadSizePerLane hw.vectorLane (tile.kW * tile.k) tile.n,
    getSpadSizePerLane hw.vectorLane tile.k tile.n)
  offsetY := (getSpadSizePerLane hw.vectorLane tile.m tile.n,
    getSpadSizePerLane hw.vectorLane tile.m tile.n)

end Rendering

/-! ## The wrappers -/

section Wrapper

variable {R : Type} [Zero R]

/-- `X_padding`
SOURCE: mlir_conv_template.py:109-113 -/
def padInput (x : Tensor R) : Tensor R :=
  ⟨[t.batch, t.iC, t.paddedH, t.paddedW], fun idx =>
    match idx with
    | [b, c, i, j] =>
      if (t.padding.1 ≤ i ∧ i < t.iH + t.padding.1) ∧ t.padding.2 ≤ j ∧ j < t.iW + t.padding.2 then
        x.get [b, c, i - t.padding.1, j - t.padding.2] else 0
    | _ => 0⟩

/-- The operands that a wrapper calls its kernel with; `order` is the order of the axes that it
gives the input.
SOURCE: mlir_conv_template.py:106-127, mlir_conv_mt_template.py:101-122,
mlir_conv_sb_template.py:102-123, mlir_conv_sbs_template.py:102-123 -/
def operands (order : List ℕ) (x w bias : Tensor R) : ConvMemory R where
  x := ((t.padInput x).permute order).data
  w := (w.permute [2, 3, 1, 0]).data
  bias := fun a => bias.get [a - t.biasOffset.getD 0]

end Wrapper

/-! ## The lowering -/

/-- The template that the lowering takes for a convolution, where the configuration allows those for
a single batch and for few channels.
SOURCE: mlir_lowering.py:180-188 -/
def mlirConvolution (hw : SpadHardware) (singleBatchConv multiTileConv : Bool) : ConvKind :=
  if t.batch = 1 ∧ t.stride.1 = 1 ∧ singleBatchConv then .singleBatch
  else if t.batch = 1 ∧ t.stride.1 ≠ 1 ∧ singleBatchConv then .singleBatchStrided
  else if t.iC < hw.vectorLane / 8 ∧ multiTileConv then .multiTile
  else .conv

end ConvTemplate

namespace ConvKind

/-- SOURCE: mlir_conv_template.py:246-257, mlir_conv_mt_template.py:242-252,
mlir_conv_sb_template.py:241-251, mlir_conv_sbs_template.py:242-252 -/
def selectTile (kind : ConvKind) (hw : SpadHardware) (t : ConvTemplate) (precisionBytes : ℕ)
    (hprecision : 0 < precisionBytes) : Except String (List ConvTile) :=
  match kind with
  | conv => convCombinationMapping hw (t.problem t.kW precisionBytes hprecision)
  | multiTile => convMultiTileMapping hw (t.problem t.kW precisionBytes hprecision)
  | singleBatch => convSingleBatchMapping hw (t.problem 1 precisionBytes hprecision)
  | singleBatchStrided => convSingleBatchMapping hw (t.problem t.kW precisionBytes hprecision)

def render (kind : ConvKind) (hw : SpadHardware) (t : ConvTemplate) (tile : ConvTile) :
    ConvProgram :=
  match kind with
  | conv => t.renderConv hw tile
  | multiTile => t.renderMultiTile hw tile
  | singleBatch => t.renderSingleBatch hw tile
  | singleBatchStrided => t.renderSingleBatchStrided hw tile

/-- The order that the wrapper gives the axes of the input.
SOURCE: mlir_conv_template.py:118, mlir_conv_mt_template.py:113, mlir_conv_sb_template.py:114,
mlir_conv_sbs_template.py:114 -/
def inputOrder : ConvKind → List ℕ
  | conv => [2, 3, 0, 1]
  | multiTile => [2, 0, 3, 1]
  | singleBatch => [0, 2, 3, 1]
  | singleBatchStrided => [0, 2, 3, 1]

end ConvKind

end PyTorchSim.Frontend
