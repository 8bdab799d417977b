import Mathlib.Algebra.BigOperators.Group.Finset.Basic
import Mathlib.Algebra.Order.Ring.Int
import Mathlib.Data.Char
import Mathlib.Data.Fintype.Basic
import Mathlib.Data.Int.Basic
import Mathlib.Data.List.FinRange
import Mathlib.Data.List.Lex
import Mathlib.Data.List.Sort

/-!
# The descriptor of a DMA operation

`MLIRKernel.get_dma_info` for an affine index expression over the loops of a kernel: the local
tile of the scratchpad, the variable that holds the address of the tile, and the stride of the
DRAM for each axis of the tile.  An expression with `FloorDiv`, `ModularIndexing` or indirect
symbols is not affine, so the parts of the function that treat these are left out.
-/

set_option autoImplicit false

namespace PyTorchSim.Model

/-- An affine index expression over the loop symbols `index0`, `index1`, …: a constant and a
coefficient for each symbol.  A symbol with coefficient 0 does not occur in the expression. -/
structure IndexExpr (n : ℕ) where
  const : ℤ
  coeff : Fin n → ℤ

namespace IndexExpr

variable {n : ℕ} (e : IndexExpr n)

/-- The symbols of the expression, the outer loop first. -/
def freeSymbols : List (Fin n) := (List.finRange n).filter fun i => e.coeff i ≠ 0

/-- `is_Number` -/
def isNumber : Bool := e.freeSymbols.isEmpty

/-- `is_Symbol`, with the symbol. -/
def asSymbol : Option (Fin n) :=
  match e.freeSymbols with
  | [i] => if e.const = 0 ∧ e.coeff i = 1 then some i else none
  | _ => none

/-- The value of the expression for values of the loop symbols. -/
def eval (v : Fin n → ℤ) : ℤ := e.const + ∑ i, e.coeff i * v i

end IndexExpr

/-- The name of a loop symbol, by which the code sorts. -/
def symbolName (i : ℕ) : List Char := 'i' :: 'n' :: 'd' :: 'e' :: 'x' :: Nat.toDigits 10 i

/-- The SSA variable for the address of a tile: a constant, a loop variable, or the result of
`affine.apply` on a list of loop variables. -/
inductive IndexVar (n : ℕ) where
  | constant (value : ℤ)
  | symbol (dim : Fin n)
  | affineApply (const : ℤ) (indices : List (Fin n × ℤ))

/-- The value of the variable in an iteration of the loops. -/
def IndexVar.eval {n : ℕ} (v : Fin n → ℤ) : IndexVar n → ℤ
  | constant value => value
  | symbol dim => v dim
  | affineApply const indices => const + (indices.map fun p => p.2 * v p.1).sum

/-- SOURCE: mlir_codegen_backend.py:435-460 -/
def parseIndices {n : ℕ} (expr : IndexExpr n) : IndexVar n :=
  if expr.isNumber then .constant expr.const
  else
    match expr.asSymbol with
    | some dim => .symbol dim
    | none =>
      let sortedArgs := expr.freeSymbols.insertionSort fun (i j : Fin n) =>
        symbolName i ≤ symbolName j
      .affineApply expr.const (sortedArgs.map fun i => (i, expr.coeff i))

/-- SOURCE: mlir_common.py:574-586 -/
def tileStrides (tileSize tileAxisOrder : List ℕ) : List ℕ :=
  let sortedPairs := (tileAxisOrder.zip tileSize).zipIdx.insertionSort fun a b => b.1.1 ≤ a.1.1
  (sortedPairs.foldl (fun acc p => (acc.1.set p.2 acc.2, acc.2 * p.1.2))
    (List.replicate tileSize.length 1, 1)).1

/-- The descriptor of a tile (`MLIRMultiDimTile`) and its mapping to the vector lanes.
SOURCE: mlir_common.py:256-262, 535-557 -/
structure MLIRMultiDimTile where
  tileSize : List ℕ
  tileAxisOrder : List ℕ
  tileStride : List ℕ
  vlaneSplitAxis : ℕ
  vlaneStride : ℕ
  deriving DecidableEq, Repr

/-- A tile of the given sizes, axis order and lane mapping.
SOURCE: mlir_common.py:565-568 -/
def MLIRMultiDimTile.ofSize (tileSize : List ℕ) (tileAxisOrder : Option (List ℕ))
    (vlaneSplitAxis vlaneStride : ℕ) : MLIRMultiDimTile :=
  let order := tileAxisOrder.getD (List.range tileSize.length)
  { tileSize, tileAxisOrder := order, tileStride := tileStrides tileSize order, vlaneSplitAxis,
    vlaneStride }

/-- The loops of a pointwise or reduction kernel and the tile of its kernel group: the first
`reductionDepth` of the `nrLoops` loops are outer loops, the others are reduced.  A kernel
without loops has a tile of one element.
SOURCE: mlir_common.py:662-685, 772-788 -/
structure MLIRKernel where
  nrLoops : ℕ
  reductionDepth : ℕ
  vectorLane : ℕ
  tileSize : List ℕ
  vlaneSplitAxis : ℕ
  vlaneStride : ℕ
  depth_le : reductionDepth ≤ nrLoops
  rank_eq : tileSize.length = max nrLoops 1
  split_lt : vlaneSplitAxis < tileSize.length
  stride_pos : 0 < vlaneStride

namespace MLIRKernel

variable (k : MLIRKernel)

/-- SOURCE: mlir_common.py:684-685 -/
def getNrRdim : ℕ := k.nrLoops - k.reductionDepth

/-- SOURCE: mlir_common.py:588-593 -/
def getDimSize (dim : Fin k.nrLoops) : ℕ :=
  k.tileSize.get ⟨dim, by have := k.rank_eq; have := dim.isLt; omega⟩

/-- SOURCE: mlir_common.py:263-267 -/
def getUsedVlane : ℕ :=
  min ((k.tileSize.get ⟨k.vlaneSplitAxis, k.split_lt⟩ + k.vlaneStride - 1) / k.vlaneStride)
    k.vectorLane

/-- The loops that the tile of an access has axes for: those of the index expression, or all
loops where the tile is broadcast.
SOURCE: mlir_codegen_backend.py:1187-1198 -/
def localDims (index : IndexExpr k.nrLoops) (broadcast : Bool) : List (Fin k.nrLoops) :=
  let dims := index.freeSymbols
  let totalDims := List.finRange k.nrLoops
  if broadcast ∧ (totalDims ≠ dims ∨
      (k.reductionDepth ≠ totalDims.length ∧ totalDims.take k.reductionDepth = dims)) then
    totalDims
  else dims

/-- SOURCE: mlir_codegen_backend.py:1203-1206 -/
def localVlaneSplitAxis (dims : List (Fin k.nrLoops)) : ℕ :=
  if k.vlaneSplitAxis ∈ dims.map Fin.val then (dims.map Fin.val).idxOf k.vlaneSplitAxis
  else dims.length - 1

def notImplemented : String := "NotImplementedError: Currently not implemented... ;)"

/-- The local tile of an access with axes for the loops `dims`.
SOURCE: mlir_codegen_backend.py:1208-1261 -/
def localTile (storeReduction : Bool) (dims : List (Fin k.nrLoops)) :
    Except String MLIRMultiDimTile :=
  let splitAxis := k.localVlaneSplitAxis dims
  let sizes := dims.map k.getDimSize
  match dims with
  | [] =>
    if !storeReduction then
      .ok (.ofSize [k.getUsedVlane * k.vlaneStride] none splitAxis k.vlaneStride)
    else .ok (.ofSize [1] none 0 1)
  | [dim] =>
    if 1 ≤ k.reductionDepth then .ok (.ofSize sizes none splitAxis k.vlaneStride)
    else .ok (.ofSize [1, k.getDimSize dim] none (splitAxis + 1) k.vlaneStride)
  | [_, _] =>
    if k.reductionDepth = 1 ∧ !storeReduction then
      .ok (.ofSize sizes (some [1, 0]) splitAxis k.vlaneStride)
    else .ok (.ofSize sizes none splitAxis k.vlaneStride)
  | [_, _, _] =>
    if k.reductionDepth < 3 ∧ !storeReduction then
      let axisOrder := if k.getNrRdim = 1 then [1, 2, 0] else [2, 1, 0]
      .ok (.ofSize sizes (some axisOrder) splitAxis k.vlaneStride)
    else .ok (.ofSize sizes none splitAxis k.vlaneStride)
  | [_, _, _, _] =>
    if k.reductionDepth < 3 ∧ !storeReduction then .error notImplemented
    else .ok (.ofSize sizes none splitAxis k.vlaneStride)
  | _ => .error notImplemented

/-- The coefficients of a sum by symbol, with 0 for the loops that do not occur in it.
`store_reduction` leaves the last loop out.
SOURCE: mlir_codegen_backend.py:1283-1303 -/
def dramDict (index : IndexExpr k.nrLoops) (storeReduction : Bool) :
    List (Fin k.nrLoops × List ℤ) :=
  let maxDim := if !storeReduction then k.nrLoops else k.nrLoops - 1
  let missing := (List.finRange k.nrLoops).filter fun i =>
    i.val < maxDim ∧ i ∉ index.freeSymbols
  index.freeSymbols.map (fun i => (i, [index.coeff i])) ++ missing.map (fun i => (i, [0]))

/-- The strides of a sum, in the order of the names of the symbols.
SOURCE: mlir_codegen_backend.py:1304-1305 -/
def sumStride (index : IndexExpr k.nrLoops) (storeReduction : Bool) : List ℤ :=
  let sorted := (k.dramDict index storeReduction).insertionSort fun p q =>
    symbolName p.1 ≤ symbolName q.1
  sorted.flatMap Prod.snd

/-- The stride of the DRAM for each axis of a tile of rank `nrDim`, before the shift for the
dummy loop.
SOURCE: mlir_codegen_backend.py:1273-1305 -/
def alignedStride (index : IndexExpr k.nrLoops) (storeReduction : Bool)
    (dims : List (Fin k.nrLoops)) (nrDim : ℕ) : List ℤ :=
  match index.asSymbol with
  | some dim =>
    if dim ∈ dims then (List.replicate nrDim 0).set (dims.idxOf dim) 1
    else List.replicate nrDim 0
  | none =>
    if index.isNumber then List.replicate nrDim 0
    else k.sumStride index storeReduction

/-- What `get_dma_info` returns. -/
structure DmaInfo where
  localTileDesc : MLIRMultiDimTile
  indexVar : IndexVar k.nrLoops
  dramStride : List ℤ

/-- SOURCE: mlir_codegen_backend.py:1172-1305, 1401-1405 -/
def getDmaInfo (index : IndexExpr k.nrLoops) (broadcast storeReduction : Bool) :
    Except String k.DmaInfo := do
  let dims := k.localDims index broadcast
  let localTileDesc ← k.localTile storeReduction dims
  let stride := k.alignedStride index storeReduction dims localTileDesc.tileSize.length
  -- a kernel with a reduction loop only gets a dummy loop
  let dramStride :=
    if k.nrLoops = 1 ∧ k.reductionDepth = 0 then 0 :: stride.dropLast else stride
  return { localTileDesc, indexVar := parseIndices index, dramStride }

end MLIRKernel

/-- The operations that ask for a descriptor. -/
inductive DmaAccess where
  | load
  | store
  | storeReduction
  deriving DecidableEq, Repr

/-- The descriptor of an access.
SOURCE: mlir_codegen_backend.py:537, 586, 724 -/
def MLIRKernel.dmaInfo (k : MLIRKernel) (access : DmaAccess) (index : IndexExpr k.nrLoops) :
    Except String k.DmaInfo :=
  match access with
  | .load => k.getDmaInfo index true false
  | .store => k.getDmaInfo index true false
  | .storeReduction => k.getDmaInfo index false true

end PyTorchSim.Model
