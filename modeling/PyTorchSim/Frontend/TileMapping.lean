import Mathlib.Data.List.Sort
import PyTorchSim.Model.FlashSdpa

/-!
# Tile mappings of convolutions

A template searches for the tiles that fit into half of the scratchpad.  The search of a convolution
fixes the sizes of the matrix multiplication first and goes through the divisors of the kernel and
output sizes.

The files to which `gemm_combination_mapping` writes its candidates, and the mappings that the
heuristics select, are not returned and are left out.
-/

set_option autoImplicit false

namespace PyTorchSim.Frontend

open PyTorchSim.Model (getSpadSizePerLane)

/-- The lanes of the vector unit and the bytes of scratchpad of each of them. -/
structure SpadHardware where
  vectorLane : ℕ
  spadSize : ℕ
  lane_pos : 0 < vectorLane

namespace SpadHardware

/-- SOURCE: mlir_template.py:210-212 -/
def maxSpadSize (hw : SpadHardware) : ℕ := hw.spadSize * hw.vectorLane / 2

/-- SOURCE: mlir_template.py:213 -/
def maxSpadPerLane (hw : SpadHardware) : ℕ := hw.spadSize / 2

end SpadHardware

/-- The bytes that a tile takes in the whole scratchpad and in a lane. -/
structure SpadUse where
  total : ℕ
  perLane : ℕ
  deriving DecidableEq, Repr

/-- SOURCE: mlir_template.py:269 -/
def checkSpadSize (hw : SpadHardware) (use : SpadUse) : Bool :=
  use.total < hw.maxSpadSize && use.perLane < hw.maxSpadPerLane

/-- `sympy.divisors`: the divisors of a positive number in increasing order. -/
def divisors (n : ℕ) : List ℕ := (List.range' 1 n).filter (· ∣ n)

/-- The candidates by decreasing use; `sorted` is stable.
SOURCE: mlir_template.py:277-278 -/
def sortByUse {β : Type} (candidates : List (ℕ × β)) : List β :=
  (candidates.insertionSort fun a b => b.1 ≤ a.1).map Prod.snd

/-! ## Matrix multiplication -/

/-- SOURCE: mlir_template.py:215-217 -/
def padFactor (hw : SpadHardware) (size small : ℕ) : ℕ :=
  if hw.vectorLane < size then hw.vectorLane else small

/-- SOURCE: mlir_template.py:219-221 -/
def padTo (size factor : ℕ) : ℕ := (size + factor - 1) / factor * factor

/-- SOURCE: mlir_template.py:222, 226-228, 257-262 -/
def tileRange (hw : SpadHardware) (size padded : ℕ) : List ℕ :=
  if hw.vectorLane < size then (divisors (padded / hw.vectorLane)).map (· * hw.vectorLane)
  else [padded]

/-- The use of a tile of a matrix multiplication without prologue nodes.
SOURCE: mlir_template.py:263-267 -/
def gemmUse (hw : SpadHardware) (nExtraNode precisionBytes tileM tileN tileK : ℕ) : SpadUse where
  total := (tileM * tileK + tileK * tileN + tileM * tileN * (1 + nExtraNode)) * precisionBytes
  perLane :=
    (getSpadSizePerLane hw.vectorLane tileK tileN + getSpadSizePerLane hw.vectorLane tileM tileK +
      getSpadSizePerLane hw.vectorLane (tileM * (1 + nExtraNode)) tileN) * precisionBytes

/-- The call of the convolutions, with `pad_k=False` and no prologue nodes.
SOURCE: mlir_template.py:208-279 -/
def gemmCombinationMapping (hw : SpadHardware) (M N K nExtraNode precisionBytes : ℕ) :
    List (ℕ × ℕ × ℕ) :=
  let kPadFactor := padFactor hw K 1
  let K := max K 8
  let mPadded := padTo M (padFactor hw M 8)
  let nPadded := padTo N (padFactor hw N 8)
  let kPadded := padTo K kPadFactor
  sortByUse
    ((tileRange hw K kPadded).flatMap fun tileK =>
      (tileRange hw M mPadded).flatMap fun tileM =>
        (tileRange hw N nPadded).filterMap fun tileN =>
          let use := gemmUse hw nExtraNode precisionBytes tileM tileN tileK
          if checkSpadSize hw use then some (use.total, tileM, tileN, tileK) else none)

/-! ## Convolution -/

/-- The problem of a convolution: the arguments of the mappings. -/
structure ConvProblem where
  M : ℕ
  N : ℕ
  K : ℕ
  kernelH : ℕ
  kernelW : ℕ
  outputH : ℕ
  outputW : ℕ
  stride : ℕ × ℕ
  dilation : ℕ × ℕ
  nExtraNode : ℕ
  precisionBytes : ℕ
  n_pos : 0 < N
  precision_pos : 0 < precisionBytes

/-- A candidate: kernel height and width, output height and width, and the sizes of the matrix
multiplication. -/
structure ConvTile where
  kH : ℕ
  kW : ℕ
  oH : ℕ
  oW : ℕ
  m : ℕ
  n : ℕ
  k : ℕ
  deriving DecidableEq, Repr

/-- The input rows or columns that a part of the output needs.
SOURCE: mlir_template.py:297-298 -/
def inputExtent (output kernel stride dilation : ℕ) : ℕ :=
  1 + (output - 1) * stride + (kernel - 1) * dilation

/-- What a search keeps: the candidates, the largest use of those that the side condition accepted,
and what the side condition compares with. -/
structure SearchState (σ : Type) where
  maxUsed : ℕ
  best : σ
  candidates : List (ℕ × ConvTile)

/-- The body of the innermost loop.
SOURCE: mlir_template.py:308-314 -/
def searchStep {σ : Type} (hw : SpadHardware) (use : ConvTile → SpadUse)
    (accepts : σ → ConvTile → Bool)
    (record : ConvTile → σ) (s : SearchState σ) (t : ConvTile) : SearchState σ :=
  if checkSpadSize hw (use t) then
    let candidates := s.candidates ++ [((use t).total, t)]
    if s.maxUsed < (use t).total && accepts s.best t then
      ⟨(use t).total, record t, candidates⟩
    else { s with candidates := candidates }
  else s

/-- The loops over the tiles, and what is done with the candidates.
SOURCE: mlir_template.py:291-320 -/
def convSearch {σ : Type} (hw : SpadHardware) (use : ConvTile → SpadUse)
    (accepts : σ → ConvTile → Bool)
    (record : ConvTile → σ) (init : σ) (space : List ConvTile) : Except String (List ConvTile) :=
  let s := space.foldl (searchStep hw use accepts record) ⟨0, init, []⟩
  if s.maxUsed = 0 then .error "Cannot find a valid mapping" else .ok (sortByUse s.candidates)

section Mappings

variable (hw : SpadHardware) (p : ConvProblem)

/-- SOURCE: mlir_template.py:293-296 -/
def combinationSpace (m n k : ℕ) : List ConvTile :=
  (divisors p.outputH).flatMap fun oH => (divisors p.outputW).flatMap fun oW =>
    (divisors p.kernelH).flatMap fun kH => (divisors p.kernelW).map fun kW =>
      ⟨kH, kW, oH, oW, m, n, k⟩

/-- SOURCE: mlir_template.py:297-306 -/
def combinationUse (t : ConvTile) : SpadUse :=
  let iH := inputExtent t.oH t.kH p.stride.1 p.dilation.1
  let iW := inputExtent t.oW t.kW p.stride.2 p.dilation.2
  let weightSize := t.kW * t.kH * t.k * t.n
  let inputSize := iW * iH * t.m * t.k
  let outputSize := t.oW * t.oH * t.m * t.n
  { total := (weightSize + inputSize + outputSize * (1 + p.nExtraNode)) * p.precisionBytes
    perLane :=
      (getSpadSizePerLane hw.vectorLane (t.kW * t.kH * t.k) t.n +
        getSpadSizePerLane hw.vectorLane (iW * iH * t.m) t.k +
        getSpadSizePerLane hw.vectorLane (t.oW * t.oH * t.m * (1 + p.nExtraNode)) t.n) *
        p.precisionBytes }

/-- SOURCE: mlir_template.py:281-320 -/
def convCombinationMapping : Except String (List ConvTile) :=
  match gemmCombinationMapping hw p.M p.N p.K p.nExtraNode p.precisionBytes with
  | [] => .error "list index out of range"
  | (m, n, k) :: _ =>
    convSearch hw (combinationUse hw p)
      (fun best t => decide (best.1 ≤ t.kH * t.kW) && decide (best.2 ≤ t.oH * t.oW))
      (fun t => (t.kH * t.kW, t.oH * t.oW)) (1, 1)
      (combinationSpace p m n (min k hw.vectorLane))

/-- SOURCE: mlir_template.py:332-334 -/
def multiTileSpace (m n k : ℕ) : List ConvTile :=
  (divisors p.outputH).flatMap fun oH => (divisors p.outputW).flatMap fun oW =>
    (divisors p.kernelH).map fun kH => ⟨kH, p.kernelW, oH, oW, m, n, k⟩

/-- SOURCE: mlir_template.py:335-344 -/
def multiTileUse (t : ConvTile) : SpadUse :=
  let iH := inputExtent t.oH t.kH p.stride.1 p.dilation.1
  let iW := inputExtent t.oW p.kernelW p.stride.2 p.dilation.2
  let weightSize := 1 * t.kH * t.k * t.n
  let inputSize := iW * iH * t.m * t.k
  let outputSize := t.oW * t.oH * t.m * t.n
  { total := (weightSize + inputSize + outputSize * (1 + p.nExtraNode)) * p.precisionBytes
    perLane :=
      (getSpadSizePerLane hw.vectorLane (1 * t.kH * t.k) t.n +
        getSpadSizePerLane hw.vectorLane (iW * iH * t.m) t.k +
        getSpadSizePerLane hw.vectorLane (t.oW * t.oH * t.m * (1 + p.nExtraNode)) t.n) *
        p.precisionBytes }

/-- The kernel height is compared with a maximum that starts at the kernel width.
SOURCE: mlir_template.py:322-356 -/
def convMultiTileMapping : Except String (List ConvTile) :=
  match gemmCombinationMapping hw p.M p.N (p.K * p.kernelW) p.nExtraNode p.precisionBytes with
  | [] => .error "list index out of range"
  | (m, n, k) :: _ =>
    convSearch hw (multiTileUse hw p) (fun best t => decide (best ≤ t.kH)) ConvTile.kH p.kernelW
      (multiTileSpace p m n k)

/-- SOURCE: mlir_template.py:368-370 -/
def singleBatchSpace (m n k : ℕ) : List ConvTile :=
  (divisors p.outputH).flatMap fun oH => (divisors p.kernelH).flatMap fun kH =>
    (divisors p.kernelW).map fun kW => ⟨kH, kW, oH, m, m, n, k⟩

/-- SOURCE: mlir_template.py:371-380 -/
def singleBatchUse (t : ConvTile) : SpadUse :=
  let iH := inputExtent t.oH t.kH p.stride.1 p.dilation.1
  let iW := inputExtent t.m t.kW p.stride.2 p.dilation.2
  let weightSize := t.kW * t.kH * t.k * t.n
  let inputSize := iW * iH * t.kW * t.k
  let outputSize := t.m * t.oH * t.n
  { total := (weightSize + inputSize + outputSize * (1 + p.nExtraNode)) * p.precisionBytes
    perLane :=
      (getSpadSizePerLane hw.vectorLane (t.kW * t.kH * t.k) t.n +
        getSpadSizePerLane hw.vectorLane (iW * iH * t.kW) t.k +
        getSpadSizePerLane hw.vectorLane (t.m * t.oH * (1 + p.nExtraNode)) t.n) *
        p.precisionBytes }

/-- SOURCE: mlir_template.py:358-392 -/
def convSingleBatchMapping : Except String (List ConvTile) :=
  match gemmCombinationMapping hw p.outputW p.N p.K p.nExtraNode p.precisionBytes with
  | [] => .error "list index out of range"
  | (m, n, k) :: _ =>
    convSearch hw (singleBatchUse hw p) (fun best t => decide (best ≤ t.kH * t.kW))
      (fun t => t.kH * t.kW) 1 (singleBatchSpace p m n k)

end Mappings

end PyTorchSim.Frontend
