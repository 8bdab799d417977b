import PyTorchSim.Frontend.TensorOps

/-!
# The decomposition of convolutions

A convolution of one kernel position on one place becomes a linear layer, and one with a single
channel in each group a sum over the kernel positions.  All others are left to the default kernel or
refused.
-/

set_option autoImplicit false

namespace PyTorchSim.Frontend

/-- SOURCE: mlir_decomposition.py:12-16 -/
def pair2d (seq : List ℤ) : Except TorchError (ℤ × ℤ) :=
  match seq with
  | [v] => .ok (v, v)
  | v :: v' :: _ => .ok (v, v')
  | [] => .error .indexError

section

variable {α : Type}

/-- SOURCE: mlir_decomposition.py:26-68 -/
def canRewritePointwiseConvOn1x1SpatialToLinear (input weight : Tensor α)
    (stride padding dilation : List ℤ) (transposed : Bool) (outputPadding : List ℤ) (groups : ℤ) :
    Except TorchError Bool :=
  match input.shape, weight.shape with
  | [_, cin, h, w], [_, cinW, kh, kw] => do
    if transposed then return false
    if groups ≠ 1 then return false
    if ¬ (h = 1 ∧ w = 1 ∧ kh = 1 ∧ kw = 1) then return false
    let (sh, sw) ← pair2d stride
    let (ph, pw) ← pair2d padding
    let (dh, dw) ← pair2d dilation
    if sh ≠ 1 ∨ sw ≠ 1 ∨ ph ≠ 0 ∨ pw ≠ 0 ∨ dh ≠ 1 ∨ dw ≠ 1 then return false
    if outputPadding.length ≠ 0 ∧ outputPadding.any (· ≠ 0) then return false
    if cinW ≠ cin then return false
    return true
  | _, _ => .ok false

end

section

variable {α : Type} [Field α]

/-- SOURCE: mlir_decomposition.py:71-83 -/
def applyPointwiseConvOn1x1SpatialAsLinear (input weight : Tensor α) (bias : Option (Tensor α)) :
    Except TorchError (Tensor α) :=
  match input.shape, weight.shape with
  | [n, cin, _, _], [cout, _, _, _] => do
    let x ← input.view [n, cin]
    let w ← weight.view [cout, cin]
    let y ← x.linear w bias
    y.view [n, cout, 1, 1]
  | _, _ => .error .valueError

/-- One kernel position: the output grid is gathered, multiplied and added.
SOURCE: mlir_decomposition.py:125-131 -/
def addKernelPosition (xPad weight : Tensor α) (g : ℕ) (hOut wOut sh sw dH dW : ℤ) (ki kj : ℕ)
    (out : Tensor α) : Except TorchError (Tensor α) := do
  let rows := (List.range hOut.toNat).map fun i : ℕ => (i : ℤ) * sh + ki * dH
  let cols := (List.range wOut.toNat).map fun j : ℕ => (j : ℤ) * sw + kj * dW
  let sub ← xPad.indexGrid rows cols
  let wgk ← (weight.selectKernel ki kj).view [1, g, 1, 1]
  let product ← sub.broadcastWith (· * ·) wgk
  out.broadcastWith (· + ·) product

/-- SOURCE: mlir_decomposition.py:86-136 -/
def groupConvCin1Cout1 (input weight : Tensor α) (bias : Option (Tensor α))
    (stride padding dilation : List ℤ) (groups : ℤ) : Except TorchError (Tensor α) :=
  match input.shape, weight.shape with
  | [n, cIn, _, _], [cOut, cinPg, kh, kw] => do
    let g := groups
    if ¬ ((cIn : ℤ) = g ∧ (cOut : ℤ) = g ∧ cinPg = 1) then throw .assertionError
    let (sh, sw) ← pair2d stride
    let (ph, pw) ← pair2d padding
    let (dH, dW) ← pair2d dilation
    let xPad ← input.pad pw pw ph ph
    let hp := xPad.shape.getD 2 0
    let wp := xPad.shape.getD 3 0
    if sh = 0 ∨ sw = 0 then throw .zeroDivisionError
    let hOut := Int.fdiv (hp - dH * (kh - 1) - 1) sh + 1
    let wOut := Int.fdiv (wp - dW * (kw - 1) - 1) sw + 1
    let out ← Tensor.zeros n g.toNat hOut wOut
    let out ← (List.range kh).foldlM (fun out ki =>
      (List.range kw).foldlM (fun out kj =>
        addKernelPosition xPad weight g.toNat hOut wOut sh sw dH dW ki kj out) out) out
    match bias with
    | none => return out
    | some bias =>
      let bias ← bias.view [1, g.toNat, 1, 1]
      out.broadcastWith (· + ·) bias
  | _, _ => .error .valueError

/-- No tensor stands for `NotImplemented`.
SOURCE: mlir_decomposition.py:139-211 -/
def decomposeConvolution (input weight : Tensor α) (bias : Option (Tensor α))
    (stride padding dilation : List ℤ) (transposed : Bool) (outputPadding : List ℤ) (groups : ℤ) :
    Except TorchError (Option (Tensor α)) := do
  let gcount := groups
  if ← canRewritePointwiseConvOn1x1SpatialToLinear input weight stride padding dilation transposed
      outputPadding gcount then
    some <$> applyPointwiseConvOn1x1SpatialAsLinear input weight bias
  else if gcount = 1 then return none
  else
    let cin : ℤ := input.shape.getD 1 0
    let cout : ℤ := weight.shape.headD 0
    if gcount = 0 then throw .zeroDivisionError
    let cinPg := cin.fdiv gcount
    let coutPg := cout.fdiv gcount
    let supported := ¬ transposed ∧ cin.fmod gcount = 0 ∧ cout.fmod gcount = 0 ∧ cinPg = 1 ∧
      coutPg = 1 ∧ weight.shape.getD 1 0 = 1
    if ¬ supported then throw .notImplementedError
    some <$> groupConvCin1Cout1 input weight bias stride padding dilation gcount

end

end PyTorchSim.Frontend
