import Mathlib.Algebra.BigOperators.Group.Finset.Basic
import Mathlib.Algebra.Field.Defs
import PyTorchSim.Library.RowMajor

/-!
# The tensor operations of the decompositions

The decompositions of the front end are programs over a few operations of PyTorch.  A tensor is
contiguous here: its shape, and the element at each tuple of coordinates.  The elements are those of
a field, so that the arithmetic is exact.
-/

set_option autoImplicit false

namespace PyTorchSim.Frontend

open Finset Library

structure Tensor (α : Type) where
  shape : List ℕ
  get : List ℕ → α

/-- What the operations and the interpreter raise. -/
inductive TorchError where
  | runtimeError
  | valueError
  | indexError
  | zeroDivisionError
  | assertionError
  | notImplementedError
  | unboundLocalError (name : String)
  deriving DecidableEq, Repr

/-- `a // b` -/
def floorDiv (a b : ℕ) : Except TorchError ℕ :=
  if b = 0 then .error .zeroDivisionError else .ok (a / b)

namespace Tensor

section

variable {α : Type}

def numel (t : Tensor α) : ℕ := t.shape.prod

/-- `t.view(shape)`: the elements stay where they are. -/
def view (t : Tensor α) (shape : List ℕ) : Except TorchError (Tensor α) :=
  if t.numel = shape.prod then .ok ⟨shape, fun idx => t.get (unravel t.shape (ravel shape idx))⟩
  else .error .runtimeError

/-- `t.view(-1, cols)` -/
def viewRows (t : Tensor α) (cols : ℕ) : Except TorchError (Tensor α) :=
  if cols = 0 then .error .runtimeError
  else t.view [t.numel / cols, cols]

/-- `t.permute(order)` -/
def permute (t : Tensor α) (order : List ℕ) : Tensor α :=
  ⟨order.map fun d => t.shape.getD d 0, fun idx =>
    t.get ((List.range order.length).map fun d => idx.getD (order.idxOf d) 0)⟩

/-- The elements of `t.contiguous()` in memory. -/
def data (t : Tensor α) (address : ℕ) : α := t.get (unravel t.shape address)

/-- `t.unsqueeze(0)` -/
def unsqueeze0 (t : Tensor α) : Tensor α := ⟨1 :: t.shape, fun idx => t.get idx.tail⟩

/-- `t[lo:hi]` -/
def slice (t : Tensor α) (lo hi : ℕ) : Tensor α :=
  let size := t.shape.headD 0
  ⟨(min hi size - min lo size) :: t.shape.tail,
    fun idx => t.get ((min lo size + idx.headD 0) :: idx.tail)⟩

/-- `torch.split(t, size, dim=0)` -/
def split (t : Tensor α) (size : ℕ) : Except TorchError (List (Tensor α)) :=
  if size = 0 then .error .runtimeError
  else .ok ((List.range (max ((t.shape.headD 0 + size - 1) / size) 1)).map fun c =>
    t.slice (c * size) ((c + 1) * size))

/-- The list with two of its entries exchanged. -/
def exchange (l : List ℕ) (i j : ℕ) : List ℕ := (l.set i (l.getD j 0)).set j (l.getD i 0)

/-- `t.transpose(i, j)` -/
def transpose (t : Tensor α) (i j : ℕ) : Tensor α :=
  ⟨exchange t.shape i j, fun idx => t.get (exchange idx i j)⟩

/-- `t.repeat_interleave(times, dim=1)` -/
def repeatInterleave1 (t : Tensor α) (times : ℕ) : Tensor α :=
  ⟨t.shape.set 1 (t.shape.getD 1 0 * times), fun idx => t.get (idx.set 1 (idx.getD 1 0 / times))⟩

/-- An index of a dimension; negative ones count from its end. -/
def wrapIndex (size : ℕ) (v : ℤ) : Option ℕ :=
  if 0 ≤ v ∧ v < size then some v.toNat
  else if -size ≤ v ∧ v < 0 then some (v + size).toNat
  else none

/-- `t[:, :, rows[:, None], cols[None, :]]` -/
def indexGrid (t : Tensor α) (rows cols : List ℤ) : Except TorchError (Tensor α) :=
  match t.shape with
  | [n, c, h, w] =>
    match rows.mapM (wrapIndex h), cols.mapM (wrapIndex w) with
    | some rows, some cols =>
      .ok ⟨[n, c, rows.length, cols.length], fun idx =>
        match idx with
        | [b, k, i, j] => t.get [b, k, rows.getD i 0, cols.getD j 0]
        | _ => t.get idx⟩
    | _, _ => .error .indexError
  | _ => .error .indexError

/-- `t[:, 0, i, j]` -/
def selectKernel (t : Tensor α) (i j : ℕ) : Tensor α :=
  ⟨[t.shape.headD 0], fun idx => t.get [idx.headD 0, 0, i, j]⟩

/-- The coordinates in a tensor that is broadcast. -/
def clip (shape idx : List ℕ) : List ℕ :=
  List.zipWith (fun n i => if n = 1 then 0 else i) shape idx

/-- An operation on two tensors of one rank, element by element. -/
def broadcastWith (f : α → α → α) (t u : Tensor α) : Except TorchError (Tensor α) :=
  if List.Forall₂ (fun n m => n = m ∨ n = 1 ∨ m = 1) t.shape u.shape then
    .ok ⟨List.zipWith (fun n m => if n = 1 then m else n) t.shape u.shape, fun idx =>
      f (t.get (clip t.shape idx)) (u.get (clip u.shape idx))⟩
  else .error .runtimeError

def map {β : Type} (f : α → β) (t : Tensor α) : Tensor β := ⟨t.shape, fun idx => f (t.get idx)⟩

end

section

variable {α : Type} [Field α]

/-- `torch.zeros(n, c, h, w)` -/
def zeros (n c : ℕ) (h w : ℤ) : Except TorchError (Tensor α) :=
  if h < 0 ∨ w < 0 then .error .runtimeError else .ok ⟨[n, c, h.toNat, w.toNat], fun _ => 0⟩

/-- The element of a channel at a place of the plane, and 0 outside. -/
def planeEntry (t : Tensor α) (n c h w : ℕ) (y x : ℤ) : α :=
  if 0 ≤ y ∧ y < h ∧ 0 ≤ x ∧ x < w then t.get [n, c, y.toNat, x.toNat] else 0

/-- `F.pad(t, (left, right, top, bottom))` -/
def pad (t : Tensor α) (left right top bottom : ℤ) : Except TorchError (Tensor α) :=
  match t.shape with
  | [n, c, h, w] =>
    let hp := h + top + bottom
    let wp := w + left + right
    if hp < 0 ∨ wp < 0 then .error .runtimeError
    else .ok ⟨[n, c, hp.toNat, wp.toNat], fun idx =>
      match idx with
      | [b, k, i, j] => t.planeEntry b k h w (i - top) (j - left)
      | _ => 0⟩
  | _ => .error .runtimeError

/-- `F.linear(input, weight, bias)` -/
def linear (input weight : Tensor α) (bias : Option (Tensor α)) : Except TorchError (Tensor α) :=
  match input.shape.getLast?, weight.shape with
  | some inFeatures, [outFeatures, inFeatures'] =>
    if inFeatures = inFeatures' ∧ ∀ b ∈ bias, b.shape = [outFeatures] then
      .ok ⟨input.shape.dropLast ++ [outFeatures], fun idx =>
        let row := idx.getLastD 0
        ∑ i ∈ range inFeatures, input.get (idx.dropLast ++ [i]) * weight.get [row, i] +
          bias.elim 0 fun b => b.get [row]⟩
    else .error .runtimeError
  | _, _ => .error .runtimeError

/-- `torch.matmul` of two batches of heads. -/
def matmul (t u : Tensor α) : Except TorchError (Tensor α) :=
  match t.shape, u.shape with
  | [batch, heads, rows, inner], [batch', heads', inner', cols] =>
    if batch = batch' ∧ heads = heads' ∧ inner = inner' then
      .ok ⟨[batch, heads, rows, cols], fun idx =>
        match idx with
        | [b, h, i, j] => ∑ k ∈ range inner, t.get [b, h, i, k] * u.get [b, h, k, j]
        | _ => 0⟩
    else .error .runtimeError
  | _, _ => .error .runtimeError

/-- `F.softmax(t, dim=-1)` -/
def softmax (exp : α → α) (t : Tensor α) : Tensor α :=
  ⟨t.shape, fun idx =>
    exp (t.get idx) / ∑ j ∈ range (t.shape.getLastD 0), exp (t.get (idx.dropLast ++ [j]))⟩

/-- `t.mean(dim=1)` -/
def mean1 (t : Tensor α) : Tensor α :=
  let size := t.shape.getD 1 0
  ⟨t.shape.eraseIdx 1, fun idx => (∑ h ∈ range size, t.get (idx.insertIdx 1 h)) / size⟩

end

end Tensor

end PyTorchSim.Frontend
