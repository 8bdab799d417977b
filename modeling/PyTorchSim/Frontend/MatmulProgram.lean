import Mathlib.Algebra.BigOperators.Group.Finset.Basic
import PyTorchSim.Frontend.CatProgram

/-!
# Tiled matrix multiplications

The loop nest that the templates of matrix multiplications render when nothing is fused into them.
A tile of the output starts from zero or from the bias, the accumulation loop adds the products of
the tiles of both operands, and the tile is stored.

A DMA moves the coordinates of its tile that lie below the bounds of the loops over its axes; the
other elements that it loads are zero.  `linalg.matmul` works on the two-dimensional tiles.
-/

set_option autoImplicit false

namespace PyTorchSim.Frontend

open CatProgram (loopRange)

/-- An entry of an index list, as `sympy` keeps it.  A loop is given by its number. -/
inductive AddressTerm where
  | number (value : ℕ)
  | symbol (loop : ℕ)
  | mul (coefficient loop : ℕ)
  deriving DecidableEq, Repr

/-- `sympy.Symbol("index…") * stride` -/
def loopTimes (loop stride : ℕ) : AddressTerm :=
  if stride = 0 then .number 0 else if stride = 1 then .symbol loop else .mul stride loop

/-- The stride that a DMA reads off its index list.
SOURCE: mlir_template.py:936-945 -/
def AddressTerm.dramStride : AddressTerm → ℕ
  | .mul coefficient _ => coefficient
  | .symbol _ => 1
  | .number _ => 0

/-- SOURCE: mlir_codegen_backend.py:476-494 -/
def AddressTerm.value (index : List ℕ) : AddressTerm → ℕ
  | .mul coefficient loop => coefficient * index.getD loop 0
  | .symbol loop => index.getD loop 0
  | .number value => value

/-- A DMA: the sizes of the tile, the loops over its axes, and where the tile lies in memory. -/
structure DmaTile where
  tileSize : List ℕ
  loops : List ℕ
  indexList : List AddressTerm
  offset : ℕ
  deriving DecidableEq, Repr

/-- The address of an element of the tile.
SOURCE: mlir_codegen_backend.py:496-502, mlir_template.py:922, 936-945 -/
def DmaTile.address (t : DmaTile) (index c : List ℕ) : ℕ :=
  (t.indexList.map (AddressTerm.value index)).sum + t.offset +
    (List.zipWith (· * ·) (t.indexList.map AddressTerm.dramStride) c).sum

/-- The loops are numbered from the outside, and the accumulation loop is the innermost.  `lead` are
the coordinates of a tile in front of its rows. -/
structure MatmulProgram where
  outerLoops : List (ℕ × ℕ)
  accumulationLoop : ℕ × ℕ
  lead : List ℕ
  x : DmaTile
  w : DmaTile
  y : DmaTile
  bias : Option DmaTile
  deriving DecidableEq, Repr

/-- The operands in memory. -/
structure MatmulMemory (R : Type) where
  x : ℕ → R
  w : ℕ → R
  bias : ℕ → R

/-- The tiles in the scratchpad, and the output in memory. -/
structure MatmulState (R : Type) where
  xBuffer : List ℕ → R
  wBuffer : List ℕ → R
  yBuffer : List ℕ → R
  y : ℕ → R

namespace MatmulProgram

variable {R : Type} [Semiring R]

/-- The bound of a loop. -/
def bound (p : MatmulProgram) (loop : ℕ) : ℕ :=
  ((p.outerLoops ++ [p.accumulationLoop]).getD loop (0, 0)).1

/-- The coordinates of the tile that a DMA moves. -/
def moved (p : MatmulProgram) (t : DmaTile) (index : List ℕ) : List (List ℕ) :=
  product (List.zipWith (fun size loop => List.range (min size (p.bound loop - index.getD loop 0)))
    t.tileSize t.loops)

/-- `MVIN` -/
def load (p : MatmulProgram) (t : DmaTile) (dram : ℕ → R) (index : List ℕ) : List ℕ → R :=
  fun c => if c ∈ p.moved t index then dram (t.address index c) else 0

/-- `linalg.matmul` -/
def matmul (p : MatmulProgram) (x w y : List ℕ → R) : List ℕ → R := fun c =>
  match c.drop p.lead.length with
  | [i, j] =>
    y c + ∑ k ∈ Finset.range p.accumulationLoop.2, x (p.lead ++ [i, k]) * w (p.lead ++ [k, j])
  | _ => y c

/-- The body of the accumulation loop.
SOURCE: mlir_gemm_template.py:44-48, mlir_bmm_template.py:46-49 -/
def accumulate (p : MatmulProgram) (mem : MatmulMemory R) (index : List ℕ) (s : MatmulState R)
    (k : ℕ) : MatmulState R :=
  let x := p.load p.x mem.x (index ++ [k])
  let w := p.load p.w mem.w (index ++ [k])
  { s with xBuffer := x, wBuffer := w, yBuffer := p.matmul x w s.yBuffer }

/-- `MVOUT` -/
def store (p : MatmulProgram) (index : List ℕ) (s : MatmulState R) : MatmulState R :=
  { s with y := (p.moved p.y index).foldl (fun y c =>
      Function.update y (p.y.address index c) (s.yBuffer c)) s.y }

/-- What the accumulation starts from. -/
def start (p : MatmulProgram) (mem : MatmulMemory R) (index : List ℕ) : List ℕ → R :=
  match p.bias with
  | none => fun _ => 0
  | some bias => p.load bias mem.bias index

/-- A tile of the output.
SOURCE: mlir_gemm_template.py:34-50, mlir_bmm_template.py:39-51 -/
def outputTile (p : MatmulProgram) (mem : MatmulMemory R) (s : MatmulState R) (index : List ℕ) :
    MatmulState R :=
  p.store index ((loopRange p.accumulationLoop.1 p.accumulationLoop.2).foldl
    (p.accumulate mem index) { s with yBuffer := p.start mem index })

/-- SOURCE: mlir_gemm_template.py:32-52, mlir_bmm_template.py:33-54 -/
def run (p : MatmulProgram) (mem : MatmulMemory R) (s : MatmulState R) : MatmulState R :=
  (product (p.outerLoops.map fun l => loopRange l.1 l.2)).foldl (p.outputTile mem) s

end MatmulProgram

end PyTorchSim.Frontend
