import PyTorchSim.Frontend.TileDesc

/-!
# Implicit dimensions

An operand of a kernel may be a view of a tensor with more dimensions than the kernel has.  Its
index then has terms with a floor divisor, which the tile has to respect.  The divisors are
collected from the terms of the operands, under the expression that is divided, and are applied to
the axes of the tile.
-/

set_option autoImplicit false

namespace PyTorchSim.Frontend

/-- The expression that a term divides, `coeff * index + offset` for the index of one dimension. -/
structure IndexBase where
  dim : ℕ
  coeff : ℤ
  offset : ℤ
  deriving DecidableEq, Repr

/-- The index of a dimension itself. -/
def IndexBase.symbol (dim : ℕ) : IndexBase := ⟨dim, 1, 0⟩

/-- A term of an index without its coefficient.
SOURCE: mlir_common.py:750-768 -/
inductive IndexAtom where
  | number
  | symbol (dim : ℕ)
  | modularIndexing (base : IndexBase) (divisor modulus : ℕ)
  | floorDiv (base : IndexBase) (divisor : ℕ)
  | severalSymbols
  | other
  deriving DecidableEq, Repr

/-- A read operand: the terms of its index, each with its coefficient, and the ranges of the
dimensions. -/
structure ReadOperand where
  args : List (ℤ × IndexAtom)
  ranges : ℕ → ℕ

/-- A `ModularIndexing` expression, `base // divisor % modulus`. -/
structure ModularExpr where
  base : IndexBase
  divisor : ℕ
  modulus : ℕ
  deriving DecidableEq, Repr

/-- A new `ModularIndexing` expression.  With the modulus 1 it is simplified to the number 0, to
which `original_expr` cannot be assigned. -/
def makeModular (base : IndexBase) (divisor modulus : ℕ) : Except String ModularExpr :=
  if modulus = 1 then .error "AttributeError" else .ok ⟨base, divisor, modulus⟩

/-- The body of the loop over the terms; the coefficient of a term is dropped.  The range of the
divided expression of a `FloorDiv` term is looked up, and only the index of a dimension has one.
SOURCE: mlir_common.py:750-768 -/
def modularExpr (ranges : ℕ → ℕ) : IndexAtom → Except String (Option ModularExpr)
  | .number => .ok none
  | .severalSymbols => .error "Not supporting this view operation...!"
  | .modularIndexing base divisor modulus => .ok (some ⟨base, divisor, modulus⟩)
  | .symbol dim => (makeModular (.symbol dim) 1 (ranges dim)).map some
  | .floorDiv base divisor =>
    if base = .symbol base.dim then
      (makeModular base divisor (ranges base.dim / divisor)).map some
    else .error "KeyError"
  | .other => .error "What is this case?"

/-- A dictionary of sets: the keys in the order in which they were added first. -/
abbrev DimDividers := List (IndexBase × List ModularExpr)

/-- SOURCE: mlir_common.py:769 -/
def addDivider (dimDividers : DimDividers) (expr : ModularExpr) : DimDividers :=
  if expr.base ∈ dimDividers.map Prod.fst then
    dimDividers.map fun entry =>
      if entry.1 = expr.base then (entry.1, entry.2.insert expr) else entry
  else dimDividers ++ [(expr.base, [expr])]

/-- SOURCE: mlir_common.py:750-769 -/
def extractTerms (ranges : ℕ → ℕ) (dimDividers : DimDividers) :
    List (ℤ × IndexAtom) → Except String DimDividers
  | [] => .ok dimDividers
  | arg :: args => do
    match ← modularExpr ranges arg.2 with
    | none => extractTerms ranges dimDividers args
    | some expr => extractTerms ranges (addDivider dimDividers expr) args

/-- SOURCE: mlir_common.py:737-770 -/
def extractDividers (implicitOps : List ReadOperand) : Except String DimDividers :=
  implicitOps.foldlM (fun dimDividers operand =>
    extractTerms operand.ranges dimDividers operand.args) []

/-- What `compute_tile_size` does with the implicit dimensions.
SOURCE: mlir_common.py:793-797 -/
def applyImplicitDims (T : MLIRMultiDimTile) (implicitOps : List ReadOperand) (ranges : List ℕ) :
    Except String MLIRMultiDimTile := do
  let tileConstraints ← extractDividers implicitOps
  return T.applyConstraints
    (tileConstraints.map fun entry => entry.2.map ModularExpr.divisor) ranges

end PyTorchSim.Frontend
