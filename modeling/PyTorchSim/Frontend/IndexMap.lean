import Mathlib.Data.List.Sort
import Mathlib.Data.PNat.Defs
import PyTorchSim.Frontend.ImplicitDims
import PyTorchSim.Library.AffineText

/-!
# Index expressions as affine maps

The index of an access is translated to `affine.apply` operations.  The terms of a sum that are not
symbols get an operation each, whose map is written from the printed term; the sum itself is written
by a recursive printer over the results.

The texts are sequences of tokens.  Terms are those with one symbol; on any other term
`convert_index` raises `NotImplementedError`.
-/

set_option autoImplicit false

namespace PyTorchSim.Frontend

open PyTorchSim.Library

/-! ## Index expressions -/

/-- A term of an index expression without its coefficient: a symbol, `base // divisor`, or
`base // divisor % modulus`. -/
inductive IndexTerm where
  | symbol (dim : ℕ)
  | floorDiv (base : IndexBase) (divisor : ℕ+)
  | modularIndexing (base : IndexBase) (divisor modulus : ℕ+)
  deriving DecidableEq, Repr

/-- An index expression: a number, a term, or a sum of multiples of terms and a number.  The
multiple of a term is a sum of one term. -/
inductive IndexExpr where
  | number (n : ℤ)
  | term (t : IndexTerm)
  | sum (first : ℤ × IndexTerm) (rest : List (ℤ × IndexTerm)) (offset : ℤ)
  deriving DecidableEq, Repr

/-- The value of the divided expression. -/
def IndexBase.value (rho : ℕ → ℕ) (base : IndexBase) : ℤ :=
  base.coeff * rho base.dim + base.offset

def IndexTerm.value (rho : ℕ → ℕ) : IndexTerm → ℤ
  | .symbol dim => rho dim
  | .floorDiv base divisor => base.value rho / (divisor : ℕ)
  | .modularIndexing base divisor modulus => base.value rho / (divisor : ℕ) % (modulus : ℕ)

/-- The value of an index expression where the symbols have the values. -/
def IndexExpr.value (rho : ℕ → ℕ) : IndexExpr → ℤ
  | .number n => n
  | .term t => t.value rho
  | .sum first rest offset =>
    ((first :: rest).map fun arg => arg.1 * arg.2.value rho).sum + offset

/-- The symbol of a term. -/
def IndexTerm.dim : IndexTerm → ℕ
  | .symbol dim => dim
  | .floorDiv base _ => base.dim
  | .modularIndexing base _ _ => base.dim

/-! ## Printed expressions -/

/-- A printed integer. -/
def numText {α : Type} (n : ℤ) : List (AffineToken α) :=
  if 0 ≤ n then [.num n.natAbs] else [.minus, .num n.natAbs]

/-- A printed multiple of a symbol. -/
def monomialText (coeff : ℤ) (dim : ℕ) : List (AffineToken ℕ) :=
  if coeff = 1 then [.name dim]
  else if coeff = -1 then [.minus, .name dim]
  else numText coeff ++ .times :: [.name dim]

/-- A printed sum of a multiple of a symbol and a number.  The number stands first where it is
positive and the coefficient is negative. -/
def linearText (base : IndexBase) : List (AffineToken ℕ) :=
  if base.offset = 0 then monomialText base.coeff base.dim
  else if 0 < base.offset then
    if base.coeff < 0 then .num base.offset.natAbs :: .minus :: monomialText (-base.coeff) base.dim
    else monomialText base.coeff base.dim ++ .plus :: [.num base.offset.natAbs]
  else monomialText base.coeff base.dim ++ .minus :: [.num base.offset.natAbs]

/-- The base of a printed `FloorDiv` has parentheses unless it is a symbol. -/
def dividedText (base : IndexBase) : List (AffineToken ℕ) :=
  if base = .symbol base.dim then [.name base.dim] else .lparen :: (linearText base ++ [.rparen])

/-! ## The translation -/

/-- A variable of the generated code: an index, or the result of an `affine.apply` to an
index.  Equal maps of one index share their variable. -/
inductive Operand where
  | index (dim : ℕ)
  | applied (dim : ℕ) (text : List (AffineToken ℕ))
  deriving DecidableEq, Repr

/-- SOURCE: mlir_codegen_backend.py:343-369 -/
def convertIndex : IndexTerm → Operand
  | .symbol dim => .index dim
  | .floorDiv base divisor =>
    .applied base.dim
      (.lparen :: ((dividedText base ++ .floordiv :: [.num divisor]) ++ [.rparen]))
  | .modularIndexing base divisor modulus =>
    .applied base.dim
      ((.lparen :: ((linearText base ++ .floordiv :: [.num divisor]) ++ [.rparen])) ++
        .mod :: [.num modulus])

/-- What `convert_index` does with an argument of a `FloorDiv` or a `ModularIndexing` that is the
whole expression: the coefficient is dropped, and a sum is not supported.
SOURCE: mlir_codegen_backend.py:343-357, 377-384 -/
def convertArgument (base : IndexBase) : Except String Operand :=
  if base.offset = 0 then .ok (.index base.dim) else .error "What is this case?"

/-- SOURCE: mlir_codegen_backend.py:421-423 -/
def mulText {α : Type} (coeff : ℤ) (name : α) : List (AffineToken α) :=
  if coeff = 1 then [.name name] else numText coeff ++ .times :: [.name name]

/-- SOURCE: mlir_codegen_backend.py:418-420 -/
def addText (terms : List (ℤ × IndexTerm)) (offset : ℤ) : List (AffineToken Operand) :=
  List.intercalate [.plus]
    ((if offset = 0 then [] else [numText offset]) ++
      terms.map fun arg => mulText arg.1 (convertIndex arg.2))

/-- The name by which the arguments are sorted. -/
def symbolName (dim : ℕ) : String := "index" ++ toString dim

/-- SOURCE: mlir_codegen_backend.py:449-450 -/
def sortedArgs (terms : List (ℤ × IndexTerm)) : List (ℤ × IndexTerm) :=
  terms.insertionSort fun a b => symbolName a.2.dim ≤ symbolName b.2.dim

/-- The result of a translation: a constant, an index, or an `affine.apply` with the names of its
map, which are those of its operands, and the text of the map. -/
inductive Translated where
  | const (n : ℤ)
  | index (dim : ℕ)
  | apply (dims : List Operand) (text : List (AffineToken Operand))
  deriving DecidableEq, Repr

/-- The text of a division by the recursive printer. -/
def floorDivText (base : IndexBase) (divisor : ℕ+) : List (AffineToken Operand) :=
  .lparen ::
    ((mulText base.coeff (Operand.index base.dim) ++ .floordiv :: [.num divisor]) ++ [.rparen])

/-- The translation without indirect dimensions.  A `ModularIndexing` that is the whole expression
becomes a `Mod`, with a `FloorDiv` inside it unless the divisor is one.
SOURCE: mlir_codegen_backend.py:371-460 -/
def parseIndices : IndexExpr → Except String Translated
  | .number n => .ok (.const n)
  | .term (.symbol dim) => .ok (.index dim)
  | .term (.floorDiv base divisor) => do
    let argument ← convertArgument base
    return .apply [argument] (floorDivText base divisor)
  | .term (.modularIndexing base divisor modulus) => do
    let argument ← convertArgument base
    let divided :=
      if divisor = 1 then mulText base.coeff (Operand.index base.dim) else floorDivText base divisor
    return .apply [argument] (.lparen :: ((divided ++ .mod :: [.num modulus]) ++ [.rparen]))
  | .sum first rest offset =>
    .ok (.apply ((sortedArgs (first :: rest)).map fun arg => convertIndex arg.2)
      (addText (first :: rest) offset))

/-! ## The meaning of the maps -/

/-- The value of `affine.apply` for a map whose names are those of its operands. -/
def mapValue {α : Type} [DecidableEq α] (dims : List α) (text : List (AffineToken α))
    (value : α → Option ℤ) : Option ℤ :=
  (readAffine text).bind (AffineExpr.eval fun name => if name ∈ dims then value name else none)

def Operand.value (rho : ℕ → ℕ) : Operand → Option ℤ
  | .index dim => some (rho dim)
  | .applied dim text => mapValue [dim] text fun dim => some (rho dim)

/-- The value of the translated index. -/
def Translated.value (rho : ℕ → ℕ) : Translated → Option ℤ
  | .const n => some n
  | .index dim => some (rho dim)
  | .apply dims text => mapValue dims text (Operand.value rho)

end PyTorchSim.Frontend
