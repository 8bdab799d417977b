import Mathlib.Algebra.BigOperators.Group.List.Basic
import Mathlib.Algebra.Order.Ring.Int
import Mathlib.Data.Int.Init

/-!
# Texts of affine expressions

An affine expression is written as a sequence of tokens.  `*`, `floordiv` and `mod` bind tighter
than `+` and `-`, and operators of the same strength associate to the left; a unary minus binds
tightest.  The reader keeps one frame for each open parenthesis.

What a piece of text adds to the open frame is said for operands, terms and sums, and these facts
are combined as in the grammar.
-/

set_option autoImplicit false

namespace PyTorchSim.Library

/-! ## Expressions and tokens -/

/-- An affine expression over names. -/
inductive AffineExpr (α : Type) where
  | const (n : ℕ)
  | name (a : α)
  | neg (e : AffineExpr α)
  | add (e e' : AffineExpr α)
  | sub (e e' : AffineExpr α)
  | mul (e e' : AffineExpr α)
  | floordiv (e e' : AffineExpr α)
  | mod (e e' : AffineExpr α)
  deriving DecidableEq, Repr

namespace AffineExpr

variable {α : Type}

/-- The value of an expression, when its names have values. -/
def eval (value : α → Option ℤ) : AffineExpr α → Option ℤ
  | const n => some n
  | name a => value a
  | neg e => (eval value e).map fun x => -x
  | add e e' => (eval value e).bind fun x => (eval value e').map fun y => x + y
  | sub e e' => (eval value e).bind fun x => (eval value e').map fun y => x - y
  | mul e e' => (eval value e).bind fun x => (eval value e').map fun y => x * y
  | floordiv e e' => (eval value e).bind fun x => (eval value e').map fun y => x / y
  | mod e e' => (eval value e).bind fun x => (eval value e').map fun y => x % y

end AffineExpr

/-- A token of the text of an affine expression. -/
inductive AffineToken (α : Type) where
  | num (n : ℕ)
  | name (a : α)
  | plus
  | minus
  | times
  | floordiv
  | mod
  | lparen
  | rparen
  deriving DecidableEq, Repr

/-! ## The reader -/

/-- What was read since the last open parenthesis: what is to be done with the next term, what is to
be done with the next operand, and the product read so far. -/
structure ReadFrame (α : Type) where
  addTo : AffineExpr α → AffineExpr α
  mulTo : AffineExpr α → AffineExpr α
  current : Option (AffineExpr α)

namespace ReadFrame

variable {α : Type}

def start : ReadFrame α := ⟨id, id, none⟩

/-- An operand is multiplied to what stands to its left. -/
def operand (frame : ReadFrame α) (e : AffineExpr α) : Option (ReadFrame α) :=
  match frame.current with
  | none => some ⟨frame.addTo, id, some (frame.mulTo e)⟩
  | some _ => none

/-- An operator that binds tightly waits for its right operand. -/
def tight (frame : ReadFrame α) (op : AffineExpr α → AffineExpr α → AffineExpr α) :
    Option (ReadFrame α) :=
  frame.current.map fun product => ⟨frame.addTo, op product, none⟩

/-- An operator that binds loosely ends the term. -/
def loose (frame : ReadFrame α) (op : AffineExpr α → AffineExpr α → AffineExpr α) :
    Option (ReadFrame α) :=
  frame.current.map fun product => ⟨op (frame.addTo product), id, none⟩

/-- A minus is binary after an operand and unary before one. -/
def dash (frame : ReadFrame α) : Option (ReadFrame α) :=
  match frame.current with
  | none => some ⟨frame.addTo, fun e => frame.mulTo e.neg, none⟩
  | some product => some ⟨AffineExpr.sub (frame.addTo product), id, none⟩

def close (frame : ReadFrame α) : Option (AffineExpr α) := frame.current.map frame.addTo

end ReadFrame

section Reader

variable {α : Type}

/-- Reads the tokens; the frames are those of the open parentheses, the innermost first. -/
def readTokens : List (AffineToken α) → ReadFrame α → List (ReadFrame α) → Option (AffineExpr α)
  | [], frame, [] => frame.close
  | [], _, _ :: _ => none
  | .num n :: rest, frame, frames =>
    (frame.operand (.const n)).bind fun frame => readTokens rest frame frames
  | .name a :: rest, frame, frames =>
    (frame.operand (.name a)).bind fun frame => readTokens rest frame frames
  | .plus :: rest, frame, frames =>
    (frame.loose .add).bind fun frame => readTokens rest frame frames
  | .minus :: rest, frame, frames => frame.dash.bind fun frame => readTokens rest frame frames
  | .times :: rest, frame, frames =>
    (frame.tight .mul).bind fun frame => readTokens rest frame frames
  | .floordiv :: rest, frame, frames =>
    (frame.tight .floordiv).bind fun frame => readTokens rest frame frames
  | .mod :: rest, frame, frames =>
    (frame.tight .mod).bind fun frame => readTokens rest frame frames
  | .lparen :: rest, frame, frames =>
    if frame.current.isNone then readTokens rest .start (frame :: frames) else none
  | .rparen :: rest, frame, outer :: frames =>
    frame.close.bind fun e => (outer.operand e).bind fun frame => readTokens rest frame frames
  | .rparen :: _, _, [] => none

/-- The expression that a text is read as. -/
def readAffine (tokens : List (AffineToken α)) : Option (AffineExpr α) :=
  readTokens tokens .start []

end Reader

/-! ## Pieces of text -/

section Pieces

variable {α : Type} {tokens tokens' : List (AffineToken α)} {e e' : AffineExpr α}

/-- The text is read as an operand. -/
def ReadsOperand (tokens : List (AffineToken α)) (e : AffineExpr α) : Prop :=
  ∀ addTo mulTo rest frames, readTokens (tokens ++ rest) ⟨addTo, mulTo, none⟩ frames =
    readTokens rest ⟨addTo, id, some (mulTo e)⟩ frames

/-- The text is read as a product. -/
def ReadsTerm (tokens : List (AffineToken α)) (e : AffineExpr α) : Prop :=
  ∀ addTo rest frames, readTokens (tokens ++ rest) ⟨addTo, id, none⟩ frames =
    readTokens rest ⟨addTo, id, some e⟩ frames

/-- The text is read as a sum. -/
def ReadsSum (tokens : List (AffineToken α)) (e : AffineExpr α) : Prop :=
  ∃ addTo last, addTo last = e ∧ ∀ rest frames,
    readTokens (tokens ++ rest) .start frames = readTokens rest ⟨addTo, id, some last⟩ frames

theorem readsOperand_num (n : ℕ) : ReadsOperand [AffineToken.num n] (.const n : AffineExpr α) :=
  fun _ _ _ _ => rfl

theorem readsOperand_name (a : α) : ReadsOperand [.name a] (.name a) :=
  fun _ _ _ _ => rfl

theorem ReadsOperand.neg (h : ReadsOperand tokens e) : ReadsOperand (.minus :: tokens) e.neg := by
  intro addTo mulTo rest frames
  exact h addTo (fun e => mulTo e.neg) rest frames

theorem ReadsOperand.term (h : ReadsOperand tokens e) : ReadsTerm tokens e :=
  fun addTo rest frames => h addTo id rest frames

theorem ReadsTerm.times (h : ReadsTerm tokens e) (h' : ReadsOperand tokens' e') :
    ReadsTerm (tokens ++ .times :: tokens') (e.mul e') := by
  intro addTo rest frames
  rw [List.append_assoc, h]
  exact h' addTo e.mul rest frames

theorem ReadsTerm.floordiv (h : ReadsTerm tokens e) (h' : ReadsOperand tokens' e') :
    ReadsTerm (tokens ++ .floordiv :: tokens') (e.floordiv e') := by
  intro addTo rest frames
  rw [List.append_assoc, h]
  exact h' addTo e.floordiv rest frames

theorem ReadsTerm.mod (h : ReadsTerm tokens e) (h' : ReadsOperand tokens' e') :
    ReadsTerm (tokens ++ .mod :: tokens') (e.mod e') := by
  intro addTo rest frames
  rw [List.append_assoc, h]
  exact h' addTo e.mod rest frames

theorem ReadsTerm.sum (h : ReadsTerm tokens e) : ReadsSum tokens e :=
  ⟨id, e, rfl, fun rest frames => h id rest frames⟩

theorem ReadsSum.plus (h : ReadsSum tokens e) (h' : ReadsTerm tokens' e') :
    ReadsSum (tokens ++ .plus :: tokens') (e.add e') := by
  obtain ⟨addTo, last, rfl, hread⟩ := h
  refine ⟨(addTo last).add, e', rfl, ?_⟩
  intro rest frames
  rw [List.append_assoc, hread]
  exact h' _ rest frames

theorem ReadsSum.minus (h : ReadsSum tokens e) (h' : ReadsTerm tokens' e') :
    ReadsSum (tokens ++ .minus :: tokens') (e.sub e') := by
  obtain ⟨addTo, last, rfl, hread⟩ := h
  refine ⟨(addTo last).sub, e', rfl, ?_⟩
  intro rest frames
  rw [List.append_assoc, hread]
  exact h' _ rest frames

/-- A sum in parentheses is an operand. -/
theorem ReadsSum.paren (h : ReadsSum tokens e) :
    ReadsOperand (.lparen :: (tokens ++ [.rparen])) e := by
  obtain ⟨addTo, last, rfl, hread⟩ := h
  intro outerAdd mulTo rest frames
  rw [List.cons_append, List.append_assoc]
  exact hread _ _

/-- A text is read as the sum that it is. -/
theorem ReadsSum.read (h : ReadsSum tokens e) : readAffine tokens = some e := by
  obtain ⟨addTo, last, rfl, hread⟩ := h
  have hend := hread [] []
  rw [List.append_nil] at hend
  exact hend

end Pieces

/-! ## The values of pieces of text -/

section Values

variable {α : Type} {value : α → Option ℤ} {tokens tokens' : List (AffineToken α)} {x y : ℤ}

/-- The text is read as an operand with the value. -/
def OperandIs (value : α → Option ℤ) (tokens : List (AffineToken α)) (x : ℤ) : Prop :=
  ∃ e, ReadsOperand tokens e ∧ e.eval value = some x

/-- The text is read as a product with the value. -/
def TermIs (value : α → Option ℤ) (tokens : List (AffineToken α)) (x : ℤ) : Prop :=
  ∃ e, ReadsTerm tokens e ∧ e.eval value = some x

/-- The text is read as a sum with the value. -/
def SumIs (value : α → Option ℤ) (tokens : List (AffineToken α)) (x : ℤ) : Prop :=
  ∃ e, ReadsSum tokens e ∧ e.eval value = some x

theorem operandIs_num (value : α → Option ℤ) (n : ℕ) : OperandIs value [.num n] n :=
  ⟨.const n, readsOperand_num n, rfl⟩

theorem operandIs_name {a : α} (ha : value a = some x) : OperandIs value [.name a] x :=
  ⟨.name a, readsOperand_name a, ha⟩

theorem OperandIs.neg (h : OperandIs value tokens x) : OperandIs value (.minus :: tokens) (-x) := by
  obtain ⟨e, hread, heval⟩ := h
  exact ⟨e.neg, hread.neg, by rw [AffineExpr.eval, heval]; rfl⟩

theorem OperandIs.term (h : OperandIs value tokens x) : TermIs value tokens x := by
  obtain ⟨e, hread, heval⟩ := h
  exact ⟨e, hread.term, heval⟩

theorem TermIs.times (h : TermIs value tokens x) (h' : OperandIs value tokens' y) :
    TermIs value (tokens ++ .times :: tokens') (x * y) := by
  obtain ⟨e, hread, heval⟩ := h
  obtain ⟨e', hread', heval'⟩ := h'
  exact ⟨e.mul e', hread.times hread', by rw [AffineExpr.eval, heval, heval']; rfl⟩

theorem TermIs.floordiv (h : TermIs value tokens x) (h' : OperandIs value tokens' y) :
    TermIs value (tokens ++ .floordiv :: tokens') (x / y) := by
  obtain ⟨e, hread, heval⟩ := h
  obtain ⟨e', hread', heval'⟩ := h'
  exact ⟨e.floordiv e', hread.floordiv hread', by rw [AffineExpr.eval, heval, heval']; rfl⟩

theorem TermIs.mod (h : TermIs value tokens x) (h' : OperandIs value tokens' y) :
    TermIs value (tokens ++ .mod :: tokens') (x % y) := by
  obtain ⟨e, hread, heval⟩ := h
  obtain ⟨e', hread', heval'⟩ := h'
  exact ⟨e.mod e', hread.mod hread', by rw [AffineExpr.eval, heval, heval']; rfl⟩

theorem TermIs.sum (h : TermIs value tokens x) : SumIs value tokens x := by
  obtain ⟨e, hread, heval⟩ := h
  exact ⟨e, hread.sum, heval⟩

theorem SumIs.plus (h : SumIs value tokens x) (h' : TermIs value tokens' y) :
    SumIs value (tokens ++ .plus :: tokens') (x + y) := by
  obtain ⟨e, hread, heval⟩ := h
  obtain ⟨e', hread', heval'⟩ := h'
  exact ⟨e.add e', hread.plus hread', by rw [AffineExpr.eval, heval, heval']; rfl⟩

theorem SumIs.minus (h : SumIs value tokens x) (h' : TermIs value tokens' y) :
    SumIs value (tokens ++ .minus :: tokens') (x - y) := by
  obtain ⟨e, hread, heval⟩ := h
  obtain ⟨e', hread', heval'⟩ := h'
  exact ⟨e.sub e', hread.minus hread', by rw [AffineExpr.eval, heval, heval']; rfl⟩

theorem SumIs.paren (h : SumIs value tokens x) :
    OperandIs value (.lparen :: (tokens ++ [.rparen])) x := by
  obtain ⟨e, hread, heval⟩ := h
  exact ⟨e, hread.paren, heval⟩

/-- The text of a sum has its value. -/
theorem SumIs.read (h : SumIs value tokens x) :
    (readAffine tokens).bind (AffineExpr.eval value) = some x := by
  obtain ⟨e, hread, heval⟩ := h
  rw [hread.read]
  exact heval

/-- Terms that are joined by `+` are read as their sum. -/
theorem SumIs.intercalate (h : SumIs value tokens x) (pieces : List (List (AffineToken α) × ℤ))
    (hpieces : ∀ piece ∈ pieces, TermIs value piece.1 piece.2) :
    SumIs value (List.intercalate [.plus] (tokens :: pieces.map Prod.fst))
      (x + (pieces.map Prod.snd).sum) := by
  induction pieces generalizing tokens x with
  | nil =>
    rw [List.map_nil, List.map_nil, List.sum_nil, Int.add_zero, List.intercalate_singleton]
    exact h
  | cons piece pieces ih =>
    have hnext := ih (h.plus (hpieces piece List.mem_cons_self))
      fun other hother => hpieces other (List.mem_cons_of_mem piece hother)
    have hjoin : List.intercalate [.plus] (tokens :: piece.1 :: pieces.map Prod.fst) =
        List.intercalate [.plus] ((tokens ++ .plus :: piece.1) :: pieces.map Prod.fst) := by
      cases pieces.map Prod.fst with
      | nil => simp [List.intercalate_cons_cons]
      | cons next rest => simp [List.intercalate_cons_cons]
    rw [List.map_cons, List.map_cons, List.sum_cons, hjoin, ← Int.add_assoc]
    exact hnext

end Values

end PyTorchSim.Library
