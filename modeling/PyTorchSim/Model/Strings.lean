import Mathlib.Algebra.Order.Ring.Int
import PyTorchSim.Library.Numerals

/-!
# The conversions of the standard library

A string is a list of characters.  The conversions from a string to a number throw an exception
when the string does not start with a numeral, or when its value is outside of the type.
-/

set_option autoImplicit false

namespace PyTorchSim.Model

open PyTorchSim.Library

/-- The exceptions that a conversion throws. -/
inductive ConversionError where
  | invalidArgument
  | outOfRange
deriving DecidableEq

/-- A conversion to 64 bits without a sign: a minus negates the value in the type. -/
def stoull (s : List Char) : Except ConversionError ℕ :=
  match readNumeral s with
  | none => .error .invalidArgument
  | some n =>
    if 2 ^ 64 ≤ n.magnitude then .error .outOfRange
    else if n.negative then .ok ((2 ^ 64 - n.magnitude) % 2 ^ 64)
    else .ok n.magnitude

/-- `unsigned long` has 64 bits as well. -/
def stoul (s : List Char) : Except ConversionError ℕ := stoull s

/-- A conversion to 32 bits with a sign. -/
def stoi (s : List Char) : Except ConversionError ℤ :=
  match readNumeral s with
  | none => .error .invalidArgument
  | some n =>
    if n.value < -2 ^ 31 ∨ 2 ^ 31 ≤ n.value then .error .outOfRange else .ok n.value

/-- The decimal digits of a number, after a minus if it is negative. -/
def decimal (n : ℤ) : List Char :=
  if n < 0 then '-' :: Nat.toDigits 10 n.natAbs else Nat.toDigits 10 n.natAbs

theorem stoull_toDigits {n : ℕ} (h : n < 2 ^ 64) : stoull (Nat.toDigits 10 n) = .ok n := by
  simp only [stoull, readNumeral_decimal, if_neg (Nat.not_le.2 h)]
  rfl

theorem stoul_toDigits {n : ℕ} (h : n < 2 ^ 64) : stoul (Nat.toDigits 10 n) = .ok n :=
  stoull_toDigits h

end PyTorchSim.Model
