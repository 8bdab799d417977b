import Mathlib.Algebra.Order.Ring.Int
import Mathlib.Data.List.Sort

/-!
# The address ranges of the weights

A test writes the address range of each parameter to a file, a script merges the ranges, and the
simulator loads the merged ones to tell which addresses are those of weights.

The files are lists of pairs of numbers here.  The line of a parameter has its name, shape and type
as well, which the script passes over.
-/

set_option autoImplicit false

namespace PyTorchSim.Model

/-- What the range of a parameter is made of. -/
structure WeightTensor where
  dataPtr : ℕ
  sizeBytes : ℕ
  deriving DecidableEq, Repr

/-- SOURCE: tests/Llama/test_llama2_7B.py:246-256 -/
def dumpModuleWeightRanges (parameters : List WeightTensor) : List (ℕ × ℕ) :=
  parameters.map fun p => (p.dataPtr, p.dataPtr + p.sizeBytes)

/-- SOURCE: merge_weight_ranges.py:8-20 -/
def parseRanges (lines : List (ℕ × ℕ)) : List (ℕ × ℕ) :=
  lines.map fun line => if line.2 < line.1 then (line.2, line.1) else line

/-- The loop keeps the last merged range apart from those before it.
SOURCE: merge_weight_ranges.py:28-36 -/
def mergeFrom (last : ℕ × ℕ) : List (ℕ × ℕ) → List (ℕ × ℕ)
  | [] => [last]
  | range :: ranges =>
    if range.1 ≤ last.2 then mergeFrom (last.1, max last.2 range.2) ranges
    else if range.1 = last.2 then mergeFrom (last.1, range.2) ranges
    else last :: mergeFrom range ranges

/-- SOURCE: merge_weight_ranges.py:23-37 -/
def mergeRanges (ranges : List (ℕ × ℕ)) : List (ℕ × ℕ) :=
  match ranges.insertionSort (fun r r' => r.1 < r'.1 ∨ r.1 = r'.1 ∧ r.2 ≤ r'.2) with
  | [] => []
  | range :: ranges => mergeFrom range ranges

/-- SOURCE: WeightAddressRanges.h:35-38 -/
structure WeightRange where
  base : ℕ
  last : ℕ
  deriving DecidableEq, Repr

namespace WeightAddressRanges

/-- A number that does not fit into 64 bits is not read, and its line is skipped.
SOURCE: WeightAddressRanges.cc:40-47 -/
def readLine (line : ℕ × ℕ) : Option WeightRange :=
  if line.1 < 2 ^ 64 ∧ line.2 < 2 ^ 64 then
    some (if line.2 < line.1 then ⟨line.2, line.1⟩ else ⟨line.1, line.2⟩)
  else none

/-- SOURCE: WeightAddressRanges.cc:38-50 -/
def load (lines : List (ℕ × ℕ)) : List WeightRange :=
  (lines.filterMap readLine).insertionSort fun a b => a.base ≤ b.base

/-- `std::upper_bound` gives the end of the ranges whose base is not above the address.
SOURCE: WeightAddressRanges.cc:55-64 -/
def isWeightAddress (ranges : List WeightRange) (addr : UInt64) : Bool :=
  match (ranges.takeWhile fun r => r.base ≤ addr.toNat).getLast? with
  | none => false
  | some r => addr.toNat ≤ r.last

end WeightAddressRanges

/-- What the simulator knows of the addresses of the parameters. -/
def loadedWeightRanges (parameters : List WeightTensor) : List WeightRange :=
  WeightAddressRanges.load (mergeRanges (parseRanges (dumpModuleWeightRanges parameters)))

end PyTorchSim.Model
