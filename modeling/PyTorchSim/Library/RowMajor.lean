import Mathlib.Algebra.BigOperators.Group.Finset.Basic
import Mathlib.Algebra.BigOperators.Group.List.Basic
import Mathlib.Algebra.BigOperators.Intervals
import Mathlib.Algebra.Order.Ring.Nat
import Mathlib.Tactic.Linarith
import Mathlib.Tactic.Ring

/-!
# Row-major order

The elements of an array of any rank stand in a row, the last coordinate running fastest.  `ravel`
is the position of an element and `unravel` the coordinates of a position.
-/

set_option autoImplicit false

namespace PyTorchSim.Library

/-- The coordinates are those of an element. -/
def InShape (shape idx : List ℕ) : Prop := List.Forall₂ (fun i n => i < n) idx shape

/-- The position of the element with the coordinates `idx`. -/
def ravel : List ℕ → List ℕ → ℕ
  | _ :: shape, i :: idx => i * shape.prod + ravel shape idx
  | _, _ => 0

/-- The coordinates of the element at a position. -/
def unravel : List ℕ → ℕ → List ℕ
  | [], _ => []
  | _ :: shape, p => p / shape.prod :: unravel shape (p % shape.prod)

variable {shape idx : List ℕ}

instance (shape idx : List ℕ) : Decidable (InShape shape idx) :=
  inferInstanceAs (Decidable (List.Forall₂ _ idx shape))

/-- The elements fill the row. -/
theorem ravel_lt (h : InShape shape idx) : ravel shape idx < shape.prod := by
  induction h with
  | nil => simp [ravel]
  | @cons i n idx shape hi _ ih =>
    have hrow : (i + 1) * shape.prod ≤ n * shape.prod := Nat.mul_le_mul_right _ hi
    rw [ravel, List.prod_cons]
    calc i * shape.prod + ravel shape idx < i * shape.prod + shape.prod := by omega
      _ = (i + 1) * shape.prod := by ring
      _ ≤ n * shape.prod := hrow

/-- No two elements stand at one position. -/
theorem unravel_ravel (h : InShape shape idx) : unravel shape (ravel shape idx) = idx := by
  induction h with
  | nil => rfl
  | @cons i n idx shape _ htail ih =>
    have hlt := ravel_lt htail
    rw [ravel, unravel]
    congr 1
    · rw [Nat.add_comm, Nat.add_mul_div_right _ _ (by omega), Nat.div_eq_of_lt hlt, Nat.zero_add]
    · rw [Nat.add_comm, Nat.add_mul_mod_self_right, Nat.mod_eq_of_lt hlt, ih]

/-- A sum over the elements of rows is a sum over the rows. -/
theorem sum_range_rows {M : Type*} [AddCommMonoid M] (rows cols : ℕ) (f : ℕ → M) :
    ∑ e ∈ Finset.range (rows * cols), f e =
      ∑ i ∈ Finset.range rows, ∑ j ∈ Finset.range cols, f (i * cols + j) := by
  induction rows with
  | zero => simp
  | succ rows ih => rw [Nat.succ_mul, Finset.sum_range_add, ih, Finset.sum_range_succ]

end PyTorchSim.Library
