import Mathlib.Algebra.BigOperators.Group.Finset.Basic
import Mathlib.Algebra.BigOperators.Intervals
import Mathlib.Algebra.Group.Pi.Basic

/-!
# Products by slots

A sequence of values is combined in vectors: the value at place `e` goes to the slot `e %
size`.  The vectors of a loop give each slot the product of its values, and slots of a multiple of a
size are combined to those of the size.
-/

set_option autoImplicit false

namespace PyTorchSim.Library

variable {M κ : Type} [CommMonoid M]

/-- The product of the values below `n` that go to the slot. -/
def slotProduct (n size slot : ℕ) (value : ℕ → M) : M :=
  ∏ e ∈ (Finset.range n).filter (fun e => e % size = slot), value e

theorem prod_map_range (n : ℕ) (value : ℕ → M) :
    ((List.range n).map value).prod = ∏ i ∈ Finset.range n, value i := by
  induction n with
  | zero => simp
  | succ n ih => rw [List.prod_range_succ, Finset.prod_range_succ, ih]

/-- Places that are counted by rows. -/
theorem prod_rows (rows cols size slot : ℕ) (value : ℕ → M) :
    ∏ i ∈ Finset.range cols, ∏ row ∈ Finset.range rows, value
      (row * (cols * size) + (i * size + slot)) =
      ∏ q ∈ Finset.range (rows * cols), value (q * size + slot) := by
  rw [Finset.prod_comm]
  induction rows with
  | zero => simp
  | succ rows ih =>
    rw [Finset.prod_range_succ, ih, Nat.succ_mul, Finset.prod_range_add]
    congr 1
    apply Finset.prod_congr rfl
    intro i _
    rw [Nat.add_mul, Nat.mul_assoc, Nat.add_assoc]

/-- The values of a slot, where the values behind the end are neutral. -/
theorem prod_range_eq_slotProduct {n size slot count : ℕ} (hslot : slot < size)
    (hcount : n ≤ count * size)
    (value : ℕ → M) :
    ∏ q ∈ Finset.range count, (if q * size + slot < n then value (q * size + slot) else 1) =
      slotProduct n size slot value := by
  rw [← Finset.prod_filter, slotProduct]
  apply Finset.prod_nbij' (fun q => q * size + slot) (fun e => e / size)
  · intro q hq
    rw [Finset.mem_filter] at hq ⊢
    rw [Finset.mem_range]
    exact ⟨hq.2, by rw [Nat.mul_add_mod_self_right, Nat.mod_eq_of_lt hslot]⟩
  · intro e he
    rw [Finset.mem_filter, Finset.mem_range] at he ⊢
    have hback : e / size * size + slot = e := by
      rw [← he.2]
      exact Nat.div_add_mod' e size
    refine ⟨?_, by rw [hback]; exact he.1⟩
    apply Nat.div_lt_of_lt_mul
    rw [Nat.mul_comm]
    exact Nat.lt_of_lt_of_le he.1 hcount
  · intro q _
    have hpos : 0 < size := Nat.zero_lt_of_lt hslot
    rw [Nat.mul_comm, Nat.mul_add_div hpos, Nat.div_eq_of_lt hslot, Nat.add_zero]
  · intro e he
    rw [Finset.mem_filter] at he
    rw [← he.2]
    exact Nat.div_add_mod' e size
  · intro q _
    rfl

/-- A loop that multiplies into accumulators. -/
theorem foldl_mul_acc (xs : List κ) (factor : κ → M) (init : M) :
    xs.foldl (fun acc x => factor x * acc) init = (xs.map factor).prod * init := by
  induction xs generalizing init with
  | nil => exact (one_mul init).symm
  | cons x xs ih => rw
    [List.foldl_cons, ih, List.map_cons, List.prod_cons, mul_left_comm, mul_assoc]

/-- A product of products over a list. -/
theorem prod_list_prod_comm (count : ℕ) (points : List κ) (value : ℕ → κ → M) :
    ∏ i ∈ Finset.range count, (points.map (value i)).prod =
      (points.map fun k => ∏ i ∈ Finset.range count, value i k).prod := by
  induction points with
  | nil => simp
  | cons k points ih =>
    simp only [List.map_cons, List.prod_cons]
    rw [Finset.prod_mul_distrib, ih]

end PyTorchSim.Library
