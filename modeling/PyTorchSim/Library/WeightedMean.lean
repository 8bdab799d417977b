import Mathlib.Algebra.BigOperators.Field
import Mathlib.Algebra.Order.BigOperators.Ring.Finset
import Mathlib.Analysis.SpecialFunctions.Exp
import Mathlib.Tactic.FieldSimp
import Mathlib.Tactic.Ring

/-!
# Weighted means

The mean of values under weights, which is what a softmax row applied to a column of values is.
A mean depends on its weights up to a factor only, and determines them up to a factor.  For
weights of the form `exp (x i)` the factor is a shift of the scores.
-/

set_option autoImplicit false

namespace PyTorchSim.Library

open Finset

variable {ι α : Type*} [Field α]

/-- The mean of the values `v` with the weights `w`. -/
def weightedMean (s : Finset ι) (w v : ι → α) : α := (∑ i ∈ s, w i * v i) / ∑ i ∈ s, w i

theorem weightedMean_congr {s : Finset ι} {w w' v v' : ι → α} (hw : ∀ i ∈ s, w i = w' i)
    (hv : ∀ i ∈ s, v i = v' i) : weightedMean s w v = weightedMean s w' v' := by
  unfold weightedMean
  rw [Finset.sum_congr rfl hw]
  congr 1
  apply Finset.sum_congr rfl
  intro i hi
  rw [hw i hi, hv i hi]

/-- A factor of all weights does not change the mean. -/
theorem weightedMean_mul_left (s : Finset ι) (w v : ι → α) {c : α} (hc : c ≠ 0) :
    weightedMean s (fun i => c * w i) v = weightedMean s w v := by
  unfold weightedMean
  simp only [mul_assoc]
  rw [← Finset.mul_sum, ← Finset.mul_sum, mul_div_mul_left _ _ hc]

/-- Weights with the same means are proportional. -/
theorem weights_proportional [DecidableEq ι] {s : Finset ι} {w w' : ι → α}
    (h : ∀ v, weightedMean s w v = weightedMean s w' v) {i : ι} (hi : i ∈ s) :
    w i / ∑ j ∈ s, w j = w' i / ∑ j ∈ s, w' j := by
  have hsingle : ∀ u : ι → α, ∑ j ∈ s, u j * (if j = i then 1 else 0) = u i := by
    intro u
    simp [hi]
  have hmean := h fun j => if j = i then 1 else 0
  unfold weightedMean at hmean
  rwa [hsingle, hsingle] at hmean

/-- The mean vanishes exactly if the weighted sum does. -/
theorem weightedMean_eq_zero_iff {s : Finset ι} {w v : ι → α} (hw : ∑ i ∈ s, w i ≠ 0) :
    weightedMean s w v = 0 ↔ ∑ i ∈ s, w i * v i = 0 := by
  unfold weightedMean
  rw [div_eq_zero_iff]
  exact ⟨fun h => h.resolve_right hw, .inl⟩

/-- Weights that carry no value leave the mean as it is exactly if they are 0 or the mean is. -/
theorem extra_weight_iff {n z p : α} (hz : z ≠ 0) (hzp : z + p ≠ 0) :
    n / (z + p) = n / z ↔ p = 0 ∨ n = 0 := by
  rw [div_eq_div_iff hzp hz]
  constructor
  · intro h
    have hprod : p * n = 0 := by
      calc p * n = n * (z + p) - n * z := by ring
        _ = 0 := by rw [← h, sub_self]
    exact mul_eq_zero.mp hprod
  · rintro (rfl | rfl)
    · rw [add_zero]
    · rw [zero_mul, zero_mul]

section Exp

variable [LinearOrder α]

/-- A positive function that turns sums into products. -/
structure IsExp (exp : α → α) : Prop where
  pos : ∀ x, 0 < exp x
  add : ∀ x y, exp (x + y) = exp x * exp y

variable {exp : α → α}

theorem IsExp.ne_zero (h : IsExp exp) (x : α) : exp x ≠ 0 := (h.pos x).ne'

theorem IsExp.zero (h : IsExp exp) : exp 0 = 1 := by
  have hdouble : exp 0 * exp 0 = exp 0 * 1 := by rw [← h.add, add_zero, mul_one]
  exact mul_left_cancel₀ (h.ne_zero 0) hdouble

/-- A shift of a score is a factor of its weight. -/
theorem IsExp.sub (h : IsExp exp) (x m : α) : exp (x - m) = exp (-m) * exp x := by
  rw [sub_eq_neg_add, h.add]

/-- Going over from one shift to another. -/
theorem IsExp.rescale (h : IsExp exp) (m m' : α) : exp (m - m') * exp (-m) = exp (-m') := by
  rw [← h.add]
  congr 1
  ring

theorem IsExp.sum_pos [IsStrictOrderedRing α] (h : IsExp exp) {s : Finset ι} (hs : s.Nonempty)
    (x : ι → α) : 0 < ∑ i ∈ s, exp (x i) :=
  Finset.sum_pos (fun i _ => h.pos (x i)) hs

end Exp

theorem isExp_real : IsExp Real.exp := ⟨Real.exp_pos, Real.exp_add⟩

end PyTorchSim.Library
