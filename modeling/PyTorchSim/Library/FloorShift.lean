import Mathlib.Algebra.Ring.Divisibility.Basic
import Mathlib.Data.Int.GCD
import Mathlib.Data.Int.ModEq
import Mathlib.Tactic.Linarith
import Mathlib.Tactic.Ring

/-!
# Floors of linear functions

When a division is applied to a part of a sum only, the result may be the same modulo a number.  For
the part without the variable that is so where the coefficient is divided, and its quotient is not
changed by the multiplication; for the part with the variable it depends on the remainders that the
variable takes.
-/

set_option autoImplicit false

namespace PyTorchSim.Library

variable {a b c t q m : ℤ}

/-! ## The steps of the floor -/

theorem add_ediv_cases (hq : 0 < q) (u a : ℤ) :
    (u + a) / q = u / q + a / q ∨ (u + a) / q = u / q + a / q + 1 := by
  have hsplit : u + a = u % q + a % q + q * (u / q + a / q) := by
    have hu := Int.emod_add_mul_ediv u q
    have ha := Int.emod_add_mul_ediv a q
    linarith
  have hdiv : (u + a) / q = (u % q + a % q) / q + (u / q + a / q) := by
    rw [hsplit, Int.add_mul_ediv_left _ _ hq.ne']
  have hu := Int.emod_nonneg u hq.ne'
  have ha := Int.emod_nonneg a hq.ne'
  have hu' := Int.emod_lt_of_pos u hq
  have ha' := Int.emod_lt_of_pos a hq
  have hlow : 0 ≤ (u % q + a % q) / q := Int.ediv_nonneg (by omega) hq.le
  have hhigh : (u % q + a % q) / q < 2 := Int.ediv_lt_of_lt_mul hq (by omega)
  omega

/-- Steps that are the same modulo a number above one are the same. -/
theorem ediv_step_eq (hq : 0 < q) (hm : 1 < m) {u v : ℤ}
    (h : (u + a) / q - u / q ≡ (v + a) / q - v / q [ZMOD m]) :
    (u + a) / q - u / q = (v + a) / q - v / q := by
  have hdvd := h.dvd
  have hzero : (v + a) / q - v / q - ((u + a) / q - u / q) = 0 := by
    apply Int.eq_zero_of_abs_lt_dvd hdvd
    have hu := add_ediv_cases hq u a
    have hv := add_ediv_cases hq v a
    rw [abs_lt]
    omega
  omega

/-- A division of the constant part has the result of the division of the sum, modulo a number. -/
theorem linear_ediv_modEq_iff (hq : 0 < q) (hm : 1 < m) :
    (∀ x : ℕ, (a * x + b) / q ≡ a * x + t [ZMOD m]) ↔
      b / q ≡ t [ZMOD m] ∧ q ∣ a ∧ m ∣ a / q * (q - 1) := by
  constructor
  · intro h
    have hzero : b / q ≡ t [ZMOD m] := by
      simpa using h 0
    have hstep : ∀ x : ℕ, (a * x + b + a) / q - (a * x + b) / q ≡ a [ZMOD m] := by
      intro x
      have hnext := h (x + 1)
      have hshift : a * ((x + 1 : ℕ) : ℤ) + b = a * x + b + a := by
        push_cast
        ring
      rw [hshift] at hnext
      have hdiff := hnext.sub (h x)
      have hright : a * ((x + 1 : ℕ) : ℤ) + t - (a * x + t) = a := by
        push_cast
        ring
      rwa [hright] at hdiff
    obtain ⟨delta, hdelta⟩ : ∃ delta, delta = (b + a) / q - b / q := ⟨_, rfl⟩
    have hsame : ∀ x : ℕ, (a * x + b + a) / q - (a * x + b) / q = delta := by
      intro x
      rw [hdelta]
      apply ediv_step_eq hq hm
      have hfirst := hstep 0
      simp only [Nat.cast_zero, mul_zero, zero_add] at hfirst
      exact (hstep x).trans hfirst.symm
    -- the floor is linear, so its slope is the coefficient over the divisor
    have hlinear : ∀ x : ℕ, (a * x + b) / q = b / q + delta * x := by
      intro x
      induction x with
      | zero => simp
      | succ x ih =>
        have hnext := hsame x
        have hshift : a * ((x + 1 : ℕ) : ℤ) + b = a * x + b + a := by
          push_cast
          ring
        rw [hshift]
        push_cast
        linarith
    have hslope : a = delta * q := by
      have hend := hlinear q.toNat
      rw [Int.toNat_of_nonneg hq.le, add_comm (a * q) b, Int.add_mul_ediv_right _ _ hq.ne'] at hend
      linarith
    refine ⟨hzero, Dvd.intro_left delta hslope.symm, ?_⟩
    have hquot : a / q = delta := by
      rw [hslope, Int.mul_ediv_cancel _ hq.ne']
    have hmod : delta ≡ a [ZMOD m] := by
      have hfirst := hstep 0
      rwa [hsame 0] at hfirst
    have hdvd := hmod.dvd
    have hfactor : a - delta = delta * (q - 1) := by
      rw [hslope]
      ring
    rw [hquot, ← hfactor]
    exact hdvd
  · rintro ⟨hzero, ⟨k, rfl⟩, hdvd⟩ x
    rw [Int.mul_ediv_cancel_left _ hq.ne'] at hdvd
    have hfloor : (q * k * x + b) / q = k * x + b / q := by
      rw [mul_assoc, add_comm, Int.add_mul_ediv_left _ _ hq.ne', add_comm]
    rw [hfloor]
    apply Int.ModEq.add _ hzero
    apply Int.modEq_of_dvd
    have hfactor : q * k * x - k * x = k * (q - 1) * x := by ring
    rw [hfactor]
    exact Dvd.dvd.mul_right hdvd x

/-! ## The floor of a difference -/

/-- The floor of a difference takes one more where the remainder of the subtrahend is the larger
one. -/
theorem sub_ediv_eq (hq : 0 < q) (b y : ℤ) :
    (b - y) / q = b / q - y / q - if b % q < y % q then 1 else 0 := by
  have hsplit : b - y = b % q - y % q + q * (b / q - y / q) := by
    have hb := Int.emod_add_mul_ediv b q
    have hy := Int.emod_add_mul_ediv y q
    linarith
  have hdiv : (b - y) / q = (b % q - y % q) / q + (b / q - y / q) := by
    rw [hsplit, Int.add_mul_ediv_left _ _ hq.ne']
  have hb := Int.emod_nonneg b hq.ne'
  have hy := Int.emod_nonneg y hq.ne'
  have hb' := Int.emod_lt_of_pos b hq
  have hy' := Int.emod_lt_of_pos y hq
  split
  · rename_i hlt
    have hneg : (b % q - y % q) / q = -1 := by
      apply Int.ediv_eq_neg_one_of_neg_of_le <;> omega
    omega
  · rename_i hge
    have hnone : (b % q - y % q) / q = 0 := Int.ediv_eq_zero_of_lt (by omega) (by omega)
    omega

/-- Rounding up and rounding down agree modulo a number above one only where there is nothing to
round. -/
theorem ediv_modEq_neg_ediv_iff (hq : 0 < q) (hm : 1 < m) :
    b / q ≡ -(-b / q) [ZMOD m] ↔ q ∣ b := by
  have hneg := sub_ediv_eq hq 0 b
  rw [zero_sub, Int.zero_ediv, Int.zero_emod, zero_sub] at hneg
  have hrem := Int.emod_nonneg b hq.ne'
  constructor
  · intro h
    by_contra hdvd
    have hpos : 0 < b % q := by
      have hne : b % q ≠ 0 := fun hzero => hdvd (Int.dvd_of_emod_eq_zero hzero)
      omega
    rw [if_pos hpos] at hneg
    have hone := h.dvd
    have hvalue : -(-b / q) - b / q = 1 := by omega
    rw [hvalue] at hone
    have hle := Int.le_of_dvd Int.one_pos hone
    omega
  · intro hdvd
    rw [Int.emod_eq_zero_of_dvd hdvd, if_neg (lt_irrefl 0)] at hneg
    have hvalue : -(-b / q) = b / q := by omega
    rw [hvalue]

/-- The remainders of the multiples of a number stay below the divisor by the common divisor. -/
theorem emod_add_gcd_le (hq : 0 < q) (x : ℤ) : c * x % q + Int.gcd c q ≤ q := by
  have hlt := Int.emod_lt_of_pos (c * x) hq
  have hdvd : (Int.gcd c q : ℤ) ∣ q - c * x % q := by
    apply dvd_sub (Int.gcd_dvd_right ..)
    rw [Int.emod_def]
    exact dvd_sub ((Int.gcd_dvd_left ..).mul_right x) ((Int.gcd_dvd_right ..).mul_right _)
  have hle := Int.le_of_dvd (by omega) hdvd
  omega

/-- The largest of these remainders is taken. -/
theorem exists_emod_eq_sub_gcd (hq : 0 < q) (c : ℤ) :
    ∃ x : ℕ, c * x % q = q - Int.gcd c q := by
  refine ⟨(-Int.gcdA c q % q).toNat, ?_⟩
  have hpos : 0 < Int.gcd c q := Int.gcd_pos_of_ne_zero_right c hq.ne'
  have hle : (Int.gcd c q : ℤ) ≤ q := Int.le_of_dvd hq (Int.gcd_dvd_right ..)
  rw [Int.toNat_of_nonneg (Int.emod_nonneg _ hq.ne')]
  have hmod : c * (-Int.gcdA c q % q) ≡ q - Int.gcd c q [ZMOD q] := by
    have hfirst : c * (-Int.gcdA c q % q) ≡ c * -Int.gcdA c q [ZMOD q] :=
      (Int.mod_modEq _ _).mul_left c
    apply hfirst.trans
    apply Int.modEq_of_dvd
    have hbezout := Int.gcd_eq_gcd_ab c q
    have hfactor : q - Int.gcd c q - c * -Int.gcdA c q = q * (1 - Int.gcdB c q) := by
      rw [hbezout]
      ring
    rw [hfactor]
    exact dvd_mul_right q _
  rw [hmod.eq]
  exact Int.emod_eq_of_lt (by omega) (by omega)

/-- A division of the subtrahend only has the result of the division of the difference, modulo a
number. -/
theorem sub_ediv_modEq_iff (hq : 0 < q) (hm : 1 < m) :
    (∀ x : ℕ, (b - c * x) / q ≡ b - c * x / q [ZMOD m]) ↔
      b / q ≡ b [ZMOD m] ∧ q ≤ b % q + Int.gcd c q := by
  constructor
  · intro h
    have hzero : b / q ≡ b [ZMOD m] := by
      simpa using h 0
    refine ⟨hzero, ?_⟩
    obtain ⟨x, hx⟩ := exists_emod_eq_sub_gcd hq c
    by_contra hlt
    have hcase : b % q < c * x % q := by
      rw [hx]
      omega
    have hfloor := h x
    rw [sub_ediv_eq hq, if_pos hcase] at hfloor
    have hdiff := (hfloor.add_right (c * x / q)).dvd
    have hsum := hzero.dvd
    have hone := dvd_sub hdiff hsum
    have hvalue :
      b - c * x / q + c * x / q - (b / q - c * x / q - 1 + c * x / q) - (b - b / q) = 1 := by
      ring
    rw [hvalue] at hone
    have hle := Int.le_of_dvd Int.one_pos hone
    omega
  · rintro ⟨hzero, hle⟩ x
    have hbound := emod_add_gcd_le (c := c) hq x
    rw [sub_ediv_eq hq, if_neg (by omega), sub_zero]
    exact hzero.sub_right _

end PyTorchSim.Library
