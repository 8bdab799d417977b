import Mathlib.Algebra.Order.Ring.Int
import Mathlib.Tactic.Positivity
import Mathlib.Tactic.Zify

/-!
# Integers as two's complement patterns

The pattern of an integer at a width is `BitVec.ofInt`.  Addition, subtraction and multiplication of
patterns are those of the integers, whatever the integers are.  Division, remainder and order are
those of the integers when the integers are in the signed range of the width.

A pattern that is widened by zeros stands for the same integer exactly when the integer is not
negative (`setWidth_eq_signExtend_iff`).
-/

set_option autoImplicit false

namespace PyTorchSim.Library

/-- The integers that a signed number of `w` bits holds. -/
def InSigned (w : ℕ) (v : ℤ) : Prop := -2 ^ (w - 1) ≤ v ∧ v < 2 ^ (w - 1)

instance (w : ℕ) (v : ℤ) : Decidable (InSigned w v) := inferInstanceAs (Decidable (_ ∧ _))

section

variable {w w' : ℕ} {a b v : ℤ}

theorem toInt_ofInt_of_inSigned (hw : 0 < w) (hv : InSigned w v) : (BitVec.ofInt w v).toInt = v :=
  BitVec.toInt_ofInt_eq_self hw hv.1 hv.2

/-- The signed range is not left by an integer that a pattern is read as. -/
theorem inSigned_toInt (x : BitVec w) : InSigned w x.toInt := by
  have hlow := BitVec.le_toInt x
  have hhigh := BitVec.toInt_lt (x := x)
  exact ⟨hlow, hhigh⟩

theorem inSigned_bmod (w : ℕ) (v : ℤ) : InSigned w (v.bmod (2 ^ w)) := by
  rw [← BitVec.toInt_ofInt]
  exact inSigned_toInt _

/-- A wider number holds what a narrower one does. -/
theorem InSigned.mono (hv : InSigned w v) (h : w ≤ w') : InSigned w' v := by
  have hpow : (2 : ℤ) ^ (w - 1) ≤ 2 ^ (w' - 1) :=
    pow_le_pow_right₀ (by norm_num) (Nat.sub_le_sub_right h 1)
  exact ⟨by have := hv.1; omega, by have := hv.2; omega⟩

/-- Different integers of the signed range have different patterns. -/
theorem ofInt_inj (hw : 0 < w) (ha : InSigned w a) (hb : InSigned w b) :
    BitVec.ofInt w a = BitVec.ofInt w b ↔ a = b := by
  rw [← BitVec.toInt_inj, toInt_ofInt_of_inSigned hw ha, toInt_ofInt_of_inSigned hw hb]

/-- An integer and what is left of it at the width have one pattern. -/
theorem ofInt_bmod (w : ℕ) (v : ℤ) : BitVec.ofInt w (v.bmod (2 ^ w)) = BitVec.ofInt w v := by
  apply BitVec.eq_of_toInt_eq
  simp only [BitVec.toInt_ofInt, Int.bmod_bmod]

theorem ofInt_sub (w : ℕ) (a b : ℤ) :
    BitVec.ofInt w (a - b) = BitVec.ofInt w a - BitVec.ofInt w b := by
  apply BitVec.eq_of_toInt_eq
  simp only [BitVec.toInt_ofInt, BitVec.toInt_sub, Int.sub_bmod_bmod, Int.bmod_sub_bmod]

/-! ## Changes of width -/

/-- A narrower pattern keeps the low bits. -/
theorem setWidth_ofInt_of_le (h : w' ≤ w) (v : ℤ) :
    (BitVec.ofInt w v).setWidth w' = BitVec.ofInt w' v := by
  apply BitVec.eq_of_toNat_eq
  have hdvd : (2 : ℤ) ^ w' ∣ 2 ^ w := pow_dvd_pow 2 h
  have hnonneg : 0 ≤ v % 2 ^ w := Int.emod_nonneg _ (by positivity)
  have hnonneg' : 0 ≤ v % 2 ^ w' := Int.emod_nonneg _ (by positivity)
  rw [BitVec.toNat_setWidth, BitVec.toNat_ofInt, BitVec.toNat_ofInt]
  zify
  rw [Int.toNat_of_nonneg hnonneg, Int.toNat_of_nonneg hnonneg']
  exact Int.emod_emod_of_dvd v hdvd

theorem signExtend_ofInt (hw : 0 < w) (hv : InSigned w v) (h : w ≤ w') :
    (BitVec.ofInt w v).signExtend w' = BitVec.ofInt w' v := by
  apply BitVec.eq_of_toInt_eq
  rw [BitVec.toInt_signExtend_of_le h, toInt_ofInt_of_inSigned hw hv,
    toInt_ofInt_of_inSigned (hw.trans_le h) (hv.mono h)]

/-- Widening by zeros and widening by the sign give one pattern exactly when the number is not
negative. -/
theorem setWidth_eq_signExtend_iff (h : w < w') (x : BitVec w) :
    x.setWidth w' = x.signExtend w' ↔ 0 ≤ x.toInt := by
  have hpow : 2 * 2 ^ w ≤ 2 ^ w' := by
    rw [← Nat.pow_succ']
    exact Nat.pow_le_pow_right (by norm_num) h
  have hlt := x.isLt
  have hwide : (x.setWidth w').toInt = x.toNat := by
    rw [BitVec.toInt_eq_toNat_of_lt (by rw [BitVec.toNat_setWidth_of_le h.le]; omega),
      BitVec.toNat_setWidth_of_le h.le]
  rw [← BitVec.toInt_inj, BitVec.toInt_signExtend_of_le h.le, hwide, BitVec.toInt_eq_toNat_cond]
  split <;> omega

/-- A number that fits without a sign is brought to another width by zeros. -/
theorem setWidth_ofInt_of_lt (h0 : 0 ≤ v) (hlt : v < 2 ^ w) :
    (BitVec.ofInt w v).setWidth w' = BitVec.ofInt w' v := by
  obtain ⟨n, rfl⟩ := Int.eq_ofNat_of_zero_le h0
  have hn : n < 2 ^ w := by exact_mod_cast hlt
  apply BitVec.eq_of_toNat_eq
  rw [BitVec.ofInt_natCast, BitVec.ofInt_natCast, BitVec.toNat_setWidth, BitVec.toNat_ofNat,
    BitVec.toNat_ofNat, Nat.mod_eq_of_lt hn]

/-- A number of the signed range is widened by zeros exactly when it is not negative. -/
theorem setWidth_ofInt_iff (hw : 0 < w) (hv : InSigned w v) (h : w < w') :
    (BitVec.ofInt w v).setWidth w' = BitVec.ofInt w' v ↔ 0 ≤ v := by
  rw [← signExtend_ofInt hw hv h.le, setWidth_eq_signExtend_iff h, toInt_ofInt_of_inSigned hw hv]

/-! ## Division and order -/

theorem sdiv_ofInt (hw : 0 < w) (ha : InSigned w a) (hb : InSigned w b) :
    (BitVec.ofInt w a).sdiv (BitVec.ofInt w b) = BitVec.ofInt w (a.tdiv b) := by
  apply BitVec.eq_of_toInt_eq
  rw [BitVec.toInt_sdiv, toInt_ofInt_of_inSigned hw ha, toInt_ofInt_of_inSigned hw hb,
    BitVec.toInt_ofInt]

theorem srem_ofInt (hw : 0 < w) (ha : InSigned w a) (hb : InSigned w b) :
    (BitVec.ofInt w a).srem (BitVec.ofInt w b) = BitVec.ofInt w (a.tmod b) := by
  rw [← BitVec.ofInt_toInt (x := (BitVec.ofInt w a).srem (BitVec.ofInt w b)), BitVec.toInt_srem,
    toInt_ofInt_of_inSigned hw ha, toInt_ofInt_of_inSigned hw hb]

/-- The remainder with the sign of the dividend is in the signed range. -/
theorem inSigned_tmod (hw : 0 < w) (ha : InSigned w a) (hb : InSigned w b) :
    InSigned w (a.tmod b) := by
  have hrange := inSigned_toInt ((BitVec.ofInt w a).srem (BitVec.ofInt w b))
  rwa [BitVec.toInt_srem, toInt_ofInt_of_inSigned hw ha, toInt_ofInt_of_inSigned hw hb] at hrange

/-- The remainder with the sign of the divisor is in the signed range. -/
theorem inSigned_fmod (hw : 0 < w) (ha : InSigned w a) (hb : InSigned w b) :
    InSigned w (a.fmod b) := by
  have hrange := inSigned_toInt ((BitVec.ofInt w a).smod (BitVec.ofInt w b))
  rwa [BitVec.toInt_smod, toInt_ofInt_of_inSigned hw ha, toInt_ofInt_of_inSigned hw hb] at hrange

/-- The two remainders agree where there is none, and where dividend and divisor have one sign. -/
theorem tmod_eq_fmod_iff (hb : b ≠ 0) : a.tmod b = a.fmod b ↔ b ∣ a ∨ (0 ≤ a ↔ 0 ≤ b) := by
  rw [Int.fmod_eq_tmod]
  by_cases hdvd : b ∣ a
  · simp [hdvd]
  · rw [if_neg hdvd]
    by_cases ha : 0 ≤ a <;> by_cases hb0 : 0 ≤ b <;> simp [hdvd, ha, hb0, hb]
    omega

theorem slt_ofInt (hw : 0 < w) (ha : InSigned w a) (hb : InSigned w b) :
    (BitVec.ofInt w a).slt (BitVec.ofInt w b) = decide (a < b) := by
  rw [BitVec.slt_eq_decide, toInt_ofInt_of_inSigned hw ha, toInt_ofInt_of_inSigned hw hb]

theorem sle_ofInt (hw : 0 < w) (ha : InSigned w a) (hb : InSigned w b) :
    (BitVec.ofInt w a).sle (BitVec.ofInt w b) = decide (a ≤ b) := by
  rw [BitVec.sle_eq_decide, toInt_ofInt_of_inSigned hw ha, toInt_ofInt_of_inSigned hw hb]

end

end PyTorchSim.Library
