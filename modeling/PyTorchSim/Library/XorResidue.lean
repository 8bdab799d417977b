import Mathlib.Data.Nat.Bitwise
import Mathlib.Tactic.Common

/-!
# Exclusive or and residues

Exclusive or with a constant permutes the residues modulo a power of two.  For a modulus `n`
that is not one, exclusive or with the highest power of two below `n` merges two residues, so
no hash that folds an exclusive or by `% n` is injective.
-/

set_option autoImplicit false

namespace PyTorchSim.Library

variable {r s f k n : ℕ}

/-- Modulo a power of two, exclusive or with a constant is injective. -/
theorem xor_mod_two_pow_inj (hr : r < 2 ^ k) (hs : s < 2 ^ k)
    (h : (r ^^^ f) % 2 ^ k = (s ^^^ f) % 2 ^ k) : r = s := by
  rw [Nat.xor_mod_two_pow, Nat.xor_mod_two_pow, Nat.mod_eq_of_lt hr, Nat.mod_eq_of_lt hs] at h
  exact Nat.xor_left_injective h

/-- Without its highest bit a number is below the power of two of that bit. -/
theorem xor_two_pow_lt (hk : 2 ^ k ≤ n) (hn : n < 2 ^ (k + 1)) : n ^^^ 2 ^ k < 2 ^ k := by
  apply Nat.lt_pow_two_of_testBit
  intro i hi
  rw [Nat.testBit_xor]
  rcases Nat.eq_or_lt_of_le hi with rfl | hlt
  · have htop : n.testBit k = true := Nat.testBit_of_two_pow_le_and_two_pow_add_one_gt hk hn
    rw [htop, Nat.testBit_two_pow_self]
    rfl
  · have hpow : 2 ^ (k + 1) ≤ 2 ^ i := Nat.pow_le_pow_right (by omega) hlt
    rw [Nat.testBit_lt_two_pow (by omega), Nat.testBit_two_pow_of_ne (by omega)]
    rfl

/-- Two residues that are merged when the modulus is not a power of two. -/
theorem exists_xor_collision (hk : 2 ^ k < n) (hn : n < 2 ^ (k + 1)) :
    ∃ r s, r < n ∧ s < n ∧ r ≠ s ∧ (r ^^^ 2 ^ k) % n = (s ^^^ 2 ^ k) % n := by
  have hlt := xor_two_pow_lt hk.le hn
  refine ⟨n ^^^ 2 ^ k, 2 ^ k, hlt.trans hk, hk, hlt.ne, ?_⟩
  have hself : n ^^^ 2 ^ k ^^^ 2 ^ k = n := by rw [Nat.xor_assoc, Nat.xor_self, Nat.xor_zero]
  rw [hself, Nat.xor_self, Nat.mod_self, Nat.zero_mod]

end PyTorchSim.Library
