import Mathlib.Algebra.Order.Floor.Div
import Mathlib.Order.Bounds.Basic

/-!
# Rounding up to a multiple

The ceiling quotient `a ⌈/⌉ d` of natural numbers, and the least multiple of `d` that is not below
`a`. The second part divides `a` elements, in groups of `s`, over at most `l` workers.  Rounding `a`
up to a multiple of what the workers take in one round does not change how many of them are used,
whether there are more groups than workers or fewer.
-/

set_option autoImplicit false

namespace PyTorchSim.Library

variable {a b d k l s : ℕ}

theorem ceilDiv_le_iff (hd : 0 < d) : a ⌈/⌉ d ≤ k ↔ a ≤ k * d := by
  rw [ceilDiv_le_iff_le_mul hd, Nat.mul_comm]

theorem le_ceilDiv_mul (hd : 0 < d) : a ≤ a ⌈/⌉ d * d := (ceilDiv_le_iff hd).1 le_rfl

theorem ceilDiv_pos (hd : 0 < d) (ha : 0 < a) : 0 < a ⌈/⌉ d := by
  have hle : a ≤ a ⌈/⌉ d * d := le_ceilDiv_mul hd
  exact Nat.pos_of_mul_pos_right (Nat.lt_of_lt_of_le ha hle)

@[simp] theorem mul_ceilDiv_self (hd : 0 < d) : (k * d) ⌈/⌉ d = k := by
  apply Nat.le_antisymm
  · exact (ceilDiv_le_iff hd).2 le_rfl
  · exact Nat.le_of_mul_le_mul_right (le_ceilDiv_mul hd) hd

/-- Rounding up gives the least multiple. -/
theorem isLeast_ceilDiv_mul (hd : 0 < d) : IsLeast {m | d ∣ m ∧ a ≤ m} (a ⌈/⌉ d * d) := by
  refine ⟨⟨Dvd.intro_left _ rfl, le_ceilDiv_mul hd⟩, ?_⟩
  rintro m ⟨⟨k, rfl⟩, hle⟩
  rw [Nat.mul_comm d k] at hle ⊢
  exact Nat.mul_le_mul_right d ((ceilDiv_le_iff hd).2 hle)

/-! ## Groups and workers -/

theorem min_ceilDiv_pos (hs : 0 < s) (hl : 0 < l) (ha : 0 < a) : 0 < min (a ⌈/⌉ s) l :=
  Nat.lt_min.2 ⟨ceilDiv_pos hs ha, hl⟩

/-- What is rounded up to whole rounds has the used workers as before. -/
theorem min_ceilDiv_round (hs : 0 < s) (hl : 0 < l) (ha : 0 < a) :
    min ((a ⌈/⌉ (min (a ⌈/⌉ s) l * s) * (min (a ⌈/⌉ s) l * s)) ⌈/⌉ s) l = min (a ⌈/⌉ s) l := by
  have hu : 0 < min (a ⌈/⌉ s) l := min_ceilDiv_pos hs hl ha
  generalize hdef : min (a ⌈/⌉ s) l = u at hu ⊢
  have hround : 0 < u * s := Nat.mul_pos hu hs
  have hk : 0 < a ⌈/⌉ (u * s) := ceilDiv_pos hround ha
  rw [← Nat.mul_assoc, mul_ceilDiv_self hs]
  rcases Nat.le_total (a ⌈/⌉ s) l with hfew | hmany
  · -- one round is enough
    have huse : a ⌈/⌉ s = u := by rw [← hdef, Nat.min_eq_left hfew]
    have hone : a ⌈/⌉ (u * s) = 1 := by
      apply Nat.le_antisymm ?_ hk
      rw [ceilDiv_le_iff hround, Nat.one_mul, ← huse]
      exact le_ceilDiv_mul hs
    rw [hone, Nat.one_mul, ← huse, Nat.min_eq_left hfew]
  · -- every round uses all of the workers
    have huse : l = u := by rw [← hdef, Nat.min_eq_right hmany]
    rw [huse]
    exact Nat.min_eq_right (Nat.le_mul_of_pos_left u hk)

end PyTorchSim.Library
