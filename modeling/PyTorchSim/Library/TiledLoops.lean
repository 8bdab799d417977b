import Mathlib.Algebra.BigOperators.Group.Finset.Piecewise
import Mathlib.Algebra.BigOperators.Group.Finset.Sigma

/-!
# Sums over tiles

A sum whose range is cut into tiles of one size, the last of which may reach over the end, and loops
that add.
-/

set_option autoImplicit false

namespace PyTorchSim.Library

open Finset

variable {R : Type*} [AddCommMonoid R]

/-- The sum over a range in tiles. -/
theorem sum_tiles (f : ℕ → R) (m step : ℕ) :
    ∑ q ∈ range m, ∑ r ∈ range step, f (q * step + r) = ∑ k ∈ range (m * step), f k := by
  induction m with
  | zero => simp
  | succ m ih => rw [sum_range_succ, ih, Nat.succ_mul, sum_range_add]

/-- The part of the last tile over the end does not count. -/
theorem sum_masked_tiles (f : ℕ → R) {n m step : ℕ} (hcover : n ≤ m * step) :
    (∑ q ∈ range m, ∑ r ∈ range step, if q * step + r < n then f (q * step + r) else 0) =
      ∑ k ∈ range n, f k := by
  rw [sum_tiles (fun k => if k < n then f k else 0), ← sum_filter]
  refine sum_congr ?_ fun _ _ => rfl
  ext k
  simp only [mem_filter, mem_range]
  omega

/-- The sums over two tiles, and those inside them, can be taken axis by axis. -/
theorem sum_tile_axes (f : ℕ → ℕ → ℕ → ℕ → ℕ → R) (m₂ m₃ step₁ step₂ step₃ : ℕ) :
    ∑ q₂ ∈ range m₂, ∑ q₃ ∈ range m₃,
        ∑ r₁ ∈ range step₁, ∑ r₂ ∈ range step₂, ∑ r₃ ∈ range step₃, f q₂ q₃ r₁ r₂ r₃ =
      ∑ r₁ ∈ range step₁, ∑ q₂ ∈ range m₂, ∑ r₂ ∈ range step₂,
        ∑ q₃ ∈ range m₃, ∑ r₃ ∈ range step₃, f q₂ q₃ r₁ r₂ r₃ := by
  calc
    _ = ∑ q₂ ∈ range m₂, ∑ r₁ ∈ range step₁, ∑ r₂ ∈ range step₂,
        ∑ q₃ ∈ range m₃, ∑ r₃ ∈ range step₃, f q₂ q₃ r₁ r₂ r₃ := by
      apply sum_congr rfl
      intro q₂ _
      rw [sum_comm]
      apply sum_congr rfl
      intro r₁ _
      rw [sum_comm]
    _ = _ := sum_comm

/-- The sum over three ranges in tiles, the loops over the tiles outside those inside them. -/
theorem sum_masked_tiles_triple (f : ℕ → ℕ → ℕ → R) {n₁ n₂ n₃ m₁ m₂ m₃ step₁ step₂ step₃ : ℕ}
    (h₁ : n₁ ≤ m₁ * step₁) (h₂ : n₂ ≤ m₂ * step₂) (h₃ : n₃ ≤ m₃ * step₃) :
    (∑ q₁ ∈ range m₁, ∑ q₂ ∈ range m₂, ∑ q₃ ∈ range m₃,
      ∑ r₁ ∈ range step₁, ∑ r₂ ∈ range step₂, ∑ r₃ ∈ range step₃,
        if q₁ * step₁ + r₁ < n₁ ∧ q₂ * step₂ + r₂ < n₂ ∧ q₃ * step₃ + r₃ < n₃ then
          f (q₁ * step₁ + r₁) (q₂ * step₂ + r₂) (q₃ * step₃ + r₃) else 0) =
      ∑ k₁ ∈ range n₁, ∑ k₂ ∈ range n₂, ∑ k₃ ∈ range n₃, f k₁ k₂ k₃ := by
  have hinner : ∀ x y, (∑ q₃ ∈ range m₃, ∑ r₃ ∈ range step₃,
      if x < n₁ ∧ y < n₂ ∧ q₃ * step₃ + r₃ < n₃ then f x y (q₃ * step₃ + r₃) else 0) =
        if x < n₁ then (if y < n₂ then ∑ k₃ ∈ range n₃, f x y k₃ else 0) else 0 := by
    intro x y
    by_cases hx : x < n₁
    · by_cases hy : y < n₂
      · simp only [hx, hy, true_and, if_true]
        exact sum_masked_tiles (f x y) h₃
      · simp [hy]
    · simp [hx]
  have hmiddle : ∀ x, (∑ q₂ ∈ range m₂, ∑ r₂ ∈ range step₂,
      if x < n₁ then (if q₂ * step₂ + r₂ < n₂ then
        ∑ k₃ ∈ range n₃, f x (q₂ * step₂ + r₂) k₃ else 0) else 0) =
        if x < n₁ then ∑ k₂ ∈ range n₂, ∑ k₃ ∈ range n₃, f x k₂ k₃ else 0 := by
    intro x
    by_cases hx : x < n₁
    · simp only [hx, if_true]
      exact sum_masked_tiles (fun k₂ => ∑ k₃ ∈ range n₃, f x k₂ k₃) h₂
    · simp [hx]
  rw [← sum_masked_tiles (fun k₁ => ∑ k₂ ∈ range n₂, ∑ k₃ ∈ range n₃, f k₁ k₂ k₃) h₁]
  apply sum_congr rfl
  intro q₁ _
  rw [sum_tile_axes]
  apply sum_congr rfl
  intro r₁ _
  simp only [hinner, hmiddle]

/-- A loop whose turns add to what is seen of a state. -/
theorem foldl_range_add {σ : Type*} (view : σ → R) (step : σ → ℕ → σ) (f : ℕ → R) (m : ℕ)
    (hstep : ∀ s, ∀ i < m, view (step s i) = view s + f i) (s : σ) :
    view ((List.range m).foldl step s) = view s + ∑ i ∈ range m, f i := by
  induction m with
  | zero => simp
  | succ m ih =>
      have hprefix : view ((List.range m).foldl step s) = view s + ∑ i ∈ range m, f i := by
        apply ih
        intro s i hi
        exact hstep s i (by omega)
      rw [List.range_succ, List.foldl_append, List.foldl_cons, List.foldl_nil,
        hstep _ m (by omega), hprefix, sum_range_succ, add_assoc]

/-- A loop that adds. -/
theorem foldl_add_eq_sum (f : ℕ → R) (a : R) (m : ℕ) :
    (List.range m).foldl (fun a q => a + f q) a = a + ∑ q ∈ range m, f q :=
  foldl_range_add id _ f m (fun _ _ _ => rfl) a

end PyTorchSim.Library
