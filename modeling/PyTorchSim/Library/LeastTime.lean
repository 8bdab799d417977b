import Mathlib.Algebra.BigOperators.Group.Finset.Basic
import Mathlib.Algebra.Order.BigOperators.Group.Finset

/-!
# Clocks that advance by least time

A finite family of clocks, each with a period of its own and a time.  In a step the clocks
whose time is least tick, all of them, and the time of each of these grows by its period.

`InStep` is the invariant: a time is the number of ticks times the period, and no time is
further than the period of its clock beyond any other.  It bounds the drift between two clocks
and the number of steps that a clock can wait for its next tick.
-/

set_option autoImplicit false

namespace PyTorchSim.Library

/-- The times of the clocks and how often each of them has ticked. -/
structure Ticked (δ : Type*) where
  time : δ → ℕ
  ticks : δ → ℕ

/-- One step: exactly the clocks whose time is least tick. -/
structure TickStep {δ : Type*} (period : δ → ℕ) (s t : Ticked δ) : Prop where
  exists_tick : ∃ d, t.ticks d = s.ticks d + 1
  tick_or_stay : ∀ d,
    (∀ e, s.time d ≤ s.time e) ∧ t.time d = s.time d + period d ∧ t.ticks d = s.ticks d + 1 ∨
      (∃ e, s.time e < s.time d) ∧ t.time d = s.time d ∧ t.ticks d = s.ticks d

/-- The clocks are in step. -/
structure InStep {δ : Type*} (period : δ → ℕ) (s : Ticked δ) : Prop where
  time_eq : ∀ d, s.time d = s.ticks d * period d
  time_le : ∀ d e, s.time d ≤ s.time e + period d

section

variable {δ : Type*} {period : δ → ℕ} {s t : Ticked δ}

/-- A step takes away no tick. -/
theorem TickStep.ticks_le (h : TickStep period s t) (d : δ) : s.ticks d ≤ t.ticks d := by
  obtain ⟨-, -, ht⟩ | ⟨-, -, ht⟩ := h.tick_or_stay d
  · rw [ht]
    exact Nat.le_succ _
  · rw [ht]

/-- A step takes away no time. -/
theorem TickStep.time_le (h : TickStep period s t) (d : δ) : s.time d ≤ t.time d := by
  obtain ⟨-, ht, -⟩ | ⟨-, ht, -⟩ := h.tick_or_stay d
  · rw [ht]
    exact Nat.le_add_right _ _
  · rw [ht]

/-- Clocks in step stay in step. -/
theorem InStep.step (hs : InStep period s) (h : TickStep period s t) : InStep period t := by
  constructor
  · intro d
    have heq := hs.time_eq d
    obtain ⟨-, htime, hticks⟩ | ⟨-, htime, hticks⟩ := h.tick_or_stay d
    · rw [htime, hticks, heq, Nat.succ_mul]
    · rw [htime, hticks, heq]
  · intro d e
    have hgrow := h.time_le e
    obtain ⟨hleast, htime, -⟩ | ⟨-, htime, -⟩ := h.tick_or_stay d
    · -- A clock that ticks was not beyond any other.
      have := hleast e
      omega
    · have := hs.time_le d e
      omega

/-- The drift of two clocks is at most one period. -/
theorem InStep.drift (hs : InStep period s) (d e : δ) :
    s.ticks d * period d ≤ s.ticks e * period e + period d := by
  have := hs.time_le d e
  rwa [hs.time_eq d, hs.time_eq e] at this

end

/-- A row of steps: state `i` leads to state `i + 1` for every `i` below `n`. -/
def TickRun {δ : Type*} (period : δ → ℕ) (s : ℕ → Ticked δ) (n : ℕ) : Prop :=
  ∀ i < n, TickStep period (s i) (s (i + 1))

namespace TickRun

variable {δ : Type*} {period : δ → ℕ} {s : ℕ → Ticked δ} {n : ℕ}

/-- Clocks that start in step are in step after every row of steps. -/
theorem inStep (h : TickRun period s n) (hs : InStep period (s 0)) : InStep period (s n) := by
  induction n with
  | zero => exact hs
  | succ n ih =>
      have hn := ih fun i hi => h i (Nat.lt_succ_of_lt hi)
      exact hn.step (h n (Nat.lt_succ_self n))

/-- A row of steps takes away no tick. -/
theorem ticks_le (h : TickRun period s n) (d : δ) : (s 0).ticks d ≤ (s n).ticks d := by
  induction n with
  | zero => exact Nat.le_refl _
  | succ n ih =>
      have hn := ih fun i hi => h i (Nat.lt_succ_of_lt hi)
      exact hn.trans ((h n (Nat.lt_succ_self n)).ticks_le d)

/-- How often a clock can tick while another one does not. -/
theorem ticks_sub_le (h : TickRun period s n) (hs : InStep period (s 0)) {d e : δ}
    (hpos : 0 < period e) (hd : (s n).ticks d = (s 0).ticks d) :
    (s n).ticks e ≤ (s 0).ticks e + (period d / period e + 1) := by
  have hend := (h.inStep hs).drift e d
  have hstart := hs.drift d e
  rw [hd] at hend
  have hbound : (s n).ticks e * period e ≤
      (s 0).ticks e * period e + period d + period e := by omega
  have hdiv := Nat.div_le_div_right (c := period e) hbound
  rw [Nat.mul_div_cancel _ hpos, Nat.add_div_right _ hpos, Nat.add_comm (_ * _),
    Nat.add_mul_div_right _ _ hpos] at hdiv
  omega

variable [Fintype δ]

/-- Every step counts at least one tick. -/
theorem add_le_sum_ticks (h : TickRun period s n) :
    n + ∑ d, (s 0).ticks d ≤ ∑ d, (s n).ticks d := by
  induction n with
  | zero => simp
  | succ n ih =>
      have hn := ih fun i hi => h i (Nat.lt_succ_of_lt hi)
      have hlast := h n (Nat.lt_succ_self n)
      obtain ⟨d, hd⟩ := hlast.exists_tick
      have hlt : ∑ d, (s n).ticks d < ∑ d, (s (n + 1)).ticks d := by
        apply Finset.sum_lt_sum
        · intro e _
          exact hlast.ticks_le e
        · exact ⟨d, Finset.mem_univ d, by omega⟩
      omega

/-- **No clock starves**: as long as a clock does not tick, only so many steps are made. -/
theorem length_le [DecidableEq δ] (h : TickRun period s n) (hs : InStep period (s 0))
    (hpos : ∀ e, 0 < period e) {d : δ} (hd : (s n).ticks d = (s 0).ticks d) :
    n ≤ ∑ e ∈ Finset.univ.erase d, (period d / period e + 1) := by
  have hcount := h.add_le_sum_ticks
  have hothers : ∑ e ∈ Finset.univ.erase d, (s n).ticks e ≤
      ∑ e ∈ Finset.univ.erase d, ((s 0).ticks e + (period d / period e + 1)) :=
    Finset.sum_le_sum fun e _ => h.ticks_sub_le hs (hpos e) hd
  rw [Finset.sum_add_distrib] at hothers
  rw [← Finset.add_sum_erase _ _ (Finset.mem_univ d),
    ← Finset.add_sum_erase _ (fun e => (s n).ticks e) (Finset.mem_univ d), hd] at hcount
  omega

end TickRun

end PyTorchSim.Library
