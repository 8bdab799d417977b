import Mathlib.Data.Rat.Floor
import Mathlib.Algebra.Order.Floor.Semiring
import Mathlib.Tactic.Positivity
import PyTorchSim.Model.Core
import PyTorchSim.Model.LatencyLink

/-!
# Cycles to nanoseconds and back

Both directions round up.  There and back a latency keeps its order, is never shorter and is
longer by less than the cycles of one nanosecond.
-/

set_option autoImplicit false

namespace PyTorchSim.Analysis

open PyTorchSim.Model

section RoundUp

variable {p : ℚ}

/-- Rounding up in another unit loses nothing. -/
theorem le_ceil_ceil_div (hp : 0 < p) (n : ℕ) : n ≤ ⌈(⌈n * p⌉₊ : ℚ) / p⌉₊ := by
  have hle : (n : ℚ) ≤ (⌈n * p⌉₊ : ℚ) / p := by
    rw [le_div_iff₀ hp]
    exact Nat.le_ceil _
  exact_mod_cast hle.trans (Nat.le_ceil _)

/-- It adds less than one of the other units. -/
theorem ceil_ceil_div_le (hp : 0 < p) (n : ℕ) :
    ⌈(⌈n * p⌉₊ : ℚ) / p⌉₊ ≤ n + ⌈1 / p⌉₊ := by
  have hnonneg : (0 : ℚ) ≤ n * p := by positivity
  have hlt : (⌈n * p⌉₊ : ℚ) < n * p + 1 := Nat.ceil_lt_add_one hnonneg
  apply Nat.ceil_le.mpr
  push_cast
  calc (⌈n * p⌉₊ : ℚ) / p ≤ (n * p + 1) / p := by gcongr
    _ = n + 1 / p := by rw [add_div, mul_div_cancel_right₀ _ hp.ne']
    _ ≤ n + ⌈1 / p⌉₊ := by gcongr; exact Nat.le_ceil _

end RoundUp

variable {f : ℕ}

/-- The latency of the link for a positive frequency. -/
theorem queryLatencyNs_eq (hf : 0 < f) (link : DramLegoSimLink) (hlink : link.coreFreqMhz = f)
    (req : SsdLatencyRequest) (coreCycle : ℕ) : link.queryLatencyNs req coreCycle =
      ⌈((link.roundTrip req coreCycle).elapsedCycles coreCycle : ℚ) * (1000 / f)⌉₊ := by
  have hpos : ¬ (f : ℚ) ≤ 0 := by
    rw [not_le]
    exact_mod_cast hf
  simp [DramLegoSimLink.queryLatencyNs, hlink, hpos]

/-- The cycles of the DMA engine for a positive frequency. -/
theorem latencyCycles_eq (hf : 0 < f) (latencyNs : ℕ) :
    DMA.latencyCycles f latencyNs = max 1 ⌈(latencyNs : ℚ) / (1000 / f)⌉₊ := by
  have hpos : (0 : ℚ) < 1000 / f := by positivity
  unfold DMA.latencyCycles
  simp only [if_pos hf, if_pos hpos]
  split <;> omega

/-- An access that is answered `n` cycles later has passed `n` cycles. -/
theorem elapsedCycles_eq {result : RoundTrip} {coreCycle n : ℕ} (hn : 0 < n)
    (h : result.resolvedCycle = coreCycle + n) : result.elapsedCycles coreCycle = n := by
  unfold RoundTrip.elapsedCycles
  split <;> omega

/-- What the engine charges for an access that is answered `n` cycles later. -/
theorem latencyCycles_queryLatencyNs (hf : 1 ≤ f) (link : DramLegoSimLink)
    (hlink : link.coreFreqMhz = f) (req : SsdLatencyRequest) {coreCycle n : ℕ} (hn : 1 ≤ n)
    (hresolved : (link.roundTrip req coreCycle).resolvedCycle = coreCycle + n) :
    n ≤ DMA.latencyCycles f (link.queryLatencyNs req coreCycle) ∧
      DMA.latencyCycles f (link.queryLatencyNs req coreCycle) ≤ n + ⌈(f : ℚ) / 1000⌉₊ := by
  have hp : (0 : ℚ) < 1000 / f := by positivity
  rw [latencyCycles_eq hf, queryLatencyNs_eq hf link hlink, elapsedCycles_eq hn hresolved]
  have hlower := le_ceil_ceil_div hp n
  have hupper := ceil_ceil_div_le hp n
  rw [one_div_div] at hupper
  omega

/-- The engine of a core waits until the answer of the link at least. -/
theorem resolvedCycle_le_ssdFinishCycle {τ ι : Type} [DecidableEq ι] (cfg : CoreConfig)
    {c c' : Core τ ι} {env : CycleEnv} {b : Bool} (hf : 1 ≤ f) (link : DramLegoSimLink)
    (hlink : link.coreFreqMhz = f) (req : SsdLatencyRequest)
    (hlater : c.coreCycle < (link.roundTrip req c.coreCycle).resolvedCycle)
    (henv : env.latency = some (DMA.latencyCycles f (link.queryLatencyNs req c.coreCycle)))
    (hnew : c.dma.generatedOnce = false)
    (hgen : c.generateAccesses cfg env = .ok (c', b)) :
    (link.roundTrip req c.coreCycle).resolvedCycle ≤ c'.dma.ssdFinishCycle := by
  obtain ⟨n, hn⟩ := Nat.exists_eq_add_of_lt hlater
  have hbound := (latencyCycles_queryLatencyNs hf link hlink req (n := n + 1) (by omega) hn).1
  unfold Core.generateAccesses at hgen
  rw [henv, if_neg (by simp [hnew])] at hgen
  cases hcur : c.dma.currentInst with
  | none =>
      rw [hcur] at hgen
      cases hgen
  | some i =>
      rw [hcur] at hgen
      cases hgen
      dsimp only
      omega

/-- **The DMA engine charges the latency that passed**: at least its cycles, at most those of
one nanosecond more, and a longer latency never less than a shorter one. -/
theorem latency_units (f : ℕ) (hf : 1 ≤ f) (link : DramLegoSimLink)
    (hlink : link.coreFreqMhz = f) :
    (∀ req coreCycle n, 1 ≤ n → (link.roundTrip req coreCycle).resolvedCycle = coreCycle + n →
      n ≤ DMA.latencyCycles f (link.queryLatencyNs req coreCycle) ∧
        DMA.latencyCycles f (link.queryLatencyNs req coreCycle) ≤ n + ⌈(f : ℚ) / 1000⌉₊) ∧
    (∀ req coreCycle req' coreCycle',
      (link.roundTrip req coreCycle).elapsedCycles coreCycle ≤
        (link.roundTrip req' coreCycle').elapsedCycles coreCycle' →
      link.queryLatencyNs req coreCycle ≤ link.queryLatencyNs req' coreCycle') ∧
    Monotone (DMA.latencyCycles f) := by
  refine ⟨?_, ?_, ?_⟩
  · intro req coreCycle n hn hresolved
    exact latencyCycles_queryLatencyNs hf link hlink req hn hresolved
  · intro req coreCycle req' coreCycle' h
    rw [queryLatencyNs_eq hf link hlink, queryLatencyNs_eq hf link hlink]
    gcongr
  · intro a b h
    rw [latencyCycles_eq hf, latencyCycles_eq hf]
    gcongr

/-- A link of 940 MHz whose accesses pass 100 cycles. -/
def hundredCycleLink : DramLegoSimLink where
  coreFreqMhz := 940
  roundTrip _ coreCycle := ⟨0, coreCycle + 100⟩

/-- The engine charges one cycle more at most. -/
theorem latency_units_hundred :
    100 ≤ DMA.latencyCycles 940 (hundredCycleLink.queryLatencyNs ⟨0, 32, 1, "W", false⟩ 7) ∧
      DMA.latencyCycles 940 (hundredCycleLink.queryLatencyNs ⟨0, 32, 1, "W", false⟩ 7) ≤
        100 + ⌈((940 : ℕ) : ℚ) / 1000⌉₊ :=
  (latency_units 940 (by decide) hundredCycleLink (by simp [hundredCycleLink])).1 _ _ 100
    (by decide) rfl

end PyTorchSim.Analysis
