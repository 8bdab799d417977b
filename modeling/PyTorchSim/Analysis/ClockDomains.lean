import Mathlib.Data.Finset.Max
import PyTorchSim.Library.LeastTime
import PyTorchSim.Model.Simulator

/-!
# The clock domains

The cores, the DRAM and the interconnect are three clocks that advance by least time.  The
times are 64-bit numbers: as long as none of them has run over, the domains are in step, with
a drift of at most one period, and no domain starves.
-/

set_option autoImplicit false

namespace PyTorchSim.Analysis

open PyTorchSim.Library PyTorchSim.Model

instance : Fintype ClockDomain where
  elems := {.core, .dram, .icnt}
  complete d := by cases d <;> simp

/-- The clocks of a simulator with the number of cycles that each domain has had. -/
structure TickedClocks where
  clocks : Clocks := {}
  ticks : ClockDomain → ℕ := fun _ => 0

/-- The clocks as the general theory sees them. -/
def TickedClocks.toTicked (s : TickedClocks) : Ticked ClockDomain where
  time := s.clocks.time
  ticks := s.ticks

variable (cfg : SimulationConfig)

/-- A call of `set_cycle_mask`, with the cycles counted. -/
def TickedClocks.step (s : TickedClocks) : TickedClocks where
  clocks := (cfg.setCycleMask s.clocks).2
  ticks d := s.ticks d + ((cfg.setCycleMask s.clocks).1.has d).toNat

/-- The clocks after `n` calls of `set_cycle_mask`. -/
def clockRun : ℕ → TickedClocks
  | 0 => {}
  | n + 1 => (clockRun n).step cfg

/-- The domains that have a cycle are those whose time is least. -/
theorem setCycleMask_has (c : Clocks) (d : ClockDomain) :
    (cfg.setCycleMask c).1.has d = true ↔ ∀ e, c.time d ≤ c.time e := by
  have hleast : (∀ e, c.time d ≤ c.time e) ↔
      c.time d ≤ min (min c.coreTime c.dramTime) c.icntTime := by
    constructor
    · intro h
      exact le_min (le_min (h .core) (h .dram)) (h .icnt)
    · intro h e
      cases e with
      | core => exact h.trans ((min_le_left _ _).trans (min_le_left _ _))
      | dram => exact h.trans ((min_le_left _ _).trans (min_le_right _ _))
      | icnt => exact h.trans (min_le_right _ _)
  rw [hleast]
  cases d <;> simp [SimulationConfig.setCycleMask, CycleMask.has, Clocks.time]

/-- Their time grows by their period. -/
theorem setCycleMask_time (c : Clocks) (d : ClockDomain) :
    (cfg.setCycleMask c).2.time d =
      if (cfg.setCycleMask c).1.has d then (c.time d + cfg.period d) % 2 ^ 64
      else c.time d := by
  cases d <;> rfl

/-- Every call of `set_cycle_mask` gives some domain a cycle. -/
theorem exists_setCycleMask_has (c : Clocks) : ∃ d, (cfg.setCycleMask c).1.has d = true := by
  obtain ⟨d, -, hd⟩ := Finset.exists_min_image Finset.univ c.time ⟨.core, Finset.mem_univ _⟩
  refine ⟨d, (setCycleMask_has cfg c d).mpr ?_⟩
  intro e
  exact hd e (Finset.mem_univ e)

variable {cfg}

/-- A call whose clocks are in step and do not run over is a step of the general theory. -/
theorem TickedClocks.tickStep {s : TickedClocks} (hs : InStep cfg.period s.toTicked)
    (hbound : ∀ d, (s.step cfg).ticks d * cfg.period d < 2 ^ 64) :
    TickStep cfg.period s.toTicked (s.step cfg).toTicked := by
  have hticks (d : ClockDomain) : (s.step cfg).ticks d =
      s.ticks d + ((cfg.setCycleMask s.clocks).1.has d).toNat := rfl
  have htime (d : ClockDomain) : (s.step cfg).clocks.time d = _ :=
    setCycleMask_time cfg s.clocks d
  constructor
  · obtain ⟨d, hd⟩ := exists_setCycleMask_has cfg s.clocks
    exact ⟨d, by simp [toTicked, hticks, hd]⟩
  · intro d
    cases hd : (cfg.setCycleMask s.clocks).1.has d with
    | true =>
        have heq : s.clocks.time d = s.ticks d * cfg.period d := hs.time_eq d
        have hlt := hbound d
        rw [hticks, hd, Bool.toNat_true, Nat.succ_mul, ← heq] at hlt
        refine .inl ⟨(setCycleMask_has cfg s.clocks d).mp hd, ?_, ?_⟩
        · change (s.step cfg).clocks.time d = s.clocks.time d + cfg.period d
          rw [htime, if_pos hd, Nat.mod_eq_of_lt hlt]
        · simp [toTicked, hticks, hd]
    | false =>
        have hnot : ¬ ∀ e, s.clocks.time d ≤ s.clocks.time e := by
          rw [← setCycleMask_has cfg, hd]
          exact Bool.false_ne_true
        push Not at hnot
        refine .inr ⟨hnot, ?_, ?_⟩
        · simp [toTicked, htime, hd]
        · simp [toTicked, hticks, hd]

/-- The numbers of cycles only grow. -/
theorem clockRun_ticks_le (d : ClockDomain) {m n : ℕ} (h : m ≤ n) :
    (clockRun cfg m).ticks d ≤ (clockRun cfg n).ticks d := by
  induction h with
  | refl => exact le_rfl
  | step _ ih => exact ih.trans (Nat.le_add_right _ _)

/-- No time has run over in the first `n` calls. -/
def NotRunOver (cfg : SimulationConfig) (n : ℕ) : Prop :=
  ∀ d, (clockRun cfg n).ticks d * cfg.period d < 2 ^ 64

theorem NotRunOver.mono {m n : ℕ} (h : NotRunOver cfg n) (hm : m ≤ n) : NotRunOver cfg m :=
  fun d => (Nat.mul_le_mul_right _ (clockRun_ticks_le d hm)).trans_lt (h d)

/-- The domains are in step as long as no time has run over. -/
theorem clockRun_inStep {n : ℕ} (h : NotRunOver cfg n) :
    InStep cfg.period (clockRun cfg n).toTicked := by
  induction n with
  | zero => exact ⟨fun d => by cases d <;> simp [TickedClocks.toTicked, clockRun, Clocks.time],
      fun d e => by cases d <;> exact Nat.zero_le _⟩
  | succ n ih =>
      have hn := ih (h.mono (Nat.le_succ n))
      exact hn.step (TickedClocks.tickStep hn h)

/-- The calls from the `m`-th on are a row of steps of the general theory. -/
theorem clockRun_tickRun {m k : ℕ} (h : NotRunOver cfg (m + k)) :
    TickRun cfg.period (fun i => (clockRun cfg (m + i)).toTicked) k := by
  intro i hi
  have hnext : NotRunOver cfg (m + i + 1) := h.mono (by omega)
  exact TickedClocks.tickStep (clockRun_inStep (hnext.mono (Nat.le_succ _))) hnext

/-- **The clock domains stay in step**: every call gives some domain a cycle, and as long as no
time has run over 64 bits, a time is the number of cycles times the period, no time is more
than its period beyond any other, two domains drift apart by at most one period, and a domain
without a cycle waits for a bounded number of calls only. -/
theorem clock_domains_in_step (cfg : SimulationConfig) (hpos : ∀ d, 0 < cfg.period d) :
    (∀ c, ∃ d, (cfg.setCycleMask c).1.has d = true) ∧
    ∀ n, NotRunOver cfg n →
      (∀ d, (clockRun cfg n).clocks.time d = (clockRun cfg n).ticks d * cfg.period d) ∧
      (∀ d e, (clockRun cfg n).clocks.time d ≤ (clockRun cfg n).clocks.time e + cfg.period d) ∧
      (∀ d e, (clockRun cfg n).ticks d * cfg.period d ≤
        (clockRun cfg n).ticks e * cfg.period e + cfg.period d) ∧
      ∀ d m k, n = m + k → (clockRun cfg n).ticks d = (clockRun cfg m).ticks d →
        k ≤ ∑ e ∈ Finset.univ.erase d, (cfg.period d / cfg.period e + 1) := by
  refine ⟨exists_setCycleMask_has cfg, ?_⟩
  intro n hn
  have hin := clockRun_inStep hn
  refine ⟨hin.time_eq, hin.time_le, hin.drift, ?_⟩
  rintro d m k rfl hd
  have hstart := clockRun_inStep (hn.mono (Nat.le_add_right m k))
  exact (clockRun_tickRun hn).length_le hstart hpos hd

/-- Three domains of 1 MHz. -/
def megahertzConfig : SimulationConfig where
  numCores := 1
  dramChannels := 1
  dramReqSize := 32
  dramLatency := 1
  icntLatency := 1
  corePeriod := 1000000
  dramPeriod := 1000000
  icntPeriod := 1000000
  partitions_pos := Nat.one_pos
  partitions_dvd := by decide
  channels_lt := by decide
  reqSize_lt := by decide

theorem megahertzConfig_period (d : ClockDomain) : megahertzConfig.period d = 1000000 := by
  cases d <;> rfl

/-- All three have a cycle in every call. -/
theorem clockRun_megahertz (n : ℕ) (d : ClockDomain) :
    (clockRun megahertzConfig n).ticks d = n ∧
      (clockRun megahertzConfig n).clocks.time d = n * 1000000 % 2 ^ 64 := by
  induction n generalizing d with
  | zero => cases d <;> exact ⟨rfl, rfl⟩
  | succ n ih =>
      have hhas : (megahertzConfig.setCycleMask
          (clockRun megahertzConfig n).clocks).1.has d = true := by
        rw [setCycleMask_has]
        intro e
        rw [(ih d).2, (ih e).2]
      constructor
      · simp only [clockRun, TickedClocks.step, hhas, Bool.toNat_true, (ih d).1]
      · simp only [clockRun, TickedClocks.step]
        rw [setCycleMask_time, if_pos hhas, (ih d).2, megahertzConfig_period, Nat.mod_add_mod,
          Nat.succ_mul]

/-- The periods are positive, and the domains are in step after a million calls. -/
theorem clock_domains_in_step_megahertz :
    (clockRun megahertzConfig 1000000).clocks.time .core =
      (clockRun megahertzConfig 1000000).ticks .core * megahertzConfig.period .core := by
  have hbound : NotRunOver megahertzConfig 1000000 := by
    intro d
    rw [(clockRun_megahertz 1000000 d).1, megahertzConfig_period]
    decide
  have hpos : ∀ d, 0 < megahertzConfig.period d := by
    intro d
    rw [megahertzConfig_period]
    decide
  exact ((clock_domains_in_step megahertzConfig hpos).2 1000000 hbound).1 .core

/-- After 2⁶⁴ cycles a time is no longer the number of cycles times the period. -/
theorem clock_domains_run_over : (∀ d, 0 < megahertzConfig.period d) ∧
    ∃ n, (clockRun megahertzConfig n).clocks.time .core ≠
      (clockRun megahertzConfig n).ticks .core * megahertzConfig.period .core := by
  refine ⟨fun d => by rw [megahertzConfig_period]; decide, 2 ^ 64, ?_⟩
  obtain ⟨hticks, htime⟩ := clockRun_megahertz (2 ^ 64) .core
  rw [hticks, htime, megahertzConfig_period, Nat.mul_mod_right]
  decide

end PyTorchSim.Analysis
