import Mathlib.Data.Rat.Floor
import PyTorchSim.Model.DMA

/-!
# The latency of an access that another simulator answers

A DMA access can be given to an external simulator of the DRAM.  The link turns the cycles that
passed until its answer into nanoseconds, and the DMA engine turns these back into cycles.

The frequencies and periods are floating-point numbers in the source and rational numbers here.
-/

set_option autoImplicit false

namespace PyTorchSim.Model

/-- SOURCE: DramLegoSimLink.cc:64-70 -/
structure SsdLatencyRequest where
  addr : ℕ
  nbytes : ℕ
  instId : ℕ
  addrName : String
  terminate : Bool := false

/-- What the external simulator answers, and the cycle of the core at which it does.
SOURCE: DramLegoSimLink.cc:40-60 -/
structure RoundTrip where
  latencyNs : ℕ
  resolvedCycle : ℕ

/-- `roundTrip` is the exchange with the other process.
SOURCE: DramLegoSimLink.cc:24-60 -/
structure DramLegoSimLink where
  coreFreqMhz : ℚ := 0
  roundTrip : SsdLatencyRequest → ℕ → RoundTrip

/-- The cycles that an access is taken to have passed: 1 if the answer is not later.
SOURCE: DramLegoSimLink.cc:83-84 -/
def RoundTrip.elapsedCycles (result : RoundTrip) (coreCycle : ℕ) : ℕ :=
  if result.resolvedCycle > coreCycle then result.resolvedCycle - coreCycle else 1

/-- SOURCE: DramLegoSimLink.cc:62-86 -/
def DramLegoSimLink.queryLatencyNs (link : DramLegoSimLink) (req : SsdLatencyRequest)
    (coreCycle : ℕ) : ℕ :=
  let result := link.roundTrip req coreCycle
  if link.coreFreqMhz ≤ 0 then result.latencyNs
  else ⌈(result.elapsedCycles coreCycle : ℚ) * (1000 / link.coreFreqMhz)⌉₊

/-- The cycles that the DMA engine waits for a latency.
SOURCE: DMA.cc:103-110 -/
def DMA.latencyCycles (coreFreqMhz latencyNs : ℕ) : ℕ :=
  let periodNs : ℚ := if 0 < coreFreqMhz then 1000 / coreFreqMhz else 0
  let latencyCycles := if 0 < periodNs then ⌈(latencyNs : ℚ) / periodNs⌉₊ else 0
  if latencyCycles = 0 then 1 else latencyCycles

end PyTorchSim.Model
