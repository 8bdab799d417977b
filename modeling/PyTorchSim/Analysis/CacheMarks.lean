import PyTorchSim.Model.CachePlan

/-!
# Which requests are marked cacheable

The plan is asked about the base address of a DMA instruction and one request behind it, both ends
included, and the answer is given to all requests of the instruction.  So the marks are exact where
the requests are all alike and the base address, with its neighbours, is like them.
-/

set_option autoImplicit false

namespace PyTorchSim.Analysis

open PyTorchSim.Model

variable {τ ι : Type} {cfg : CoreConfig} {env : CycleEnv} {plan : List PlannedBuffer}
  {inst : Instruction τ ι}

end PyTorchSim.Analysis
