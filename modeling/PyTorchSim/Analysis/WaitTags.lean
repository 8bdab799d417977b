import PyTorchSim.Analysis.MemoryNodes

/-!
# The tags of loads and waits

A wait finds its load by the tag key.  The load takes the accumulation loops from the front of its
index list, without as many entries at the end as the list has inner loops, and the wait takes those
of its own list.  The wait tells its accumulation loops by the stride -1, and drops every such
stride.
-/

set_option autoImplicit false

namespace PyTorchSim.Analysis

open PyTorchSim.Model PyTorchSim.Library

variable {T : ParserTables} {iter iter' : LoopIter} {load : TileMemoryNode}
  {wait : TileMemoryWaitNode}

section Names

variable {st st' : ParserState} {name : String}

end Names

/-! ## Tag lists -/

end PyTorchSim.Analysis
