import PyTorchSim.Model.Simulator
import PyTorchSim.Library.Runs

/-!
# The steps a simulator is made of

A step of the simulator is a row of small moves: a core takes a tile or has a cycle, a request
goes from one queue to the next, a clock advances.  `SimStep` lists them with the state each
one leads to.  The moves into the L2 caches are a relation of their own, since they come at
the end of a cycle of the cores only.
-/

set_option autoImplicit false

namespace PyTorchSim.Analysis

open PyTorchSim.Model PyTorchSim.Library

variable {κ τ ι ε : Type} [DecidableEq τ]

/-- A small move of the simulator. -/
inductive SimStep (ops : CoreInterface κ τ ι ε) (cfg : SimulationConfig) :
    Simulator κ τ ι → Simulator κ τ ι → Prop
  | slot (s : Simulator κ τ ι) (n : ℕ) : SimStep ops cfg s { s with slotId := n }
  | launch (s : Simulator κ τ ι) (p : ℕ) (d : Dispatch τ ι) :
      (s.partition p).step (.launch s.coreCycles) = .ok d →
      SimStep ops cfg s { s with partition := Function.update s.partition p d }
  | peek (s : Simulator κ τ ι) (core slot tie : ℕ) :
      SimStep ops cfg s (s.setScheduler (cfg.partitionMap core)
        ((s.partition (cfg.partitionMap core)).sched.peekTile s.coreCycles core slot tie
          (cfg.coreType core)).2)
  | issue (s : Simulator κ τ ι) (core slot tie : ℕ) (t u : τ) (sched sched' : Scheduler τ ι) :
      (s.partition (cfg.partitionMap core)).sched.peekTile s.coreCycles core slot tie
        (cfg.coreType core) = (some t, sched) →
      ops.canIssue (s.cores core) t = true → (sched.heap.tile t).status = .initialized →
      sched.getTile s.coreCycles core slot tie = .ok (some u, sched') →
      SimStep ops cfg s ((s.setScheduler (cfg.partitionMap core) sched').setCore core
        (ops.issue (s.cores core) u))
  | popTile (s : Simulator κ τ ι) (core : ℕ) :
      (ops.popFinishedTile (s.cores core)).1 = none →
      SimStep ops cfg s (s.setCore core (ops.popFinishedTile (s.cores core)).2)
  | report (s : Simulator κ τ ι) (core : ℕ) (t : τ) (sched : Scheduler τ ι) :
      (ops.popFinishedTile (s.cores core)).1 = some t →
      (s.partition (cfg.partitionMap core)).sched.finishTile t = .ok sched →
      SimStep ops cfg s ((s.setCore core (ops.popFinishedTile (s.cores core)).2).setScheduler
        (cfg.partitionMap core) sched)
  | cycle (s : Simulator κ τ ι) (core : ℕ) (e : ε) (c : κ) :
      ops.cycle e (s.cores core) = .ok c → SimStep ops cfg s (s.setCore core c)
  | dramTick (s : Simulator κ τ ι) (ch : ℕ) : SimStep ops cfg s { s with dram := s.dram.tick ch }
  | dramAdmit (s : Simulator κ τ ι) (ch : ℕ) :
      SimStep ops cfg s { s with dram := s.dram.fromCache ch }
  | dramReply (s : Simulator κ τ ι) (ch : ℕ) :
      SimStep ops cfg s { s with dram := s.dram.toCache ch }
  | send (s : Simulator κ τ ι) (core noc dest : ℕ) (r : MemFetch ι) (rest : List (MemFetch ι))
      (icnt : SimpleInterconnect (Access ι)) : core < cfg.numCores →
      noc < cfg.icntInjectionPortsPerCore → cfg.dramChannelsPerPartitions ≠ 0 →
      ops.requestQueue (s.cores core) = r :: rest →
      cfg.getDestNode (Access.ofFetch core (s.sent core).length r) = .ok dest →
      s.icnt.push (core * cfg.icntInjectionPortsPerCore + noc) dest
        (Access.ofFetch core (s.sent core).length r) = .ok icnt →
      SimStep ops cfg s { s.setCore core (ops.popMemoryRequest (s.cores core)) with
        icnt := icnt
        sent := Function.update s.sent core (s.sent core ++ [r]) }
  | receive (s : Simulator κ τ ι) (core noc : ℕ) (a : Access ι) (rest : List (Access ι)) :
      core < cfg.numCores → noc < cfg.icntInjectionPortsPerCore →
      s.icnt.outBuffers (core * cfg.icntInjectionPortsPerCore + noc) = a :: rest →
      SimStep ops cfg s { s.setCore core (ops.pushMemoryResponse (s.cores core) a.fetch) with
        icnt := s.icnt.setOut (core * cfg.icntInjectionPortsPerCore + noc) rest
        returned := Function.update s.returned core (s.returned core ++ [a]) }
  | toMemory (s : Simulator κ τ ι) (mem : ℕ) (a : Access ι) (rest : List (Access ι)) :
      mem < cfg.dramChannels →
      s.icnt.outBuffers (cfg.numCores * cfg.icntInjectionPortsPerCore + mem) = a :: rest →
      SimStep ops cfg s { s with
        icnt := s.icnt.setOut (cfg.numCores * cfg.icntInjectionPortsPerCore + mem) rest
        dram := s.dram.push mem a }
  | fromMemory (s : Simulator κ τ ι) (mem dest : ℕ) (a : Access ι) (rest : List (Access ι))
      (icnt : SimpleInterconnect (Access ι)) : mem < cfg.dramChannels →
      s.dram.toCrossbarQueue mem = a :: rest → cfg.getDestNode a = .ok dest →
      s.icnt.push (cfg.numCores * cfg.icntInjectionPortsPerCore + mem) dest a = .ok icnt →
      SimStep ops cfg s { s with icnt := icnt, dram := s.dram.pop mem }
  | deliver (s : Simulator κ τ ι) (dest : ℕ) :
      SimStep ops cfg s { s with icnt := s.icnt.deliver dest }
  | icntClock (s : Simulator κ τ ι) (n : ℕ) :
      SimStep ops cfg s { s with icnt := { s.icnt with cycles := n } }

/-- A move of the caches at the end of a cycle of the cores. -/
inductive CacheStep : Simulator κ τ ι → Simulator κ τ ι → Prop
  | noL2 (s : Simulator κ τ ι) (ch : ℕ) : CacheStep s { s with dram := s.dram.noL2Cycle ch }
  | clock (s : Simulator κ τ ι) (n : ℕ) : CacheStep s { s with coreCycles := n }

end PyTorchSim.Analysis
