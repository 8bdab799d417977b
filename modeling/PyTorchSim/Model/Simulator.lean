import PyTorchSim.Model.Core
import PyTorchSim.Model.Scheduler
import PyTorchSim.Model.SimpleDram

/-!
# The simulator

The simulator owns the cores, the schedulers of the partitions, the interconnect and the DRAM,
and runs them in three clock domains.  A cycle of the cores hands out tiles, reports finished
ones, runs each core and then the L2 caches; a cycle of the interconnect moves requests and
replies between the cores, the network and the channels.

`CoreInterface` is the virtual interface of a core.  `sent` and `returned` record the requests
that left the queue of a core and those that it got back; nothing but the specification reads
them.
-/

set_option autoImplicit false

namespace PyTorchSim.Model

/-- What the simulator calls of a core: `κ` is its state and `ε` what a cycle depends on and the
core does not determine.  A request queue grows in a cycle only, and at its end.
SOURCE: Core.h:24-38 -/
structure CoreInterface (κ τ ι ε : Type) where
  running : κ → Bool
  canIssue : κ → τ → Bool
  issue : κ → τ → κ
  popFinishedTile : κ → Option τ × κ
  cycle : ε → κ → Except CoreFault κ
  requestQueue : κ → List (MemFetch ι)
  popMemoryRequest : κ → κ
  pushMemoryResponse : κ → MemFetch ι → κ
  issue_queue : ∀ c t, requestQueue (issue c t) = requestQueue c
  popFinishedTile_queue : ∀ c, requestQueue (popFinishedTile c).2 = requestQueue c
  cycle_queue : ∀ e c c', cycle e c = .ok c' → requestQueue c <+: requestQueue c'
  popMemoryRequest_queue : ∀ c, requestQueue (popMemoryRequest c) = (requestQueue c).tail
  pushMemoryResponse_queue : ∀ c r, requestQueue (pushMemoryResponse c r) = requestQueue c

/-- The channels are dealt out evenly to the partitions.
SOURCE: SimulationConfig.h:18-75, Common.cc:104-116, Simulator.cc:14-20 -/
structure SimulationConfig where
  numCores : ℕ
  coreType : ℕ → CoreType := fun _ => .wsMesh
  numSystolicArrayPerCore : ℕ := 1
  corePrintInterval : ℕ := 0
  dramNumPartitions : ℕ := 1
  dramChannels : ℕ
  dramReqSize : ℕ
  dramLatency : ℕ
  bytesPerDramCycle : ℚ := 0
  icntLatency : ℕ
  icntInjectionPortsPerCore : ℕ := 1
  numPartition : ℕ := 1
  partitionMap : ℕ → ℕ := fun _ => 0
  corePeriod : ℕ
  dramPeriod : ℕ
  icntPeriod : ℕ
  partitions_pos : 0 < dramNumPartitions
  partitions_dvd : dramNumPartitions ∣ dramChannels
  channels_lt : dramChannels < 2 ^ 32
  reqSize_lt : dramReqSize < 2 ^ 32

/-- The clock domains, each a bit of the cycle mask.
SOURCE: Simulator.h:18-23 -/
inductive ClockDomain
  | core
  | dram
  | icnt
  deriving DecidableEq, Repr

/-- Which clock domains have a cycle.
SOURCE: Simulator.h:18-23 -/
structure CycleMask where
  core : Bool
  dram : Bool
  icnt : Bool

/-- Whether a domain has a cycle. -/
def CycleMask.has (mask : CycleMask) : ClockDomain → Bool
  | .core => mask.core
  | .dram => mask.dram
  | .icnt => mask.icnt

/-- The times of the clock domains. -/
structure Clocks where
  coreTime : ℕ := 0
  dramTime : ℕ := 0
  icntTime : ℕ := 0

/-- The time of a domain. -/
def Clocks.time (c : Clocks) : ClockDomain → ℕ
  | .core => c.coreTime
  | .dram => c.dramTime
  | .icnt => c.icntTime

namespace SimulationConfig

variable {ι : Type} (cfg : SimulationConfig)

/-- SOURCE: Common.cc:111-116 -/
def dramChannelsPerPartitions : ℕ := cfg.dramChannels / cfg.dramNumPartitions

/-- The values that a core reads. -/
def coreConfig : CoreConfig where
  numSystolicArrayPerCore := cfg.numSystolicArrayPerCore
  icntInjectionPortsPerCore := i32 cfg.icntInjectionPortsPerCore
  dramReqSize := cfg.dramReqSize
  corePrintInterval := cfg.corePrintInterval

/-- The number of nodes of the interconnect.
SOURCE: Interconnect.cc:7 -/
def nNodes : ℕ := cfg.numCores * cfg.icntInjectionPortsPerCore + cfg.dramChannels

/-- The values that the address map reads. -/
def dramConfig (h : 0 < cfg.dramChannelsPerPartitions) : DramConfig where
  nPartitions := cfg.dramNumPartitions
  nChPerPartition := cfg.dramChannelsPerPartitions
  txLog2 := Nat.log2 cfg.dramReqSize
  partitions_pos := cfg.partitions_pos
  channels_pos := h
  channels_lt := by
    rw [dramChannelsPerPartitions, Nat.mul_div_cancel' cfg.partitions_dvd]
    exact cfg.channels_lt
  txLog2_lt := by
    by_cases hzero : cfg.dramReqSize = 0
    · rw [hzero]
      decide
    · exact (Nat.log2_lt hzero).mpr cfg.reqSize_lt

/-- Without a channel in a partition the channel is 0.
SOURCE: Dram.cc:171-196 -/
def getChannelId (r : MemFetch ι) : Except SimFault ℕ :=
  if h : 0 < cfg.dramChannelsPerPartitions then
    match (cfg.dramConfig h).getChannelId r.addr r.numaId with
    | some channel => .ok channel
    | none => .error .noHashTable
  else .ok 0

/-- SOURCE: Simulator.cc:240-256 -/
def getDestNode (a : Access ι) : Except SimFault ℕ := do
  let channel ← cfg.getChannelId a.fetch
  match a.mfType with
  | .readRequest | .writeRequest =>
    pure (cfg.numCores * cfg.icntInjectionPortsPerCore + channel)
  | .readReply | .writeAck =>
    if cfg.icntInjectionPortsPerCore = 0 then .error .divisionByZero
    else pure (a.coreId * cfg.icntInjectionPortsPerCore +
      channel % cfg.icntInjectionPortsPerCore)

/-- The period of a domain. -/
def period : ClockDomain → ℕ
  | .core => cfg.corePeriod
  | .dram => cfg.dramPeriod
  | .icnt => cfg.icntPeriod

/-- The domains whose time is least have a cycle.  The times are 64-bit numbers.
SOURCE: Simulator.cc:223-238 -/
def setCycleMask (c : Clocks) : CycleMask × Clocks :=
  let minimumTime := min (min c.coreTime c.dramTime) c.icntTime
  let mask : CycleMask :=
    ⟨c.coreTime ≤ minimumTime, c.dramTime ≤ minimumTime, c.icntTime ≤ minimumTime⟩
  (mask,
    { coreTime := if mask.core then (c.coreTime + cfg.corePeriod) % 2 ^ 64 else c.coreTime
      dramTime := if mask.dram then (c.dramTime + cfg.dramPeriod) % 2 ^ 64 else c.dramTime
      icntTime := if mask.icnt then (c.icntTime + cfg.icntPeriod) % 2 ^ 64 else c.icntTime })

end SimulationConfig

/-- What the components do not determine in a cycle of the cores: what the cycle of a core
depends on, and which of several tiles a ready queue shows to a core in a turn. -/
structure TickEnv (ε : Type) where
  core : ℕ → ε
  tie : ℕ → ℕ → ℕ

/-- A partition is a scheduler and the kernels that are still to be launched.
SOURCE: Simulator.h:63-97 -/
structure Simulator (κ τ ι : Type) where
  cores : ℕ → κ
  partition : ℕ → Dispatch τ ι
  icnt : SimpleInterconnect (Access ι)
  dram : SimpleDRAM ι
  slotId : ℕ := 0
  coreCycles : ℕ := 0
  clocks : Clocks := {}
  sent : ℕ → List (MemFetch ι) := fun _ => []
  returned : ℕ → List (Access ι) := fun _ => []

namespace Simulator

variable {κ τ ι ε : Type} [DecidableEq τ]

/-- Replaces a core. -/
def setCore (s : Simulator κ τ ι) (core : ℕ) (c : κ) : Simulator κ τ ι :=
  { s with cores := Function.update s.cores core c }

/-- Replaces the scheduler of a partition. -/
def setScheduler (s : Simulator κ τ ι) (p : ℕ) (sched : Scheduler τ ι) : Simulator κ τ ι :=
  { s with partition := Function.update s.partition p { s.partition p with sched := sched } }

/-- A simulator whose kernels are not launched yet.
SOURCE: Simulator.cc:8-90 -/
def init (cfg : SimulationConfig) (cores : ℕ → κ) (P : ℕ → TilePlan τ ι) : Simulator κ τ ι where
  cores := cores
  partition := fun p => Dispatch.init (P p)
  icnt := { latency := cfg.icntLatency, nNodes := cfg.nNodes }
  dram :=
    { nCh := cfg.dramChannels, latency := cfg.dramLatency, reqSize := cfg.dramReqSize
      bytesPerDramCycle := cfg.bytesPerDramCycle }

/-- The partition of a core, which has to have a scheduler.
SOURCE: Simulator.h:49-50 -/
def schedulerOf (cfg : SimulationConfig) (core : ℕ) : Except SimFault ℕ :=
  if cfg.partitionMap core < cfg.numPartition then .ok (cfg.partitionMap core)
  else .error .noPartition

section

variable (ops : CoreInterface κ τ ι ε) (cfg : SimulationConfig)

/-- One core is asked whether it takes a tile; `true` when it does.
SOURCE: Simulator.cc:101-110 -/
def offerTile (slot tie core : ℕ) (s : Simulator κ τ ι) :
    Except SimFault (Simulator κ τ ι × Bool) := do
  let p ← schedulerOf cfg core
  let (tile, sched) :=
    (s.partition p).sched.peekTile s.coreCycles core slot tie (cfg.coreType core)
  let s := s.setScheduler p sched
  match tile with
  | none => pure (s, false)
  | some t =>
    if ops.canIssue (s.cores core) t then
      if (sched.heap.tile t).status = .initialized then do
        let (tile, sched) ← (sched.getTile s.coreCycles core slot tie).mapError .dispatch
        match tile with
        | none => .error .emptyTile
        | some u =>
          pure ((s.setScheduler p sched).setCore core (ops.issue (s.cores core) u), true)
      else .error .invalidStatus
    else pure (s, false)

/-- The cores are asked in turn until one takes a tile.
SOURCE: Simulator.cc:100-111 -/
def offerTiles (slot : ℕ) (tie : ℕ → ℕ) :
    List ℕ → Simulator κ τ ι → Except SimFault (Simulator κ τ ι)
  | [], s => .ok s
  | core :: rest, s => do
    let (s, taken) ← offerTile ops cfg slot (tie core) core s
    if taken then pure s else offerTiles slot tie rest s

/-- The slots have a turn each.
SOURCE: Simulator.cc:98-112 -/
def issueTiles (env : TickEnv ε) (s : Simulator κ τ ι) : Except SimFault (Simulator κ τ ι) :=
  (List.range 2).foldlM (fun s i => do
    let s ← offerTiles ops cfg s.slotId (env.tie i) (List.range cfg.numCores) s
    pure { s with slotId := (s.slotId + 1) % 2 }) s

/-- A finished tile is taken from a core and reported to the scheduler of its partition.
SOURCE: Simulator.cc:114-117 -/
def reportTile (core : ℕ) (s : Simulator κ τ ι) : Except SimFault (Simulator κ τ ι) :=
  let (tile, c) := ops.popFinishedTile (s.cores core)
  let s := s.setCore core c
  match tile with
  | none => .ok s
  | some t => do
    let p ← schedulerOf cfg core
    let sched ← ((s.partition p).sched.finishTile t).mapError .dispatch
    pure (s.setScheduler p sched)

/-- SOURCE: Simulator.cc:113-119 -/
def cycleCore (env : TickEnv ε) (s : Simulator κ τ ι) (core : ℕ) :
    Except SimFault (Simulator κ τ ι) := do
  let s ← reportTile ops cfg core s
  let c ← (ops.cycle (env.core core) (s.cores core)).mapError .core
  pure (s.setCore core c)

/-- SOURCE: Simulator.cc:97-123 -/
def coreCycle (env : TickEnv ε) (s : Simulator κ τ ι) : Except SimFault (Simulator κ τ ι) := do
  let s ← issueTiles ops cfg env s
  let s ← (List.range cfg.numCores).foldlM (cycleCore ops cfg env) s
  pure { s with dram := s.dram.cacheCycle, coreCycles := s.coreCycles + 1 }

omit [DecidableEq τ] in
/-- SOURCE: Simulator.cc:125-127 -/
def dramCycle (s : Simulator κ τ ι) : Simulator κ τ ι := { s with dram := s.dram.cycle }

omit [DecidableEq τ] in
/-- A request leaves its core.  The statistics divide its channel by the number of channels of
a partition.
SOURCE: Simulator.cc:136-149 -/
def sendRequest (core port : ℕ) (s : Simulator κ τ ι) : Except SimFault (Simulator κ τ ι) :=
  match ops.requestQueue (s.cores core) with
  | [] => .ok s
  | front :: _ =>
    let access := Access.ofFetch core (s.sent core).length front
    if s.icnt.isFull port then .ok s
    else do
      let _ ← cfg.getChannelId front
      if cfg.dramChannelsPerPartitions = 0 then .error .divisionByZero
      else do
        let dest ← cfg.getDestNode access
        let icnt ← s.icnt.push port dest access
        pure { s.setCore core (ops.popMemoryRequest (s.cores core)) with
          icnt := icnt
          sent := Function.update s.sent core (s.sent core ++ [front]) }

omit [DecidableEq τ] in
/-- A reply reaches its core.
SOURCE: Simulator.cc:150-155 -/
def receiveResponse (core port : ℕ) (s : Simulator κ τ ι) :
    Except SimFault (Simulator κ τ ι) := do
  if ← s.icnt.isEmpty port then pure s
  else do
    let access ← s.icnt.top port
    let icnt ← s.icnt.pop port
    pure { s.setCore core (ops.pushMemoryResponse (s.cores core) access.fetch) with
      icnt := icnt
      returned := Function.update s.returned core (s.returned core ++ [access]) }

omit [DecidableEq τ] in
/-- A port of a core.
SOURCE: Simulator.cc:133-156 -/
def cyclePort (s : Simulator κ τ ι) (k : ℕ × ℕ) : Except SimFault (Simulator κ τ ι) := do
  let port := k.1 * cfg.icntInjectionPortsPerCore + k.2
  let s ← sendRequest ops cfg k.1 port s
  receiveResponse ops k.1 port s

/-- The ports of the cores in the order of the two loops.
SOURCE: Simulator.cc:132-133 -/
def ports : List (ℕ × ℕ) :=
  (List.range cfg.numCores).flatMap fun core =>
    (List.range cfg.icntInjectionPortsPerCore).map fun noc => (core, noc)

omit [DecidableEq τ] in
/-- A request reaches its channel.
SOURCE: Simulator.cc:160-167 -/
def toMemory (mem : ℕ) (s : Simulator κ τ ι) : Except SimFault (Simulator κ τ ι) := do
  let node := cfg.numCores * cfg.icntInjectionPortsPerCore + mem
  if ← s.icnt.isEmpty node then pure s
  else if s.dram.isFull mem then pure s
  else do
    let access ← s.icnt.top node
    let icnt ← s.icnt.pop node
    pure { s with icnt := icnt, dram := s.dram.push mem access }

omit [DecidableEq τ] in
/-- A reply leaves its channel.
SOURCE: Simulator.cc:168-175 -/
def fromMemory (mem : ℕ) (s : Simulator κ τ ι) : Except SimFault (Simulator κ τ ι) :=
  let node := cfg.numCores * cfg.icntInjectionPortsPerCore + mem
  if s.dram.isEmpty mem then .ok s
  else if s.icnt.isFull node then .ok s
  else do
    let access ← s.dram.top mem
    let dest ← cfg.getDestNode access
    let icnt ← s.icnt.push node dest access
    pure { s with icnt := icnt, dram := s.dram.pop mem }

omit [DecidableEq τ] in
/-- A channel.
SOURCE: Simulator.cc:158-176 -/
def cycleMemory (s : Simulator κ τ ι) (mem : ℕ) : Except SimFault (Simulator κ τ ι) := do
  let s ← toMemory cfg mem s
  fromMemory cfg mem s

omit [DecidableEq τ] in
/-- SOURCE: Simulator.cc:129-188 -/
def icntCycle (s : Simulator κ τ ι) : Except SimFault (Simulator κ τ ι) := do
  let s ← (ports cfg).foldlM (cyclePort ops cfg) s
  let s ← (List.range cfg.dramChannels).foldlM (cycleMemory cfg) s
  pure { s with icnt := s.icnt.cycle }

/-- The body of the loop of `cycle`, with the mask given.
SOURCE: Simulator.cc:192-203 -/
def tick (mask : CycleMask) (env : TickEnv ε) (s : Simulator κ τ ι) :
    Except SimFault (Simulator κ τ ι) := do
  let s ← if mask.core then coreCycle ops cfg env s else pure s
  let s := if mask.dram then dramCycle s else s
  if mask.icnt then icntCycle ops cfg s else pure s

/-- SOURCE: Simulator.cc:210-221 -/
def running (s : Simulator κ τ ι) : Bool :=
  (List.range cfg.numCores).any (fun core => ops.running (s.cores core)) ||
    (List.range cfg.numCores).any (fun core =>
      !(s.partition (cfg.partitionMap core)).sched.emptyFor core) ||
    s.icnt.running || s.dram.running

/-- The loop of `cycle` goes on.
SOURCE: Simulator.cc:191 -/
def loops (s : Simulator κ τ ι) : Bool := running ops cfg s || s.coreCycles < 1

/-- One turn of the loop of `cycle`.
SOURCE: Simulator.cc:190-204 -/
def cycle (env : TickEnv ε) (s : Simulator κ τ ι) : Except SimFault (Simulator κ τ ι) :=
  let (mask, clocks) := cfg.setCycleMask s.clocks
  tick ops cfg mask env { s with clocks := clocks }

end

end Simulator

/-- What happens to a simulator: a partition is given its next kernel, or the clock domains of
a mask have a cycle. -/
inductive SimAction (ε : Type)
  | enqueueGraph (p : ℕ)
  | tick (mask : CycleMask) (env : TickEnv ε)

/-- The masks are arbitrary: whatever the periods, `Simulator::cycle` makes some of these steps.
SOURCE: Simulator.h:29-39, Simulator.cc:190-204 -/
def Simulator.step {κ τ ι ε : Type} [DecidableEq τ] (ops : CoreInterface κ τ ι ε)
    (cfg : SimulationConfig) (s : Simulator κ τ ι) :
    SimAction ε → Except SimFault (Simulator κ τ ι)
  | .enqueueGraph p => do
    if p < cfg.numPartition then
      let d ← ((s.partition p).step (.launch s.coreCycles)).mapError .dispatch
      pure { s with partition := Function.update s.partition p d }
    else .error .noPartition
  | .tick mask env => s.tick ops cfg mask env

/-- What the commands of a trace do to a simulator: a kernel is launched on a partition, or the
loop of `cycle` has a turn. -/
inductive TraceAction (ε : Type)
  | launchKernel (p : ℕ)
  | turn (env : TickEnv ε)

/-- SOURCE: main.cc:18-27, main.cc:73-85 -/
def Simulator.command {κ τ ι ε : Type} [DecidableEq τ] (ops : CoreInterface κ τ ι ε)
    (cfg : SimulationConfig) (s : Simulator κ τ ι) :
    TraceAction ε → Except SimFault (Simulator κ τ ι)
  | .launchKernel p => s.step ops cfg (.enqueueGraph p)
  | .turn env => s.cycle ops cfg env

end PyTorchSim.Model
