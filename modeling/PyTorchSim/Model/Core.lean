import PyTorchSim.Model.DMA
import PyTorchSim.Model.TileGraph

/-!
# A core

A core issues the ready instructions of its tiles to a vector unit, to systolic arrays and
to its DMA engine, one instruction a cycle at most, and finishes them: a compute
instruction when it leaves its pipeline, a store when its requests are sent, a synchronous
load when its data has arrived, an asynchronous load when its requests are sent, a wait
when the tag it waits for is ready.

The tile and instruction objects are shared in the source.  A tile is given to one core and
an instruction only touches its own tile, so each core works on its own `CoreHeap`.
`events` records what the core did.  Nothing but the specification reads it.
-/

set_option autoImplicit false

namespace PyTorchSim.Model

/-- The values of the configuration that a core reads.
SOURCE: SimulationConfig.h:18-75 -/
structure CoreConfig where
  numSystolicArrayPerCore : ℕ := 1
  icntInjectionPortsPerCore : ℤ := 1
  dramReqSize : ℕ := 32
  corePrintInterval : ℕ := 0

/-- What a cycle depends on and the core does not determine.  `latency` is the number of
cycles the SSD or DRAM latency oracle answers for the current instruction, if it is used;
`indirectIndex` is the content of an index file; `cacheable` is the answer of the cache
plan; `staleNext` says that an iterator to an erased element of a list goes on to the
element that followed. -/
structure CycleEnv where
  latency : Option ℕ := none
  indirectIndex : Option (List ℕ) := none
  cacheable : Bool := false
  staleNext : Bool := true

/-- SOURCE: Core.h:68-90 -/
structure CoreStats where
  totVuComputeCycle : ℕ := 0
  totSaComputeCycle : ℕ → ℕ := fun _ => 0
  totDmaCycle : ℕ := 0
  totDmaIdleCycle : ℕ := 0
  totVuComputeIdleCycle : ℕ := 0
  totSaComputeIdleCycle : ℕ → ℕ := fun _ => 0
  instCount : Opcode → ℕ := fun _ => 0
  totSkippedInst : Opcode → ℕ := fun _ => 0
  totMemResponse : ℕ := 0
  gemmInst : ℕ := 0
  vuComputeCycle : ℕ := 0
  saComputeCycle : ℕ → ℕ := fun _ => 0
  dmaCycle : ℕ := 0
  dmaIdleCycle : ℕ := 0
  vuComputeIdleCycle : ℕ := 0
  saComputeIdleCycle : ℕ → ℕ := fun _ => 0
  memResponse : ℕ := 0

/-- Adds to a counter of one of several units. -/
def addAt {κ : Type} [DecidableEq κ] (f : κ → ℕ) (n : κ) (k : ℕ) : κ → ℕ :=
  Function.update f n (f n + k)

namespace CoreStats

/-- A cycle in which the vector unit has an instruction.
SOURCE: Core.cc:67 -/
def vuBusy (s : CoreStats) : CoreStats := { s with vuComputeCycle := s.vuComputeCycle + 1 }

/-- A cycle in which the vector unit has none.
SOURCE: Core.cc:78 -/
def vuIdle (s : CoreStats) : CoreStats := { s with vuComputeIdleCycle := s.vuComputeIdleCycle + 1 }

/-- Cycles of an instruction in which the vector unit did nothing.
SOURCE: Core.cc:69-71 -/
def vuBubble (bubble : ℕ) (s : CoreStats) : CoreStats :=
  { s with
    vuComputeIdleCycle := s.vuComputeIdleCycle + bubble
    vuComputeCycle := s.vuComputeCycle - bubble }

/-- SOURCE: Core.cc:97 -/
def saBusy (n : ℕ) (s : CoreStats) : CoreStats :=
  { s with saComputeCycle := addAt s.saComputeCycle n 1 }

/-- SOURCE: Core.cc:101 -/
def saIdle (n : ℕ) (s : CoreStats) : CoreStats :=
  { s with saComputeIdleCycle := addAt s.saComputeIdleCycle n 1 }

/-- SOURCE: Core.cc:90-93 -/
def saBubble (n bubble : ℕ) (s : CoreStats) : CoreStats :=
  { s with
    saComputeIdleCycle := addAt s.saComputeIdleCycle n bubble
    saComputeCycle := Function.update s.saComputeCycle n (s.saComputeCycle n - bubble) }

/-- SOURCE: Core.cc:198 -/
def dmaIdle (s : CoreStats) : CoreStats := { s with dmaIdleCycle := s.dmaIdleCycle + 1 }

/-- SOURCE: Core.cc:210 -/
def dmaBusy (s : CoreStats) : CoreStats := { s with dmaCycle := s.dmaCycle + 1 }

/-- SOURCE: Core.cc:242, Core.cc:258, Core.cc:300 -/
def skipped (op : Opcode) (s : CoreStats) : CoreStats :=
  { s with totSkippedInst := addAt s.totSkippedInst op 1 }

/-- SOURCE: Core.cc:313 -/
def gemm (s : CoreStats) : CoreStats := { s with gemmInst := s.gemmInst + 1 }

/-- SOURCE: Core.cc:351 -/
def issued (op : Opcode) (s : CoreStats) : CoreStats :=
  { s with instCount := addAt s.instCount op 1 }

end CoreStats

/-- What a core did: it took a tile, took an instruction from a ready queue, registered a tag
in place of the word and the waiters that were there, called
`Instruction::finish_instruction`, saw the last response of an instruction, or reported a
tile with status `FINISH`. -/
inductive CoreEvent (τ ι : Type)
  | tileIssued (t : τ)
  | instIssued (i : ι)
  | tagRegistered (i : ι) (replaced : Option (ℕ × List ι))
  | instFinished (i : ι)
  | dataReturned (i : ι)
  | tileFinished (t : τ)
  deriving DecidableEq

/-- The tile and instruction objects of a core. -/
structure CoreHeap (τ ι : Type) where
  tile : τ → Tile τ ι
  inst : ι → Instruction τ ι

namespace CoreHeap

variable {τ ι : Type} [DecidableEq τ] [DecidableEq ι]

/-- Replaces a tile. -/
def setTile (h : CoreHeap τ ι) (t : τ) (v : Tile τ ι) : CoreHeap τ ι :=
  { h with tile := Function.update h.tile t v }

/-- Replaces an instruction. -/
def setInst (h : CoreHeap τ ι) (i : ι) (v : Instruction τ ι) : CoreHeap τ ι :=
  { h with inst := Function.update h.inst i v }

/-- SOURCE: Tile.h:37 -/
def enqueueReady (h : CoreHeap τ ι) (t : τ) (i : ι) : CoreHeap τ ι :=
  h.setTile t { h.tile t with readyQueue := (h.tile t).readyQueue ++ [i] }

/-- Takes the front from the ready queue of a tile. -/
def popReady (h : CoreHeap τ ι) (t : τ) : CoreHeap τ ι :=
  h.setTile t { h.tile t with readyQueue := (h.tile t).readyQueue.tail }

/-- SOURCE: Instruction.h:43-49 -/
def decReadyCounter (h : CoreHeap τ ι) (i : ι) : CoreHeap τ ι :=
  let n := (h.inst i).decremented
  let h := h.setInst i { h.inst i with readyCounter := n }
  if n = 0 then h.enqueueReady (h.inst i).owner i else h

/-- `inst->finish_instruction()`
SOURCE: Instruction.cc:52-56 -/
def finishInstruction (h : CoreHeap τ ι) (i : ι) : CoreHeap τ ι :=
  let h := (h.inst i).childInst.foldl decReadyCounter h
  h.setInst i { h.inst i with finished := true }

/-- `inst->finish_instruction()` and `inst->get_owner()->inc_finished_inst()`
SOURCE: Core.cc:396-397, Core.cc:298-299 -/
def finish (h : CoreHeap τ ι) (i : ι) : CoreHeap τ ι :=
  let h := h.finishInstruction i
  h.setTile (h.inst i).owner (h.tile (h.inst i).owner).incFinishedInst

end CoreHeap

/-- SOURCE: Core.h:51-105 -/
structure Core (τ ι : Type) where
  heap : CoreHeap τ ι
  coreCycle : ℕ := 0
  systolicArrayRr : ℕ := 0
  dma : DMA ι := {}
  tiles : List τ := []
  finishedTiles : List τ := []
  vuComputePipeline : List ι := []
  saComputePipeline : ℕ → List ι := fun _ => []
  ldInstQueue : List ι := []
  stInstQueue : List ι := []
  dmaWaitingQueue : List ι := []
  dmaFinishedQueue : List ι := []
  requestQueue : List (MemFetch ι) := []
  stats : CoreStats := {}
  events : List (CoreEvent τ ι) := []

/-- SOURCE: Core.h:16-20 -/
inductive InstFinishTraceTag
  | fnshed
  | dmaIssueComplete
  | dmaRespComplete
  deriving DecidableEq

namespace Core

variable {τ ι : Type} [DecidableEq τ] [DecidableEq ι]

/-- A compute pipeline: of the vector unit, or of a systolic array. -/
inductive Pipeline
  | vu
  | sa (n : ℕ)
  deriving DecidableEq

/-- The content of a pipeline. -/
def pipeline (c : Core τ ι) : Pipeline → List ι
  | .vu => c.vuComputePipeline
  | .sa n => c.saComputePipeline n

/-- Replaces the content of a pipeline. -/
def setPipeline (c : Core τ ι) : Pipeline → List ι → Core τ ι
  | .vu, l => { c with vuComputePipeline := l }
  | .sa n, l => { c with saComputePipeline := Function.update c.saComputePipeline n l }

/-- Appends to a pipeline. -/
def pushPipeline (c : Core τ ι) (p : Pipeline) (i : ι) : Core τ ι :=
  c.setPipeline p (c.pipeline p ++ [i])

/-- Takes the front from a pipeline. -/
def popPipeline (c : Core τ ι) (p : Pipeline) : Core τ ι := c.setPipeline p (c.pipeline p).tail

/-- Updates the counters. -/
def addStats (c : Core τ ι) (f : CoreStats → CoreStats) : Core τ ι := { c with stats := f c.stats }

/-- Appends to the record of what happened. -/
def log (c : Core τ ι) (e : CoreEvent τ ι) : Core τ ι := { c with events := c.events ++ [e] }

/-- The tiles given to the core so far. -/
def issuedTiles (c : Core τ ι) : List τ :=
  c.events.filterMap fun | .tileIssued t => some t | _ => none

/-- The tiles reported so far. -/
def reportedTiles (c : Core τ ι) : List τ :=
  c.events.filterMap fun | .tileFinished t => some t | _ => none

/-- The calls of `Instruction::finish_instruction` so far. -/
def finishCalls (c : Core τ ι) : List ι :=
  c.events.filterMap fun | .instFinished i => some i | _ => none

/-- SOURCE: Core.cc:23-26 -/
def canIssue (c : Core τ ι) (t : τ) : Bool :=
  c.tiles.length < 4 && !(c.heap.tile t).stonneTile

/-- SOURCE: Core.cc:28-38 -/
def issue (c : Core τ ι) (t : τ) : Core τ ι :=
  let heap := (c.heap.tile t).instructions.foldl
    (fun h i => if (h.inst i).isReady then h.enqueueReady t i else h) c.heap
  { c with heap := heap, tiles := c.tiles ++ [t] }.log (.tileIssued t)

/-- `none` is a tile with status `EMPTY`.
SOURCE: Core.cc:40-47 -/
def popFinishedTile (c : Core τ ι) : Option τ × Core τ ι :=
  match c.finishedTiles with
  | [] => (none, c)
  | t :: rest => (some t, { c with finishedTiles := rest })

/-- SOURCE: Core.cc:378-406 -/
def finishInstruction (c : Core τ ι) (i : ι) (tag : InstFinishTraceTag := .fnshed) :
    Except CoreFault (Core τ ι) :=
  if tag = .dmaRespComplete then
    if !(c.heap.inst i).finished then .error .notFinished else .ok (c.log (.dataReturned i))
  else if (c.heap.inst i).finished then .error .alreadyFinished
  else .ok ({ c with heap := c.heap.finish i }.log (.instFinished i))

/-- The loop of `vu_cycle`.  Finishing an instruction does not change the pipeline, so the
loop walks over the pipeline as it is at the start.
SOURCE: Core.cc:63-82 -/
def vuLoop : List ι → Core τ ι → Except CoreFault (Core τ ι)
  | [], c => .ok (c.addStats .vuIdle)
  | i :: rest, c =>
    let c := c.addStats .vuBusy
    if (c.heap.inst i).finishCycle ≤ c.coreCycle then do
      let c := c.addStats (.vuBubble (c.heap.inst i).bubbleCycle)
      let c ← c.finishInstruction i
      vuLoop rest (c.popPipeline .vu)
    else .ok c

/-- SOURCE: Core.cc:63-82 -/
def vuCycle (c : Core τ ι) : Except CoreFault (Core τ ι) := vuLoop c.vuComputePipeline c

/-- The loop of `sa_cycle` for one systolic array.
SOURCE: Core.cc:84-106 -/
def saLoop (n : ℕ) : List ι → Core τ ι → Except CoreFault (Core τ ι)
  | [], c => .ok (c.addStats (.saIdle n))
  | i :: rest, c =>
    if (c.heap.inst i).finishCycle ≤ c.coreCycle then do
      let c := c.addStats (.saBubble n (c.heap.inst i).bubbleCycle)
      let c ← c.finishInstruction i
      saLoop n rest (c.popPipeline (.sa n))
    else .ok (c.addStats (.saBusy n))

/-- SOURCE: Core.cc:84-106 -/
def saCycle (cfg : CoreConfig) (c : Core τ ι) : Except CoreFault (Core τ ι) :=
  (List.range cfg.numSystolicArrayPerCore).foldlM
    (fun c n => saLoop n (c.saComputePipeline n) c) c

/-- SOURCE: Core.cc:108-111 -/
def computeCycle (cfg : CoreConfig) (c : Core τ ι) : Except CoreFault (Core τ ι) := do
  saCycle cfg (← c.vuCycle)

/-- What happens to an instruction that the latency oracle has completed.
SOURCE: Core.cc:115-130 -/
def finishSsd (c : Core τ ι) (i : ι) : Except CoreFault (Core τ ι) :=
  if (c.heap.inst i).isDmaWrite then c.finishInstruction i
  else if (c.heap.inst i).isDmaRead && (c.heap.inst i).isAsyncDma then do
    let c ← c.finishInstruction i .dmaIssueComplete
    pure { c with dmaFinishedQueue := c.dmaFinishedQueue ++ [i] }
  else .ok { c with dmaFinishedQueue := c.dmaFinishedQueue ++ [i] }

/-- `update_ssd` and the instruction that `take_ssd_finished` then yields.
SOURCE: DMA.cc:32-48, Core.cc:114-130 -/
def ssdCycle (c : Core τ ι) : Except CoreFault (Core τ ι) :=
  if c.dma.ssdPending && c.coreCycle ≥ c.dma.ssdFinishCycle then
    match c.dma.currentInst with
    | none => .ok { c with dma := c.dma.endSsd }
    | some i => finishSsd { c with dma := c.dma.endSsd } i
  else .ok c

/-- The waiters of a tag are finished one after the other.
SOURCE: Core.cc:154-157 -/
def wakeWaiters (g : ℕ) (key : List ℤ) : List ι → Core τ ι → Except CoreFault (Core τ ι)
  | [], c => .ok c
  | w :: ws, c => do
    let dma ← c.dma.markTagUsed g key
    let c ← { c with dma := dma }.finishInstruction w
    wakeWaiters g key ws c

/-- A synchronous load whose data has arrived is finished.
SOURCE: Core.cc:136-138 -/
def finishSyncRead (c : Core τ ι) (i : ι) : Except CoreFault (Core τ ι) :=
  if (c.heap.inst i).isDmaRead && !(c.heap.inst i).isAsyncDma then c.finishInstruction i
  else .ok c

/-- The tag of an asynchronous load whose data has arrived becomes ready.
SOURCE: Core.cc:140-158 -/
def finishAsyncRead (c : Core τ ι) (i : ι) : Except CoreFault (Core τ ι) :=
  if (c.heap.inst i).isDmaRead && (c.heap.inst i).isAsyncDma then do
    let g := (c.heap.inst i).subgraphId
    let key := (c.heap.inst i).tagKey
    let dma ← c.dma.setTagFinish g key
    let c ← { c with dma := dma }.finishInstruction i .dmaRespComplete
    let ws ← c.dma.getTagWaiter g key
    wakeWaiters g key ws c
  else .ok c

/-- The loop over the finished DMA operations.  Nothing in it adds to the queue, so it walks
over the queue as it is at the start.
SOURCE: Core.cc:131-160 -/
def drainLoop : List ι → Core τ ι → Except CoreFault (Core τ ι)
  | [], c => .ok c
  | i :: rest, c => do
    let c ← c.finishSyncRead i
    let c ← c.finishAsyncRead i
    drainLoop rest { c with dmaFinishedQueue := c.dmaFinishedQueue.tail }

/-- What happens to an instruction whose requests are all sent.
SOURCE: Core.cc:166-182 -/
def finishSent (c : Core τ ι) (i : ι) : Except CoreFault (Core τ ι) :=
  if (c.heap.inst i).isDmaWrite then c.finishInstruction i
  else if (c.heap.inst i).isDmaRead && (c.heap.inst i).isAsyncDma then
    c.finishInstruction i .dmaIssueComplete
  else if !(c.heap.inst i).isDmaRead then .error .invalidDmaInstruction
  else .ok c

/-- The current instruction of a DMA engine that has sent all requests leaves it.
SOURCE: Core.cc:163-185 -/
def retireCurrent (c : Core τ ι) : Except CoreFault (Core τ ι) :=
  match c.dma.currentInst with
  | none => .ok c
  | some i => do
    let c ← finishSent { c with dma := { c.dma with currentInst := none } } i
    pure { c with dmaWaitingQueue := c.dmaWaitingQueue.insert i }

/-- The next load, or else the next store, enters the DMA engine; `false` when there is
neither.
SOURCE: Core.cc:187-200 -/
def issueDma (c : Core τ ι) : Except CoreFault (Core τ ι × Bool) :=
  match c.ldInstQueue, c.stInstQueue with
  | i :: rest, _ => do
    let dma ← c.dma.issueTile i (c.heap.inst i).tileSize
    pure ({ c with dma := dma, ldInstQueue := rest }, true)
  | [], i :: rest => do
    let dma ← c.dma.issueTile i (c.heap.inst i).tileSize
    pure ({ c with dma := dma, stInstQueue := rest }, true)
  | [], [] =>
    .ok (c.addStats .dmaIdle, false)

/-- The memory requests of an instruction, one for each address.
SOURCE: DMA.cc:116-165 -/
def memFetches (cfg : CoreConfig) (env : CycleEnv) (i : ι) (inst : Instruction τ ι) :
    List (MemFetch ι) :=
  (inst.getDramAddress cfg.dramReqSize (inst.loadIndirectIndex env.indirectIndex)).map fun addr =>
    { addr := addr, isWrite := inst.isDmaWrite, size := cfg.dramReqSize, numaId := inst.numaId,
      customData := i, cacheable := env.cacheable }

/-- The first part of `get_memory_access`: the requests of a new instruction are generated,
unless the latency oracle takes it over, and then it is `false`.
SOURCE: DMA.cc:56-167 -/
def generateAccesses (cfg : CoreConfig) (env : CycleEnv) (c : Core τ ι) :
    Except CoreFault (Core τ ι × Bool) :=
  if c.dma.generatedOnce then .ok (c, true)
  else match c.dma.currentInst with
    | none => .error .noCurrentInst
    | some i =>
      match env.latency with
      | some n =>
        .ok ({ c with dma := { c.dma with
          ssdPending := true, ssdFinishCycle := c.coreCycle + max 1 n, finished := false } }, false)
      | none =>
        let inst := c.heap.inst i
        let accesses := memFetches cfg env i inst
        -- the shapes are padded in place
        let inst := { inst with
          tileSize := Instruction.padLeft4 1 inst.tileSize
          tileStride := Instruction.padLeft4 0 inst.tileStride
          nrWaitingRequest := inst.nrWaitingRequest + accesses.length }
        .ok ({ c with
          heap := c.heap.setInst i inst
          dma := { c.dma with
            pendingAccesses := c.dma.pendingAccesses ++ accesses, generatedOnce := true } }, true)

/-- `get_memory_access` and the loop that queues what it returns.
SOURCE: DMA.cc:50-186, Core.cc:202-207 -/
def generateMemfetch (cfg : CoreConfig) (env : CycleEnv) (c : Core τ ι) :
    Except CoreFault (Core τ ι) :=
  if c.dma.ssdPending then .ok c
  else do
    let (c, generated) ← generateAccesses cfg env c
    if !generated then pure c
    else
      let pending := c.dma.pendingAccesses
      let nrReq := if cfg.icntInjectionPortsPerCore = -1 then pending.length
        else cfg.icntInjectionPortsPerCore.toNat
      let rest := pending.drop nrReq
      let dma := { c.dma with
        pendingAccesses := rest
        finished := if rest.isEmpty then true else c.dma.finished
        generatedOnce := if rest.isEmpty then false else c.dma.generatedOnce }
      pure { c with dma := dma, requestQueue := c.requestQueue ++ pending.take nrReq }

/-- An engine that has sent all requests takes the next instruction; `false` when there is none.
SOURCE: Core.cc:162-201 -/
def nextDma (c : Core τ ι) : Except CoreFault (Core τ ι × Bool) :=
  if c.dma.finished then do
    let c ← c.retireCurrent
    c.issueDma
  else .ok (c, true)

/-- SOURCE: Core.cc:113-211 -/
def dmaCycle (cfg : CoreConfig) (env : CycleEnv) (c : Core τ ι) :
    Except CoreFault (Core τ ι) := do
  let c ← c.ssdCycle
  let c ← drainLoop c.dmaFinishedQueue c
  let (c, busy) ← c.nextDma
  if busy then do
    let c ← generateMemfetch cfg env c
    pure (c.addStats .dmaBusy)
  else pure c

/-- Counts an instruction that is not executed. -/
def countSkipped (c : Core τ ι) (op : Opcode) : Core τ ι :=
  c.addStats (.skipped op)

/-- `_dma.register_tag` for the tag of an instruction.
SOURCE: Core.cc:238, Core.cc:268 -/
def registerTag (c : Core τ ι) (i : ι) : Core τ ι :=
  let g := (c.heap.inst i).subgraphId
  let key := (c.heap.inst i).tagKey
  let replaced := (c.dma.tag g key).map fun v => (v, c.dma.waiters g key)
  { c with dma := c.dma.registerTag g key }.log (.tagRegistered i replaced)

/-- `_dma.register_tag_waiter` for the tag of an instruction.
SOURCE: Core.cc:249, Core.cc:333 -/
def waitForTag (c : Core τ ι) (i : ι) : Except CoreFault (Core τ ι) := do
  let dma ← c.dma.registerTagWaiter (c.heap.inst i).subgraphId (c.heap.inst i).tagKey i
  pure { c with dma := dma }

/-- The case `MOVIN` of the issue switch.
SOURCE: Core.cc:233-273 -/
def issueMovin (c : Core τ ι) (i : ι) : Except CoreFault (Core τ ι) :=
  let inst := c.heap.inst i
  if inst.isSparseInst then do
    let c := c.registerTag i
    let dma ← c.dma.setTagSparse inst.subgraphId inst.tagKey
    let c ← { c with dma := dma }.finishInstruction i
    pure (c.countSkipped inst.opcode)
  else if inst.isAsyncDma && c.dma.tagKeyExist inst.subgraphId inst.tagKey then do
    let finished ← c.dma.getTagFinish inst.subgraphId inst.tagKey
    let c ← if finished ≠ 0 then c.finishInstruction i else c.waitForTag i
    pure (c.countSkipped inst.opcode)
  else
    let c := c.registerTag i
    .ok { c with ldInstQueue := c.ldInstQueue ++ [i] }

/-- The pipeline that an instruction of a compute type enters.  Matrix instructions take the
systolic arrays in turn.
SOURCE: Core.cc:49-61 -/
def getComputePipeline (cfg : CoreConfig) (c : Core τ ι) (computeType : ℕ) :
    Except CoreFault (Pipeline × Core τ ι) :=
  if computeType = VECTOR_UNIT then .ok (.vu, c)
  else if computeType = MATMUL ∨ computeType = PRELOAD then
    if cfg.numSystolicArrayPerCore = 0 then .error .undefinedComputeType
    else .ok (.sa c.systolicArrayRr, { c with systolicArrayRr :=
      (c.systolicArrayRr + 1) % cfg.numSystolicArrayPerCore })
  else .error .undefinedComputeType

/-- The times at which a compute instruction finishes and how long it leaves its pipeline
idle, when the instruction `back` is the last in the pipeline.
SOURCE: Core.cc:287-295 -/
def computeTimes (coreCycle : ℕ) (inst : Instruction τ ι) (back : Option (Instruction τ ι)) :
    ℕ × ℕ :=
  match back with
  | none => (u64 (coreCycle + inst.computeCycle), inst.overlappingCycle)
  | some b =>
    let overlapped := i32 (min (u64 ((b.finishCycle : ℤ) - coreCycle)) inst.overlappingCycle : ℕ)
    let bubble := i32 (u64 (inst.overlappingCycle - overlapped))
    (u64 (b.finishCycle + inst.computeCycle - overlapped), u64 bubble)

/-- Sets the times of a compute instruction that is about to enter a pipeline.
SOURCE: Core.cc:286-295 -/
def setTimes (c : Core τ ι) (p : Pipeline) (i : ι) : Core τ ι :=
  let times := computeTimes c.coreCycle (c.heap.inst i)
    ((c.pipeline p).getLast?.map c.heap.inst)
  { c with heap := c.heap.setInst i { c.heap.inst i with
    finishCycle := times.1, bubbleCycle := times.2 } }

/-- The case `COMP` of the issue switch; `false` when the instruction takes no cycle, which
finishes it at once and takes it from the ready queue.
SOURCE: Core.cc:284-317 -/
def issueComp (cfg : CoreConfig) (c : Core τ ι) (t : τ) (i : ι) :
    Except CoreFault (Core τ ι × Bool) := do
  let (p, c) ← c.getComputePipeline cfg (c.heap.inst i).computeType
  let c := c.setTimes p i
  if (c.heap.inst i).computeCycle = 0 then
    let c := { c with heap := c.heap.finish i }.log (.instFinished i)
    let c := c.countSkipped (c.heap.inst i).opcode
    pure ({ c with heap := c.heap.popReady t }, false)
  else
    let c := c.pushPipeline p i
    let c := if (c.heap.inst i).computeType ≠ 0 then c.addStats .gemm else c
    pure (c, true)

/-- A wait on the tag of a sparse load makes its matrix multiplications take no cycle.
SOURCE: Core.cc:323-327 -/
def skipMatmuls (h : CoreHeap τ ι) (children : List ι) : CoreHeap τ ι :=
  children.foldl (fun h j =>
    if (h.inst j).opcode = .comp ∧ (h.inst j).computeType = MATMUL then
      h.setInst j { h.inst j with computeCycle := 0 }
    else h) h

/-- The case `BAR` of the issue switch.
SOURCE: Core.cc:318-344 -/
def issueBar (c : Core τ ι) (i : ι) : Except CoreFault (Core τ ι) := do
  let inst := c.heap.inst i
  let finished ← c.dma.getTagFinish inst.subgraphId inst.tagKey
  if finished = sparseTag then
    finishInstruction { c with heap := skipMatmuls c.heap inst.childInst } i
  else if finished ≠ 0 then do
    let dma ← c.dma.markTagUsed inst.subgraphId inst.tagKey
    finishInstruction { c with dma := dma } i
  else c.waitForTag i

/-- The issue switch for the instruction in front of the ready queue of a tile.
SOURCE: Core.cc:232-348 -/
def issueInst (cfg : CoreConfig) (c : Core τ ι) (t : τ) (i : ι) :
    Except CoreFault (Core τ ι × Bool) :=
  let c := c.log (.instIssued i)
  match (c.heap.inst i).opcode with
  | .movin => do pure (← c.issueMovin i, true)
  | .movout => .ok ({ c with stInstQueue := c.stInstQueue ++ [i] }, true)
  | .comp => issueComp cfg c t i
  | .bar => do pure (← c.issueBar i, true)

/-- The walk over the ready queue of a tile.  An instruction is issued or takes no cycle, and
leaves the queue in both cases, so the walk is always at the front.  `fuel` bounds the number
of instructions without a cycle.
SOURCE: Core.cc:225-356 -/
def scanReady (cfg : CoreConfig) (env : CycleEnv) (t : τ) :
    ℕ → Core τ ι → Except CoreFault (Core τ ι × Bool)
  | 0, _ => .error .outOfFuel
  | fuel + 1, c =>
    match (c.heap.tile t).readyQueue with
    | [] => .ok (c, false)
    | i :: _ => do
      let (c, issued) ← issueInst cfg c t i
      if issued then
        let op := (c.heap.inst i).opcode
        let c := c.addStats (.issued op)
        pure ({ c with heap := c.heap.popReady t }, true)
      else if env.staleNext then scanReady cfg env t fuel c
      else .error .erasedIterator

/-- The loop over the tiles, up to the first instruction that is issued.
SOURCE: Core.cc:221-357 -/
def issueLoop (cfg : CoreConfig) (env : CycleEnv) :
    List τ → Core τ ι → Except CoreFault (Core τ ι × Bool)
  | [], c => .ok (c, false)
  | t :: ts, c => do
    let (c, issued) ← scanReady cfg env t ((c.heap.tile t).nrInsts + 1) c
    if issued then pure (c, true) else issueLoop cfg env ts c

/-- The first tile whose instructions are all finished is reported.
SOURCE: Core.cc:359-372 -/
def removeFinishedTile (c : Core τ ι) : Core τ ι :=
  match c.tiles.find? fun t => (c.heap.tile t).allInstsFinished with
  | none => c
  | some t =>
    { c with
      heap := c.heap.setTile t { c.heap.tile t with status := .finish }
      finishedTiles := c.finishedTiles ++ [t]
      tiles := c.tiles.erase t }.log (.tileFinished t)

/-- SOURCE: Core.cc:515-532 -/
def updateStats (cfg : CoreConfig) (s : CoreStats) : CoreStats :=
  let reset := fun f : ℕ → ℕ => fun n => if n < cfg.numSystolicArrayPerCore then 0 else f n
  let add := fun f g : ℕ → ℕ =>
    fun n => if n < cfg.numSystolicArrayPerCore then f n + g n else f n
  { s with
    totSaComputeCycle := add s.totSaComputeCycle s.saComputeCycle
    totSaComputeIdleCycle := add s.totSaComputeIdleCycle s.saComputeIdleCycle
    saComputeCycle := reset s.saComputeCycle
    saComputeIdleCycle := reset s.saComputeIdleCycle
    totVuComputeCycle := s.totVuComputeCycle + s.vuComputeCycle
    totDmaCycle := s.totDmaCycle + s.dmaCycle
    totDmaIdleCycle := s.totDmaIdleCycle + s.dmaIdleCycle
    totMemResponse := s.totMemResponse + s.memResponse
    vuComputeCycle := 0
    dmaCycle := 0
    dmaIdleCycle := 0
    vuComputeIdleCycle := 0
    memResponse := 0 }

/-- SOURCE: Core.cc:213-376 -/
def cycle (cfg : CoreConfig) (env : CycleEnv) (c : Core τ ι) : Except CoreFault (Core τ ι) := do
  let c ← c.computeCycle cfg
  let c ← c.dmaCycle cfg env
  let c := { c with coreCycle := c.coreCycle + 1 }
  let (c, issued) ← issueLoop cfg env c.tiles c
  let c := if issued then c else c.removeFinishedTile
  if cfg.corePrintInterval ≠ 0 ∧ c.coreCycle % cfg.corePrintInterval = 0 then
    pure (c.addStats (updateStats cfg))
  else pure c

/-- SOURCE: Core.cc:408-419 -/
def running (cfg : CoreConfig) (c : Core τ ι) : Bool :=
  !c.tiles.isEmpty || !c.vuComputePipeline.isEmpty ||
    (List.range cfg.numSystolicArrayPerCore).any (fun n => !(c.saComputePipeline n).isEmpty) ||
    !c.dmaWaitingQueue.isEmpty || !c.dmaFinishedQueue.isEmpty || c.dma.currentInst.isSome ||
    !c.ldInstQueue.isEmpty || !c.stInstQueue.isEmpty

/-- SOURCE: Core.cc:429-446 -/
def pushMemoryResponse (c : Core τ ι) (response : MemFetch ι) : Core τ ι :=
  let i := response.customData
  let n := (c.heap.inst i).decWaitingRequest
  let c := { c with
    heap := c.heap.setInst i { c.heap.inst i with nrWaitingRequest := n }
    stats := { c.stats with memResponse := c.stats.memResponse + 1 } }
  if n = 0 ∧ i ∈ c.dmaWaitingQueue then
    { c with
      dmaFinishedQueue := c.dmaFinishedQueue ++ [i]
      dmaWaitingQueue := c.dmaWaitingQueue.erase i }
  else c

end Core

/-- The objects of the tiles a core may be given, before they are given to it.  An
instruction belongs to one tile, its children are in the same tile, and its ready counter
counts its parents, once or more: `add_child` raises it with every edge.
SOURCE: Tile.cc:20-26, Instruction.cc:58-61 -/
structure TileProgram (τ ι : Type) [DecidableEq ι] where
  heap : CoreHeap τ ι
  insts_nodup : ∀ t, (heap.tile t).instructions.Nodup
  owner : ∀ t, ∀ i ∈ (heap.tile t).instructions, (heap.inst i).owner = t
  nrInsts : ∀ t, (heap.tile t).nrInsts = (heap.tile t).instructions.length
  nrFinishedInsts : ∀ t, (heap.tile t).nrFinishedInsts = 0
  readyQueue : ∀ t, (heap.tile t).readyQueue = []
  finished : ∀ i, (heap.inst i).finished = false
  nrWaitingRequest : ∀ i, (heap.inst i).nrWaitingRequest = 0
  child_nodup : ∀ i, (heap.inst i).childInst.Nodup
  child_mem : ∀ t, ∀ i ∈ (heap.tile t).instructions, ∀ j ∈ (heap.inst i).childInst,
    j ∈ (heap.tile t).instructions
  readyCounter : ∀ t, ∀ j ∈ (heap.tile t).instructions,
    (heap.tile t).instructions.countP (fun i => j ∈ (heap.inst i).childInst) ≤
      (heap.inst j).readyCounter

/-- A core and its memory requests that are sent and not answered. -/
structure CoreSystem (τ ι : Type) where
  core : Core τ ι
  inFlight : List (MemFetch ι) := []

/-- What happens to a core: the simulator gives it a tile, runs a cycle, takes a finished tile
or a memory request, or delivers the answer to the `n`-th request that is not answered. -/
inductive CoreAction (τ : Type)
  | issue (t : τ)
  | cycle (env : CycleEnv)
  | popFinishedTile
  | popMemoryRequest
  | pushMemoryResponse (n : ℕ)

namespace CoreSystem

variable {τ ι : Type} [DecidableEq τ] [DecidableEq ι]

/-- A core that has been given no tile. -/
def init (P : TileProgram τ ι) : CoreSystem τ ι := { core := { heap := P.heap } }

/-- The tiles given to the core so far. -/
def issuedTiles (s : CoreSystem τ ι) : List τ := s.core.issuedTiles

/-- A tile is given to the core once. -/
def Legal (s : CoreSystem τ ι) : CoreAction τ → Prop
  | .issue t => t ∉ s.issuedTiles
  | _ => True

/-- SOURCE: Simulator.cc:97-157 -/
def step (cfg : CoreConfig) (s : CoreSystem τ ι) :
    CoreAction τ → Except CoreFault (CoreSystem τ ι)
  | .issue t => .ok { s with core := s.core.issue t }
  | .cycle env => do
    let core ← s.core.cycle cfg env
    pure { s with core := core }
  | .popFinishedTile => .ok { s with core := s.core.popFinishedTile.2 }
  | .popMemoryRequest =>
    match s.core.requestQueue with
    | [] => .ok s
    | r :: rest => .ok { core := { s.core with requestQueue := rest }, inFlight := s.inFlight ++ [r] }
  | .pushMemoryResponse n =>
    match s.inFlight[n]? with
    | none => .ok s
    | some r => .ok { core := s.core.pushMemoryResponse r, inFlight := s.inFlight.eraseIdx n }

end CoreSystem

end PyTorchSim.Model
