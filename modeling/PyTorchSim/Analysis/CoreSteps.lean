import PyTorchSim.Analysis.Placement

/-!
# The steps a core is made of

A cycle of a core is a row of small steps: a pipeline finishes an instruction, the DMA engine
takes, splits or gives up an instruction, a ready instruction is issued, a tile is reported.
`UnitStep`, `IssueStep` and `OuterStep` list them with the state each one leads to, and
`CoreInv` is what they all keep.
-/

set_option autoImplicit false

namespace PyTorchSim.Model

variable {τ ι : Type} [DecidableEq τ] [DecidableEq ι]

namespace Core

/-- Finishes an instruction without a check. -/
def finish (c : Core τ ι) (i : ι) : Core τ ι :=
  { c with heap := c.heap.finish i }.log (.instFinished i)

/-- Stores the word of a tag. -/
def setTag (c : Core τ ι) (g : ℕ) (key : List ℤ) (v : ℕ) : Core τ ι :=
  { c with dma := c.dma.storeTag g key v }

/-- Appends an instruction to the waiters of its tag. -/
def addWaiter (c : Core τ ι) (i : ι) : Core τ ι :=
  let g := (c.heap.inst i).subgraphId
  let key := (c.heap.inst i).tagKey
  { c with dma := { c.dma with
    waiters := Function.update c.dma.waiters g
      (Function.update (c.dma.waiters g) key (c.dma.waiters g key ++ [i])) } }

/-- Takes the front from the ready queue of a tile. -/
def pop (c : Core τ ι) (t : τ) : Core τ ι := { c with heap := c.heap.popReady t }

/-- Takes an instruction from the front of the ready queue of a tile. -/
def take (c : Core τ ι) (t : τ) (i : ι) : Core τ ι :=
  (c.log (.instIssued i)).pop t

/-- The loads and stores that the DMA engine works on. -/
def transit (c : Core τ ι) : List ι :=
  c.ldInstQueue ++ c.stInstQueue ++ c.dma.currentInst.toList ++ c.dmaWaitingQueue ++
    c.dmaFinishedQueue

end Core

end PyTorchSim.Model

namespace PyTorchSim.Analysis

open PyTorchSim.Model PyTorchSim.Library

variable {τ ι : Type} [DecidableEq τ] [DecidableEq ι]

/-- What the compute units and the DMA engine of a core do, and the report of a tile. -/
inductive UnitStep (cfg : CoreConfig) : Core τ ι → Core τ ι → Prop
  | stats (c : Core τ ι) (f : CoreStats → CoreStats) : UnitStep cfg c (c.addStats f)
  | clock (c : Core τ ι) (n : ℕ) : UnitStep cfg c { c with coreCycle := n }
  | arrayTurn (c : Core τ ι) (n : ℕ) : UnitStep cfg c { c with systolicArrayRr := n }
  | compute (c : Core τ ι) (p : Core.Pipeline) (i : ι) (rest : List ι) :
      c.pipeline p = i :: rest → UnitStep cfg c ((c.finish i).popPipeline p)
  | ssdNone (c : Core τ ι) : c.dma.ssdPending = true → c.dma.currentInst = none →
      UnitStep cfg c { c with dma := c.dma.endSsd }
  | ssdWrite (c : Core τ ι) (i : ι) : c.dma.ssdPending = true → c.dma.currentInst = some i →
      (c.heap.inst i).isDmaWrite = true → UnitStep cfg c ({ c with dma := c.dma.endSsd }.finish i)
  | ssdAsync (c : Core τ ι) (i : ι) : c.dma.ssdPending = true → c.dma.currentInst = some i →
      (c.heap.inst i).isDmaRead = true → (c.heap.inst i).isAsyncDma = true →
      UnitStep cfg c ({ c with
        dma := c.dma.endSsd, dmaFinishedQueue := c.dmaFinishedQueue ++ [i] }.finish i)
  | ssdSync (c : Core τ ι) (i : ι) : c.dma.ssdPending = true → c.dma.currentInst = some i →
      (c.heap.inst i).isDmaRead = true → (c.heap.inst i).isAsyncDma = false →
      UnitStep cfg c { c with
        dma := c.dma.endSsd, dmaFinishedQueue := c.dmaFinishedQueue ++ [i] }
  | drainWrite (c : Core τ ι) (i : ι) (rest : List ι) : c.dmaFinishedQueue = i :: rest →
      (c.heap.inst i).isDmaRead = false → UnitStep cfg c { c with dmaFinishedQueue := rest }
  | drainSync (c : Core τ ι) (i : ι) (rest : List ι) : c.dmaFinishedQueue = i :: rest →
      (c.heap.inst i).isDmaRead = true → (c.heap.inst i).isAsyncDma = false →
      UnitStep cfg c ({ c with dmaFinishedQueue := rest }.finish i)
  | drainAsync (c : Core τ ι) (i : ι) (rest ws : List ι) : c.dmaFinishedQueue = i :: rest →
      (c.heap.inst i).isDmaRead = true → (c.heap.inst i).isAsyncDma = true →
      c.dma.waiters (c.heap.inst i).subgraphId (c.heap.inst i).tagKey = ws →
      ws.length < 2 ^ 32 →
      UnitStep cfg c (ws.foldl Core.finish
        ({ c.setTag (c.heap.inst i).subgraphId (c.heap.inst i).tagKey
          ((1 + ws.length) % 2 ^ 32) with dmaFinishedQueue := rest }.log (.dataReturned i)))
  | retireWrite (c : Core τ ι) (i : ι) : c.dma.finished = true → c.dma.currentInst = some i →
      (c.heap.inst i).isDmaWrite = true →
      UnitStep cfg c ({ c with
        dma := { c.dma with currentInst := none }
        dmaWaitingQueue := c.dmaWaitingQueue.insert i }.finish i)
  | retireAsync (c : Core τ ι) (i : ι) : c.dma.finished = true → c.dma.currentInst = some i →
      (c.heap.inst i).isDmaRead = true → (c.heap.inst i).isAsyncDma = true →
      UnitStep cfg c ({ c with
        dma := { c.dma with currentInst := none }
        dmaWaitingQueue := c.dmaWaitingQueue.insert i }.finish i)
  | retireSync (c : Core τ ι) (i : ι) : c.dma.finished = true → c.dma.currentInst = some i →
      (c.heap.inst i).isDmaRead = true → (c.heap.inst i).isAsyncDma = false →
      UnitStep cfg c { c with
        dma := { c.dma with currentInst := none }
        dmaWaitingQueue := c.dmaWaitingQueue.insert i }
  | startLoad (c : Core τ ι) (i : ι) (rest : List ι) : c.dma.finished = true →
      c.dma.currentInst = none → c.ldInstQueue = i :: rest →
      UnitStep cfg c { c with
        dma := { c.dma with
          currentInst := some i, ssdPending := false, ssdFinishCycle := 0, finished := false }
        ldInstQueue := rest }
  | startStore (c : Core τ ι) (i : ι) (rest : List ι) : c.dma.finished = true →
      c.dma.currentInst = none → c.stInstQueue = i :: rest →
      UnitStep cfg c { c with
        dma := { c.dma with
          currentInst := some i, ssdPending := false, ssdFinishCycle := 0, finished := false }
        stInstQueue := rest }
  | oracle (c : Core τ ι) (i : ι) (n : ℕ) : c.dma.currentInst = some i →
      c.dma.generatedOnce = false → c.dma.finished = false →
      UnitStep cfg c { c with
        dma := { c.dma with ssdPending := true, ssdFinishCycle := n, finished := false } }
  | generate (c : Core τ ι) (i : ι) (env : CycleEnv) : c.dma.currentInst = some i →
      c.dma.generatedOnce = false → c.dma.ssdPending = false → c.dma.finished = false →
      UnitStep cfg c { c with
        heap := c.heap.setInst i { c.heap.inst i with
          tileSize := Instruction.padLeft4 1 (c.heap.inst i).tileSize
          tileStride := Instruction.padLeft4 0 (c.heap.inst i).tileStride
          nrWaitingRequest := (c.heap.inst i).nrWaitingRequest +
            (Core.memFetches cfg env i (c.heap.inst i)).length }
        dma := { c.dma with
          pendingAccesses := c.dma.pendingAccesses ++ Core.memFetches cfg env i (c.heap.inst i)
          generatedOnce := true } }
  | inject (c : Core τ ι) (n : ℕ) : c.dma.generatedOnce = true → c.dma.ssdPending = false →
      UnitStep cfg c { c with
        dma := { c.dma with
          pendingAccesses := c.dma.pendingAccesses.drop n
          finished := if (c.dma.pendingAccesses.drop n).isEmpty then true else c.dma.finished
          generatedOnce :=
            if (c.dma.pendingAccesses.drop n).isEmpty then false else c.dma.generatedOnce }
        requestQueue := c.requestQueue ++ c.dma.pendingAccesses.take n }
  | report (c : Core τ ι) (t : τ) : t ∈ c.tiles → (c.heap.tile t).allInstsFinished = true →
      UnitStep cfg c ({ c with
        heap := c.heap.setTile t { c.heap.tile t with status := .finish }
        finishedTiles := c.finishedTiles ++ [t]
        tiles := c.tiles.erase t }.log (.tileFinished t))

/-- What the issue switch does with an instruction that was taken from its ready queue. -/
inductive IssueEffect (i : ι) (c : Core τ ι) : Core τ ι → Prop
  | sparseLoad : (c.heap.inst i).opcode = .movin → (c.heap.inst i).isSparseInst = true →
      IssueEffect i c (((c.registerTag i).setTag (c.heap.inst i).subgraphId
        (c.heap.inst i).tagKey sparseTag).finish i)
  | knownLoad (v : ℕ) : (c.heap.inst i).opcode = .movin →
      (c.heap.inst i).isSparseInst = false → (c.heap.inst i).isAsyncDma = true →
      c.dma.tag (c.heap.inst i).subgraphId (c.heap.inst i).tagKey = some v → v ≠ 0 →
      IssueEffect i c (c.finish i)
  | awaitedLoad : (c.heap.inst i).opcode = .movin → (c.heap.inst i).isSparseInst = false →
      (c.heap.inst i).isAsyncDma = true →
      c.dma.tag (c.heap.inst i).subgraphId (c.heap.inst i).tagKey = some 0 →
      IssueEffect i c (c.addWaiter i)
  | load : (c.heap.inst i).opcode = .movin → (c.heap.inst i).isSparseInst = false →
      ((c.heap.inst i).isAsyncDma = true →
        c.dma.tag (c.heap.inst i).subgraphId (c.heap.inst i).tagKey = none) →
      IssueEffect i c { c.registerTag i with ldInstQueue := c.ldInstQueue ++ [i] }
  | store : (c.heap.inst i).opcode = .movout →
      IssueEffect i c { c with stInstQueue := c.stInstQueue ++ [i] }
  | comp (p : Core.Pipeline) : (c.heap.inst i).opcode = .comp →
      (c.heap.inst i).computeCycle ≠ 0 → IssueEffect i c ((c.setTimes p i).pushPipeline p i)
  | compZero (p : Core.Pipeline) : (c.heap.inst i).opcode = .comp →
      (c.heap.inst i).computeCycle = 0 → IssueEffect i c ((c.setTimes p i).finish i)
  | barSparse : (c.heap.inst i).opcode = .bar →
      c.dma.tag (c.heap.inst i).subgraphId (c.heap.inst i).tagKey = some sparseTag →
      IssueEffect i c ({ c with
        heap := Core.skipMatmuls c.heap (c.heap.inst i).childInst }.finish i)
  | barReady (v : ℕ) : (c.heap.inst i).opcode = .bar →
      c.dma.tag (c.heap.inst i).subgraphId (c.heap.inst i).tagKey = some v → v ≠ 0 →
      v ≠ sparseTag →
      IssueEffect i c ((c.setTag (c.heap.inst i).subgraphId (c.heap.inst i).tagKey
        ((v + 1) % 2 ^ 32)).finish i)
  | barWait : (c.heap.inst i).opcode = .bar →
      c.dma.tag (c.heap.inst i).subgraphId (c.heap.inst i).tagKey = some 0 →
      IssueEffect i c (c.addWaiter i)

/-- The instruction in front of the ready queue of a tile is issued. -/
def IssueStep (c c' : Core τ ι) : Prop :=
  ∃ t i, t ∈ c.tiles ∧ (c.heap.tile t).readyQueue.head? = some i ∧ IssueEffect i (c.take t i) c'

/-- What the simulator does to a core between two cycles. -/
inductive OuterStep : Core τ ι → Core τ ι → Prop
  | issue (c : Core τ ι) (t : τ) : t ∉ c.issuedTiles → OuterStep c (c.issue t)
  | popFinishedTile (c : Core τ ι) : OuterStep c c.popFinishedTile.2
  | popMemoryRequest (c : Core τ ι) (r : MemFetch ι) (rest : List (MemFetch ι)) :
      c.requestQueue = r :: rest → OuterStep c { c with requestQueue := rest }
  | pushMemoryResponse (c : Core τ ι) (r : MemFetch ι) : OuterStep c (c.pushMemoryResponse r)

/-- A step of a core. -/
def CoreStep (cfg : CoreConfig) (c c' : Core τ ι) : Prop :=
  UnitStep cfg c c' ∨ IssueStep c c' ∨ OuterStep c c'

/-! ## The invariant -/

/-- The tag of an asynchronous load. -/
def loadTag (k : InstKind τ ι) : Option (ℕ × List ℤ) :=
  if k.opcode = .movin ∧ k.isAsyncDma = true then some (k.subgraphId, k.tagKey) else none

/-- The tags whose asynchronous load is in transit. -/
def flights (P : TileProgram τ ι) (c : Core τ ι) : List (ℕ × List ℤ) :=
  c.transit.filterMap fun i => loadTag (kindOf P i)

/-- The instructions at each place that is not a ready queue.  The list of waiters of a tag
is not cleared when they are finished, so it counts only while the load is in transit. -/
def elsewhere (P : TileProgram τ ι) (c : Core τ ι) : Place τ → List ι
  | .ready _ => []
  | .pipe p => c.pipeline p
  | .ld => c.ldInstQueue
  | .st => c.stInstQueue
  | .dma => c.dma.currentInst.toList
  | .waiting => c.dmaWaitingQueue
  | .arrived => c.dmaFinishedQueue
  | .waiter g key => if (g, key) ∈ flights P c then c.dma.waiters g key else []

/-- A tag has one asynchronous load in transit at most, and is in the table then. -/
structure TransitInv (P : TileProgram τ ι) (c : Core τ ι) : Prop where
  unique : (flights P c).Nodup
  known : ∀ k ∈ flights P c, (c.dma.tag k.1 k.2).isSome = true

/-- What the core has recorded. -/
structure LedgerInv (P : TileProgram τ ι) (c : Core τ ι) : Prop where
  issued_nodup : c.issuedTiles.Nodup
  split : (c.tiles ++ c.reportedTiles).Perm c.issuedTiles
  reported_done : ∀ t ∈ c.reportedTiles, ∀ i ∈ instsOf P t, (c.heap.inst i).finished = true
  calls_nodup : c.finishCalls.Nodup
  calls : ∀ i, i ∈ c.finishCalls ↔ (c.heap.inst i).finished = true

/-- The flags of the DMA engine. -/
structure EngineInv (d : DMA ι) : Prop where
  busy : d.finished = false → d.currentInst.isSome = true
  ssd : d.ssdPending = true → d.finished = false ∧ d.generatedOnce = false
  once : d.generatedOnce = true → d.finished = false
  accesses : d.generatedOnce = false → d.pendingAccesses = []

/-- The invariant of a core. -/
structure CoreInv (P : TileProgram τ ι) (c : Core τ ι) : Prop where
  placement : PlacementInv P c.issuedTiles c.heap (elsewhere P c)
  transit : TransitInv P c
  ledger : LedgerInv P c
  engine : EngineInv c.dma

/-! ## The record of events -/

end PyTorchSim.Analysis
