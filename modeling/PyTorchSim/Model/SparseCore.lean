import PyTorchSim.Model.Core

/-!
# The sparse core

A sparse core has several subcores and gives each of them one tile at a time.  A tile of a
STONNE operation is simulated by the STONNE library.  In trace mode the subcore takes the
instructions of its tile in order: it sends the requests of a load or store, and puts a compute
instruction into the pipeline, which all subcores share, as they share the queue of the loads and
stores.

The STONNE library is outside of the model: `SparseEnv` has the requests that its cores make in a
cycle and whether they have finished.  The recording of a trace and the statistics, which nothing
reads, are left out.
-/

set_option autoImplicit false

namespace PyTorchSim.Model

/-- The values of the configuration that a sparse core reads.
SOURCE: SparseCore.cc:4-34 -/
structure SparseConfig where
  nrCores : ℕ
  rPortNr : ℕ
  wPortNr : ℕ
  dramReqSize : ℕ

/-- What a cycle depends on and the sparse core does not determine: for each subcore the requests
of its STONNE core, with their address and whether they write, and whether it has finished.  A
request that is neither a read nor a write is `none`. -/
structure SparseEnv where
  popRequests : ℕ → List (ℕ × Option Bool) := fun _ => []
  isFinished : ℕ → Bool := fun _ => false

/-- The ways in which a sparse core stops the program. -/
inductive SparseFault
  /-- `issue` exits when it selects no subcore. -/
  | noSubcore
  /-- `finish_instruction` exits on a finished instruction. -/
  | alreadyFinished
  /-- The issue switch exits on an instruction that is no load, store or compute instruction. -/
  | undefinedOpcode
  /-- A subcore without a tile finishes its tile. -/
  | noTile
  /-- The descriptor of a tile that has none is read. -/
  | noOpDesc
  /-- The request size is 0. -/
  | divisionByZero
  deriving DecidableEq, Repr

/-- What a request does when it is answered: an instruction waits for one request less, or a
STONNE core gets a response. -/
inductive SparseCallback (ι : Type)
  | decWaitingRequest (i : ι)
  | pushResponse (subcore : ℕ)
  deriving DecidableEq

/-- A request, with all that waits for it.
SOURCE: SparseCore.cc:447-458 -/
structure SparseRequest (ι : Type) where
  addr : ℕ
  isWrite : Bool
  callbacks : List (SparseCallback ι)
  deriving DecidableEq

/-- `customData` says which tiles have a descriptor of an operation, and `traceAddress` gives the
addresses of a load or store.
SOURCE: SparseCore.h:75-95, Core.h:72-103 -/
structure SparseCore (τ ι : Type) where
  heap : CoreHeap τ ι
  customData : τ → Bool
  traceAddress : ι → List ℕ
  coreCycle : ℕ := 0
  rrIdx : ℕ := 0
  coreBusy : ℕ → Bool := fun _ => false
  traceMode : ℕ → Bool := fun _ => false
  percoreTiles : ℕ → List τ := fun _ => []
  vuComputePipeline : List ι := []
  dmaFinishedQueue : List ι := []
  requestMergeTable : List (SparseRequest ι) := []
  requestQueue : List (SparseRequest ι) := []
  responseQueue : List (SparseRequest ι) := []
  finishedTiles : List τ := []

namespace SparseCore

variable {τ ι : Type} [DecidableEq τ] [DecidableEq ι]

/-- SOURCE: SparseCore.cc:91-97 -/
def canIssue (cfg : SparseConfig) (c : SparseCore τ ι) (t : τ) : Bool :=
  (List.range cfg.nrCores).any (fun i => !c.coreBusy i) && (c.heap.tile t).stonneTile

/-- The loop looks for an idle subcore and takes the one whose turn it is.
SOURCE: SparseCore.cc:62-70 -/
def selectCore (cfg : SparseConfig) (c : SparseCore τ ι) : Option ℕ :=
  if (List.range cfg.nrCores).any (fun i => !c.coreBusy i) then some (c.rrIdx % cfg.nrCores)
  else none

/-- SOURCE: SparseCore.cc:61-89 -/
def issue (cfg : SparseConfig) (c : SparseCore τ ι) (t : τ) :
    Except SparseFault (SparseCore τ ι) :=
  match c.selectCore cfg with
  | none => .error .noSubcore
  | some i =>
    .ok { c with
      rrIdx := (i + 1) % cfg.nrCores
      traceMode := Function.update c.traceMode i !c.customData t
      percoreTiles := Function.update c.percoreTiles i (c.percoreTiles i ++ [t])
      coreBusy := Function.update c.coreBusy i true }

/-- The tile at the front of a subcore is done.
SOURCE: SparseCore.cc:178-181, 221-225 -/
def finishTile (c : SparseCore τ ι) (i : ℕ) (t : τ) : SparseCore τ ι :=
  { c with
    heap := c.heap.setTile t { c.heap.tile t with status := .finish }
    finishedTiles := c.finishedTiles ++ [t]
    percoreTiles := Function.update c.percoreTiles i (c.percoreTiles i).tail
    coreBusy := Function.update c.coreBusy i false }

/-- The order of the keys of `request_merge_table`; the type of an access follows from whether it
writes, and `allocTrafficID` always gives 0. -/
def keyLt (addr : ℕ) (isWrite : Bool) (r : SparseRequest ι) : Bool :=
  addr < r.addr ∨ (addr = r.addr ∧ isWrite < r.isWrite)

/-- The table with a callback at the request of a key, which is made when there is none. -/
def insertCallback (addr : ℕ) (isWrite : Bool) (f : SparseCallback ι) :
    List (SparseRequest ι) → List (SparseRequest ι)
  | [] => [{ addr, isWrite, callbacks := [f] }]
  | r :: rest =>
    if r.addr = addr ∧ r.isWrite = isWrite then
      { r with callbacks := r.callbacks ++ [f] } :: rest
    else if keyLt addr isWrite r then { addr, isWrite, callbacks := [f] } :: r :: rest
    else r :: insertCallback addr isWrite f rest

/-- SOURCE: SparseCore.cc:447-458 -/
def registerMemfetch (c : SparseCore τ ι) (addr : ℕ) (isWrite : Bool) (f : SparseCallback ι) :
    SparseCore τ ι :=
  { c with requestMergeTable := insertCallback addr isWrite f c.requestMergeTable }

/-- SOURCE: SparseCore.cc:412-445 -/
def finishInstruction (c : SparseCore τ ι) (i : ι) : Except SparseFault (SparseCore τ ι) :=
  if (c.heap.inst i).finished then .error .alreadyFinished
  else .ok { c with heap := c.heap.finish i }

/-! ## A subcore with a STONNE operation -/

/-- The requests of a STONNE core.  The Boolean is `false` when one of them is invalid, which
ends the turn of the subcore.
SOURCE: SparseCore.cc:137-167 -/
def sendStonne (cfg : SparseConfig) (subcore : ℕ) :
    List (ℕ × Option Bool) → SparseCore τ ι → Except SparseFault (SparseCore τ ι × Bool)
  | [], c => .ok (c, true)
  | (addr, cmd) :: rest, c =>
    if cfg.dramReqSize = 0 then .error .divisionByZero
    else match cmd with
      | none => .ok (c, false)
      | some isWrite =>
        sendStonne cfg subcore rest (c.registerMemfetch (addr / cfg.dramReqSize * cfg.dramReqSize)
          isWrite (.pushResponse subcore))

/-- SOURCE: SparseCore.cc:131-182 -/
def stonneTurn (cfg : SparseConfig) (env : SparseEnv) (c : SparseCore τ ι) (i : ℕ) :
    Except SparseFault (SparseCore τ ι) := do
  let (c, valid) ← sendStonne cfg i (env.popRequests i) c
  if valid && c.coreBusy i && env.isFinished i then
    match c.percoreTiles i with
    | [] => .error .noTile
    | t :: _ => if c.customData t then .ok (c.finishTile i t) else .error .noOpDesc
  else .ok c

/-! ## A subcore in trace mode -/

/-- The compute instruction at the front of the pipeline.
SOURCE: SparseCore.cc:185-192 -/
def collectCompute (c : SparseCore τ ι) : Except SparseFault (SparseCore τ ι) :=
  match c.vuComputePipeline with
  | [] => .ok c
  | i :: rest =>
    if (c.heap.inst i).finishCycle ≤ c.coreCycle then do
      let c ← c.finishInstruction i
      .ok { c with vuComputePipeline := rest }
    else .ok c

/-- The loads and stores at the front of the queue whose requests are answered.  The source looks
at the front in each iteration.
SOURCE: SparseCore.cc:195-212 -/
def collectDma : List ι → SparseCore τ ι → Except SparseFault (SparseCore τ ι)
  | [], c => .ok c
  | i :: rest, c =>
    if (c.heap.inst i).nrWaitingRequest ≠ 0 then .ok c
    else do
      let c ← if (c.heap.inst i).isDmaRead then c.finishInstruction i else .ok c
      collectDma rest { c with dmaFinishedQueue := rest }

/-- What is done before a subcore in trace mode looks at its tile.
SOURCE: SparseCore.cc:184-212 -/
def collect (c : SparseCore τ ι) : Except SparseFault (SparseCore τ ι) := do
  let c ← c.collectCompute
  collectDma c.dmaFinishedQueue c

/-- The requests of a load or store.
SOURCE: SparseCore.cc:249-259, 274-284 -/
def sendRequests (cfg : SparseConfig) (i : ι) (isWrite : Bool) :
    List ℕ → SparseCore τ ι → SparseCore τ ι
  | [], c => c
  | addr :: rest, c =>
    let inst := c.heap.inst i
    let c := { c with
      heap := c.heap.setInst i { inst with nrWaitingRequest := inst.nrWaitingRequest + 1 } }
    sendRequests cfg i isWrite rest (c.registerMemfetch
      (addr - (addr &&& u64 ((cfg.dramReqSize : ℤ) - 1))) isWrite (.decWaitingRequest i))

/-- The first instruction of a tile leaves its list. -/
def eraseFront (c : SparseCore τ ι) (t : τ) : SparseCore τ ι :=
  { c with
    heap := c.heap.setTile t
      { c.heap.tile t with instructions := (c.heap.tile t).instructions.tail } }

/-- SOURCE: SparseCore.cc:237-314 -/
def issueInst (cfg : SparseConfig) (c : SparseCore τ ι) (t : τ) (i : ι) :
    Except SparseFault (SparseCore τ ι) :=
  match (c.heap.inst i).opcode with
  | .movin =>
    let c := sendRequests cfg i false (c.traceAddress i) c
    .ok (eraseFront { c with dmaFinishedQueue := c.dmaFinishedQueue ++ [i] } t)
  | .movout => do
    let c ← (sendRequests cfg i true (c.traceAddress i) c).finishInstruction i
    return eraseFront { c with dmaFinishedQueue := c.dmaFinishedQueue ++ [i] } t
  | .comp =>
    let inst := c.heap.inst i
    let start := match c.vuComputePipeline.getLast? with
      | none => c.coreCycle
      | some back => (c.heap.inst back).finishCycle
    let c := { c with
      heap := c.heap.setInst i { inst with finishCycle := u64 (start + inst.computeCycle) }
      vuComputePipeline := c.vuComputePipeline ++ [i] }
    .ok (c.eraseFront t)
  | .bar => .error .undefinedOpcode

/-- A subcore whose tile has no instruction left finishes it.
SOURCE: SparseCore.cc:220 -/
def finishesTile (c : SparseCore τ ι) (i : ℕ) (t : τ) : Bool :=
  c.coreBusy i && (c.heap.tile t).instructions.isEmpty

/-- What a subcore in trace mode does with the tile at its front.
SOURCE: SparseCore.cc:214-314 -/
def advance (cfg : SparseConfig) (c : SparseCore τ ι) (i : ℕ) :
    Except SparseFault (SparseCore τ ι) :=
  match c.percoreTiles i with
  | [] => .ok c
  | t :: _ =>
    if c.finishesTile i t then .ok (c.finishTile i t)
    else
      match (c.heap.tile t).instructions with
      | [] => .ok c
      | j :: _ => if (c.heap.inst j).isReady then c.issueInst cfg t j else .ok c

/-- SOURCE: SparseCore.cc:129-316 -/
def subCoreCycle (cfg : SparseConfig) (env : SparseEnv) (c : SparseCore τ ι) (i : ℕ) :
    Except SparseFault (SparseCore τ ι) :=
  if c.traceMode i then do
    let c ← c.collect
    c.advance cfg i
  else c.stonneTurn cfg env i

/-! ## A cycle -/

/-- SOURCE: SparseCore.cc:324-336 -/
def sendToQueue (cfg : SparseConfig) (c : SparseCore τ ι) : SparseCore τ ι :=
  { c with
    requestQueue := c.requestQueue ++ c.requestMergeTable.take (cfg.rPortNr + 1)
    requestMergeTable := c.requestMergeTable.drop (cfg.rPortNr + 1) }

/-- SOURCE: SparseCore.cc:257, 282, 161-166 -/
def runCallback (c : SparseCore τ ι) : SparseCallback ι → SparseCore τ ι
  | .decWaitingRequest i =>
    { c with heap := c.heap.setInst i { c.heap.inst i with
      nrWaitingRequest := (c.heap.inst i).decWaitingRequest } }
  | .pushResponse _ => c

/-- SOURCE: SparseCore.cc:338-351 -/
def takeResponses (cfg : SparseConfig) (c : SparseCore τ ι) : SparseCore τ ι :=
  ((c.responseQueue.take (cfg.wPortNr + 1)).flatMap SparseRequest.callbacks).foldl runCallback
    { c with responseQueue := c.responseQueue.drop (cfg.wPortNr + 1) }

/-- The turns of the first `n` subcores of a cycle.
SOURCE: SparseCore.cc:319-322 -/
def turns (cfg : SparseConfig) (env : SparseEnv) (c : SparseCore τ ι) (n : ℕ) :
    Except SparseFault (SparseCore τ ι) :=
  (List.range n).foldlM (subCoreCycle cfg env) { c with coreCycle := c.coreCycle + 1 }

/-- SOURCE: SparseCore.cc:318-356 -/
def cycle (cfg : SparseConfig) (env : SparseEnv) (c : SparseCore τ ι) :
    Except SparseFault (SparseCore τ ι) := do
  let c ← c.turns cfg env cfg.nrCores
  return (c.sendToQueue cfg).takeResponses cfg

end SparseCore

/-- A sparse core and its memory requests that are sent and not answered. -/
structure SparseSystem (τ ι : Type) where
  core : SparseCore τ ι
  inFlight : List (SparseRequest ι) := []

/-- What happens to a sparse core: the simulator gives it a tile that it can take, runs a cycle,
takes a finished tile or a memory request, or delivers the answer to the `n`-th request that is
not answered. -/
inductive SparseAction (τ : Type)
  | issue (t : τ)
  | cycle (env : SparseEnv)
  | popFinishedTile
  | popMemoryRequest
  | pushMemoryResponse (n : ℕ)

namespace SparseSystem

variable {τ ι : Type} [DecidableEq τ] [DecidableEq ι]

/-- A sparse core that has been given no tile. -/
def init (P : TileProgram τ ι) (customData : τ → Bool) (traceAddress : ι → List ℕ) :
    SparseSystem τ ι where
  core := { heap := P.heap, customData, traceAddress }

/-- SOURCE: Simulator.cc:97-157, SparseCore.cc:358-368, 403-410 -/
def step (cfg : SparseConfig) (s : SparseSystem τ ι) :
    SparseAction τ → Except SparseFault (SparseSystem τ ι)
  | .issue t =>
    if s.core.canIssue cfg t then do
      let core ← s.core.issue cfg t
      return { s with core }
    else .ok s
  | .cycle env => do
    let core ← s.core.cycle cfg env
    return { s with core }
  | .popFinishedTile =>
    .ok { s with core := { s.core with finishedTiles := s.core.finishedTiles.tail } }
  | .popMemoryRequest =>
    match s.core.requestQueue with
    | [] => .ok s
    | r :: rest =>
      .ok { core := { s.core with requestQueue := rest }, inFlight := s.inFlight ++ [r] }
  | .pushMemoryResponse n =>
    match s.inFlight[n]? with
    | none => .ok s
    | some r =>
      .ok {
        core := { s.core with responseQueue := s.core.responseQueue ++ [r] }
        inFlight := s.inFlight.eraseIdx n }

end SparseSystem

end PyTorchSim.Model
