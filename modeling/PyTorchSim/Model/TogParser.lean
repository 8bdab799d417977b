import PyTorchSim.Model.Core
import PyTorchSim.Model.Scheduler

/-!
# Tiles from a tile operation graph

The parser turns the node list of a tile operation graph into loop nodes with bodies, and
expands a loop body for one assignment of the loop indices to a list of tiles with their
instructions.  Node, tile and instruction pointers are numbers; objects are created in a
`CoreHeap`.  Two records are kept for the specification: what was made of each load, store,
wait and compute node, and for which indices, and the tiles of each iteration of a loop.

The nodes of a sparse accelerator, whose tiles a `Core` does not take, are left out.
-/

set_option autoImplicit false

namespace PyTorchSim.Model

/-- SOURCE: TileGraphParser.h:30-35 -/
inductive LoopType
  | normalLoop
  | parallelLoop
  | accumulationLoop
  | innerLoop
  deriving DecidableEq, Repr

/-- SOURCE: TileGraphParser.h:172-200 -/
structure TileMemoryNode where
  tileSize : List ℕ
  tileStride : List ℤ
  elemBits : ℕ
  isAsync : Bool
  isIndirect : Bool
  baseAddrName : String
  tagIdxList : List String
  tagStrideList : List ℤ
  loopIdxList : List String
  loopStrideList : List ℤ

/-- SOURCE: TileGraphParser.h:202-217 -/
structure TileMemoryWaitNode where
  tagIdxList : List String
  tagStrideList : List ℤ
  tagDividerList : List ℤ
  baseAddrName : String

/-- SOURCE: TileGraphParser.h:157-170 -/
structure TileComputeNode where
  cycle : ℕ
  overlappingCycle : ℕ
  computeType : ℕ

/-- The header of a loop.  Bounds are numbers of an `int`.
SOURCE: TileGraphParser.h:219-237 -/
structure LoopHeader where
  tileIndexName : String
  start : ℕ
  stop : ℕ
  stride : ℕ
  loopType : LoopType

/-- A node with its number, the numbers of its children and, for a loop, its body.
SOURCE: TileGraphParser.h:37-62, 219-237 -/
inductive TileNode
  | load (id : ℕ) (child : List ℕ) (node : TileMemoryNode)
  | store (id : ℕ) (child : List ℕ) (node : TileMemoryNode)
  | wait (id : ℕ) (child : List ℕ) (node : TileMemoryWaitNode)
  | compute (id : ℕ) (child : List ℕ) (node : TileComputeNode)
  | loop (id : ℕ) (child : List ℕ) (header : LoopHeader) (body : List TileNode)

/-- The ways in which parsing stops the program. -/
inductive ParserFault
  /-- `getLoopIndexValue` throws. -/
  | keyNotFound
  /-- A division by zero. -/
  | divisionByZero
  /-- `.at` throws. -/
  | outOfRange
  /-- A loop with stride 0 does not end. -/
  | endlessLoop
  deriving DecidableEq, Repr

/-- The values of the loop indices (`std::map<std::string, int>`). -/
abbrev LoopIter := String → Option ℤ

/-- `std::atoi` on a list of characters behind an optional sign. -/
def atoi (s : List Char) : ℤ :=
  let digits := fun (l : List Char) =>
    (l.takeWhile Char.isDigit).foldl (fun n d => 10 * n + (d.toNat - '0'.toNat)) 0
  match s.dropWhile Char.isWhitespace with
  | '-' :: rest => -(digits rest : ℤ)
  | '+' :: rest => digits rest
  | rest => digits rest

/-- SOURCE: TileGraphParser.cc:28-46 -/
def getLoopIndexValue (iter : LoopIter) (loopIdx : String) : Except ParserFault ℤ :=
  match loopIdx.toList with
  | 'c' :: numberPart => .ok (atoi numberPart)
  | _ =>
    match iter loopIdx with
    | some value => .ok value
    | none => .error .keyNotFound

/-- The strides of nested loops and the address of an index, as an `int`.  The strides, the products
and the sums are kept modulo 2^32 all the way, so that one conversion at the end does.
SOURCE: TileGraphParser.cc:12-25 -/
def calculateAddress (loopSize loopIdx : List ℕ) : ℤ :=
  let strides := (List.range loopSize.length).map fun i => (loopSize.drop (i + 1)).prod
  i32 ((List.zipWith (· * ·) strides loopIdx).sum : ℕ)

/-- What `_loop_size_map` holds for a loop index; a missing entry is made of zeros.
SOURCE: TileGraphParser.h:72-74 -/
structure LoopSize where
  size : ℤ := 0
  step : ℤ := 0
  loopType : LoopType := .normalLoop

/-- The tables that do not change while tiles are generated: what the file says about its
loops, the attributes of the run and the metadata. -/
structure ParserTables where
  loopSizeMap : String → LoopSize
  argToAddress : String → ℕ
  argNumaStride : String → List ℕ
  systolicSize : ℕ
  sparseTileSet : ℕ → Bool

namespace ParserTables

variable (T : ParserTables)

/-- SOURCE: TileGraphParser.h:74 -/
def getLoopType (key : String) : LoopType := (T.loopSizeMap key).loopType

/-- The step of a loop as `uint32_t`. -/
def getLoopStep (key : String) : ℕ := ((T.loopSizeMap key).step % 2 ^ 32).toNat

/-- The size of a loop as `uint32_t`. -/
def getLoopSize (key : String) : ℕ := ((T.loopSizeMap key).size % 2 ^ 32).toNat

end ParserTables

/-- The value of `z` converted to `uint32_t`. -/
def u32 (z : ℤ) : ℕ := (z % 2 ^ 32).toNat

/-- A division of `uint32_t`. -/
def divU32 (a : ℤ) (b : ℕ) : Except ParserFault ℕ :=
  if b = 0 then .error .divisionByZero else .ok (u32 a / b)

/-- The sum of the products of tag indices and strides.
SOURCE: Instruction.cc:73-77, TileGraphParser.cc:906-910 -/
def keyOffset (tagIdx tagStride : List ℤ) : Except ParserFault ℤ :=
  if tagStride.length < tagIdx.length then .error .outOfRange
  else .ok (List.zipWith (· * ·) tagIdx tagStride).sum

/-- What was made of a node for some loop indices: an instruction, or nothing if the load was
dropped. -/
structure Expansion where
  node : ℕ
  iter : LoopIter
  inst : Option ℕ

/-- The tiles of one iteration of a loop that is no inner loop, and the tile behind the loop. -/
structure Iteration where
  tiles : List ℕ
  next : ℕ

/-- The parser while it generates tiles.  Nothing but the specification reads `record` and
`iterations`. -/
structure ParserState where
  heap : CoreHeap ℕ ℕ
  nextTile : ℕ := 0
  nextInst : ℕ := 0
  tagTable : List (String × List ℤ) := []
  addrNames : List String := []
  indirectCounter : ℕ := 0
  dmaCounter : ℕ := 0
  record : List Expansion := []
  iterations : List Iteration := []

namespace CoreHeap

variable {τ ι : Type} [DecidableEq τ] [DecidableEq ι]

/-- `inst->add_child(child)`; the children are a set.
SOURCE: Instruction.cc:58-61 -/
def addChild (h : CoreHeap τ ι) (i j : ι) : CoreHeap τ ι :=
  let h := h.setInst j { h.inst j with readyCounter := (h.inst j).readyCounter + 1 }
  h.setInst i { h.inst i with
    childInst := if j ∈ (h.inst i).childInst then (h.inst i).childInst
      else (h.inst i).childInst ++ [j] }

/-- SOURCE: Tile.cc:20-26 -/
def appendInstruction (h : CoreHeap τ ι) (t : τ) (i : ι) : CoreHeap τ ι :=
  (h.setInst i { h.inst i with owner := t }).setTile t ((h.tile t).appendInstruction i)

/-- `parent->append_child(child)`
SOURCE: Tile.cc:28-31 -/
def appendChildTile (h : CoreHeap τ ι) (parent child : τ) : CoreHeap τ ι :=
  let h := h.setTile child { h.tile child with readyCounter := (h.tile child).readyCounter + 1 }
  h.setTile parent { h.tile parent with childTiles := (h.tile parent).childTiles ++ [child] }

end CoreHeap

namespace ParserState

/-- `register_addr_name`
SOURCE: TileGraphParser.h:123-127 -/
def registerAddrName (st : ParserState) (name : String) : ParserState × ℕ :=
  if name ∈ st.addrNames then (st, st.addrNames.idxOf name)
  else ({ st with addrNames := st.addrNames ++ [name] }, st.addrNames.length)

/-- `std::make_shared<Tile>(Tile::Status::INITIALIZED)` -/
def newTile (st : ParserState) : ParserState × ℕ :=
  ({ st with
    heap := st.heap.setTile st.nextTile {}
    nextTile := st.nextTile + 1 }, st.nextTile)

end ParserState

/-- A node of the current tile with its instruction; the entries are `link_map`. -/
structure LinkEntry where
  node : ℕ
  child : List ℕ
  inst : ℕ

/-- The expansion of a body: `tile_vec` is `done` with `back` behind it, except while the
iterations of a loop are added.
SOURCE: TileGraphParser.cc:336-341 -/
structure BodyState where
  st : ParserState
  done : List ℕ
  back : ℕ
  linkMap : List LinkEntry

namespace BodyState

/-- A body before its first node. -/
def start (st : ParserState) : BodyState :=
  { st := st.newTile.1, done := [], back := st.newTile.2, linkMap := [] }

/-- SOURCE: TileGraphParser.cc:337 -/
def tileVec (b : BodyState) : List ℕ := b.done ++ [b.back]

/-- `tile_vec.front()` -/
def front (b : BodyState) : ℕ := b.done.headD b.back

/-- The instruction of a node in the current tile. -/
def find? (m : List LinkEntry) (node : ℕ) : Option ℕ :=
  (m.find? (·.node = node)).map (·.inst)

/-- Links the dependencies of the current tile.
SOURCE: TileGraphParser.cc:580-592, 660-670 -/
def link (b : BodyState) : BodyState :=
  { b with st := { b.st with
    heap := b.linkMap.foldl (fun h e => e.child.foldl (fun h c =>
      match find? b.linkMap c with
      | some j => h.addChild e.inst j
      | none => h) h) b.st.heap } }

/-- Makes an instruction and appends it to the current tile.
SOURCE: TileGraphParser.cc:445-446 -/
def append (b : BodyState) (node : ℕ) (child : List ℕ) (iter : LoopIter)
    (inst : Instruction ℕ ℕ) : BodyState :=
  let i := b.st.nextInst
  { b with
    st := { b.st with
      heap := (b.st.heap.setInst i { inst with id := i }).appendInstruction b.back i
      nextInst := i + 1
      record := b.st.record ++ [⟨node, iter, some i⟩] }
    linkMap := b.linkMap ++ [⟨node, child, i⟩] }

end BodyState

/-! ## Nodes -/

section

variable (T : ParserTables)

/-- The loop indices that are parallel loops, divided by their steps, and their sizes; a store
divides the sizes as well.
SOURCE: TileGraphParser.cc:384-392, 456-468 -/
def outerLoopIdx (isStore : Bool) (iter : LoopIter) :
    List String → Except ParserFault (List ℕ × List ℕ)
  | [] => .ok ([], [])
  | loopIdx :: rest =>
    if T.getLoopType loopIdx = .parallelLoop then do
      let value ← getLoopIndexValue iter loopIdx
      let idx ← divU32 value (T.getLoopStep loopIdx)
      let size := if isStore then T.getLoopSize loopIdx / T.getLoopStep loopIdx
        else T.getLoopSize loopIdx
      let (idxs, sizes) ← outerLoopIdx isStore iter rest
      pure (idx :: idxs, size :: sizes)
    else outerLoopIdx isStore iter rest

/-- The quotient of two numbers of an `int`; a quotient that is no `int` traps like a division by
zero. -/
def divI32 (a b : ℤ) : Except ParserFault ℤ :=
  if b = 0 ∨ a = -2 ^ 31 ∧ b = -1 then .error .divisionByZero else .ok (a.tdiv b)

/-- Where the strides are fewer than the loops, the source reads behind their end.
SOURCE: TileGraphParser.cc:400-407, 473-480, Instruction.h:72 -/
def numaId (isStore : Bool) (iter : LoopIter) (node : TileMemoryNode) : Except ParserFault ℕ := do
  let (idxs, sizes) ← outerLoopIdx T isStore iter node.loopIdxList
  let numaStride := T.argNumaStride node.baseAddrName
  if numaStride.isEmpty then
    pure 0
  else if numaStride.length < sizes.length then
    .error .outOfRange
  else
    let numaId ← divI32 (calculateAddress sizes idxs) (calculateAddress sizes numaStride)
    pure (u32 numaId)

/-- The values of the accumulation loops, 0 if there is none.
SOURCE: TileGraphParser.cc:366-382 -/
def accumTagList (iter : LoopIter) (loopIdxList : List String) : Except ParserFault (List ℤ) := do
  let values ← (loopIdxList.filter fun i => T.getLoopType i = .accumulationLoop).mapM
    (getLoopIndexValue iter)
  pure (if values.isEmpty then [0] else values)

/-- The tag indices of a load, in units of a step or of the systolic array.
SOURCE: TileGraphParser.cc:394-404 -/
def loadTagList (iter : LoopIter) (tagIdxList : List String) : Except ParserFault (List ℤ) :=
  tagIdxList.mapM fun loopIdx =>
    if (iter loopIdx).isNone then pure 0
    else do
      let value ← getLoopIndexValue iter loopIdx
      let tag ← divU32 value (min (T.getLoopStep loopIdx) T.systolicSize)
      pure (tag : ℤ)

/-- The byte address of a load or store.  The inner product is made in the type of its initial value,
an `int`.  Where the strides are fewer than the indices, the source reads behind their end.
SOURCE: TileGraphParser.cc:346-358, 450-471 -/
def memoryAddress (iter : LoopIter) (node : TileMemoryNode) : Except ParserFault ℕ := do
  let iterList ← node.loopIdxList.mapM (getLoopIndexValue iter)
  if node.loopStrideList.length < iterList.length then
    .error .outOfRange
  else
    let offset := (List.zipWith (· * ·) iterList node.loopStrideList).foldl
      (fun init product => i32 (init + i32 product)) 0
    pure (u64 ((T.argToAddress node.baseAddrName : ℤ) + offset))

/-- How many of the loop indices are inner loops. -/
def nrInnerLoop (loopIdxList : List String) : ℕ :=
  loopIdxList.countP fun i => T.getLoopType i = .innerLoop

/-- A load, unless one with its name and key was met before.
SOURCE: TileGraphParser.cc:343-446 -/
def expandLoad (id : ℕ) (child : List ℕ) (node : TileMemoryNode) (iter : LoopIter)
    (b : BodyState) : Except ParserFault BodyState := do
  let dramAddr ← memoryAddress T iter node
  let (st, addrId) := b.st.registerAddrName node.baseAddrName
  let inner := nrInnerLoop T node.loopIdxList
  let accum ← accumTagList T iter (node.loopIdxList.take (node.loopIdxList.length - inner))
  let tag ← loadTagList T iter node.tagIdxList
  let numa ← numaId T false iter node
  let offset ← keyOffset tag node.tagStrideList
  let key := (node.baseAddrName, accum ++ [offset])
  if key ∈ st.tagTable then
    pure { b with st := { st with record := st.record ++ [⟨id, iter, none⟩] } }
  else
    let inst : Instruction ℕ ℕ :=
      { id := 0
        opcode := .movin
        owner := 0
        tileSize := node.tileSize
        tileStride := node.tileStride
        elemBits := node.elemBits
        dramAddr := dramAddr
        numaId := numa
        tagKey := (addrId : ℤ) :: (accum ++ [offset])
        addrName := node.baseAddrName
        addrId := addrId
        nrInnerLoop := inner
        isAsyncDma := node.isAsync
        isIndirectMode := node.isIndirect
        isSparseInst := !node.isIndirect && T.sparseTileSet st.dmaCounter }
    let st := { st with
      tagTable := key :: st.tagTable
      indirectCounter := st.indirectCounter + if node.isIndirect then 1 else 0
      dmaCounter := st.dmaCounter + if node.isIndirect then 0 else 1 }
    pure ({ b with st := st }.append id child iter inst)

/-- SOURCE: TileGraphParser.cc:447-501 -/
def expandStore (id : ℕ) (child : List ℕ) (node : TileMemoryNode) (iter : LoopIter)
    (b : BodyState) : Except ParserFault BodyState := do
  let dramAddr ← memoryAddress T iter node
  let (st, addrId) := b.st.registerAddrName node.baseAddrName
  let numa ← numaId T true iter node
  let offset ← keyOffset [0] node.tagStrideList
  let inst : Instruction ℕ ℕ :=
    { id := 0
      opcode := .movout
      owner := 0
      tileSize := node.tileSize
      tileStride := node.tileStride
      elemBits := node.elemBits
      dramAddr := dramAddr
      numaId := numa
      tagKey := [(addrId : ℤ), offset]
      addrName := node.baseAddrName
      addrId := addrId
      nrInnerLoop := nrInnerLoop T node.loopIdxList
      isAsyncDma := node.isAsync
      isIndirectMode := node.isIndirect }
  let st := { st with indirectCounter := st.indirectCounter + if node.isIndirect then 1 else 0 }
  pure ({ b with st := st }.append id child iter inst)

/-- The accumulation indices and the tag indices of a wait.
SOURCE: TileGraphParser.cc:519-532 -/
def waitTagLists (iter : LoopIter) :
    List String → List ℤ → Except ParserFault (List ℤ × List ℤ)
  | [], _ => .ok ([], [])
  | loopIdx :: rest, dividers =>
    if (iter loopIdx).isNone then do
      let (accum, tag) ← waitTagLists iter rest dividers.tail
      pure (accum, 0 :: tag)
    else do
      let value ← getLoopIndexValue iter loopIdx
      if T.getLoopType loopIdx = .accumulationLoop then do
        let (accum, tag) ← waitTagLists iter rest dividers.tail
        pure (value :: accum, tag)
      else
        match dividers with
        | [] => .error .outOfRange
        | divider :: dividers =>
          if divider = 0 then .error .divisionByZero
          else do
            let (accum, tag) ← waitTagLists iter rest dividers
            pure (accum, value.tdiv divider :: tag)

/-- SOURCE: TileGraphParser.cc:502-557 -/
def expandWait (id : ℕ) (child : List ℕ) (node : TileMemoryWaitNode) (iter : LoopIter)
    (b : BodyState) : Except ParserFault BodyState := do
  let (st, addrId) := b.st.registerAddrName node.baseAddrName
  let (accum, tag) ← waitTagLists T iter node.tagIdxList node.tagDividerList
  let accum := if accum.isEmpty then [0] else accum
  let offset ← keyOffset tag (node.tagStrideList.filter (· ≠ -1))
  let inst : Instruction ℕ ℕ :=
    { id := 0
      opcode := .bar
      owner := 0
      dramAddr := T.argToAddress node.baseAddrName
      tagKey := (addrId : ℤ) :: (accum ++ [offset])
      addrName := node.baseAddrName
      addrId := addrId }
  pure ({ b with st := st }.append id child iter inst)

/-- SOURCE: TileGraphParser.cc:558-574 -/
def expandCompute (id : ℕ) (child : List ℕ) (node : TileComputeNode) (iter : LoopIter)
    (b : BodyState) : BodyState :=
  b.append id child iter
    { id := 0
      opcode := .comp
      owner := 0
      computeCycle := node.cycle
      overlappingCycle := node.overlappingCycle
      computeType := node.computeType }

/-! ## Loops -/

/-- The values of a loop index.
SOURCE: TileGraphParser.cc:602 -/
def loopValues (l : LoopHeader) : Except ParserFault (List ℤ) :=
  if l.stop ≤ l.start then .ok []
  else if l.stride = 0 then .error .endlessLoop
  else .ok ((List.range ((l.stop - l.start + l.stride - 1) / l.stride)).map
    fun n => (l.start + n * l.stride : ℕ))

/-- Moves an instruction of an inner loop to the current tile, behind the last instruction
before the loop.
SOURCE: TileGraphParser.cc:608-611 -/
def spliceOne (back : ℕ) (last : Option ℕ) (h : CoreHeap ℕ ℕ) (i : ℕ) : CoreHeap ℕ ℕ :=
  let h := h.appendInstruction back i
  match last with
  | some l => h.addChild l i
  | none => h

/-- SOURCE: TileGraphParser.cc:606-613 -/
def splice (back : ℕ) (last : Option ℕ) (insts : List ℕ) (h : CoreHeap ℕ ℕ) : CoreHeap ℕ ℕ :=
  insts.foldl (spliceOne back last) h

namespace BodyState

/-- The current tile is complete; it becomes the parent of the iterations of a loop, and the
next number is that of the tile behind the loop.
SOURCE: TileGraphParser.cc:580-596 -/
def enterLoop (b : BodyState) : BodyState :=
  let b := b.link
  { st := b.st.newTile.1, done := b.done ++ [b.back], back := b.back, linkMap := [] }

/-- What is done with the tiles of one iteration: those of an inner loop give their
instructions to the parent, those of another loop stand between the parent and the tile
behind the loop.
SOURCE: TileGraphParser.cc:605-621 -/
def addIteration (b : BodyState) (loopType : LoopType) (child : ℕ) (last : Option ℕ)
    (ret : BodyState) : BodyState :=
  let h := ret.st.heap
  if loopType = .innerLoop then
    { b with st := { ret.st with
      heap := splice b.back last (ret.tileVec.flatMap fun t => (h.tile t).instructions) h } }
  else
    { b with
      st := { ret.st with
        heap := (h.appendChildTile b.back ret.front).appendChildTile ret.back child
        iterations := ret.st.iterations ++ [⟨ret.tileVec, child⟩] }
      done := b.done ++ ret.tileVec }

/-- The tile behind the loop becomes the current tile.
SOURCE: TileGraphParser.cc:624-626 -/
def exitLoop (b : BodyState) (child : ℕ) : BodyState :=
  { b with
    st := { b.st with heap := b.st.heap.appendChildTile b.back child }
    back := child }

end BodyState

mutual

/-- SOURCE: TileGraphParser.cc:342-659 -/
def expandNode : TileNode → LoopIter → BodyState → Except ParserFault BodyState
  | .load id child node, iter, b => expandLoad T id child node iter b
  | .store id child node, iter, b => expandStore T id child node iter b
  | .wait id child node, iter, b => expandWait T id child node iter b
  | .compute id child node, iter, b => .ok (expandCompute id child node iter b)
  | .loop _ _ header body, iter, b => do
    let child := b.st.nextTile
    let b := b.enterLoop
    let last := (b.st.heap.tile b.back).instructions.getLast?
    let values ← loopValues header
    let b ← values.foldlM (fun b value => do
      let ret ← expandBody body (Function.update iter header.tileIndexName (some value))
        (.start b.st)
      pure (b.addIteration header.loopType child last ret.link)) b
    pure (b.exitLoop child)

/-- SOURCE: TileGraphParser.cc:342-659 -/
def expandBody : List TileNode → LoopIter → BodyState → Except ParserFault BodyState
  | [], _, b => .ok b
  | node :: nodes, iter, b => do
    let b ← expandNode node iter b
    expandBody nodes iter b

end

/-- SOURCE: TileGraphParser.cc:336-672 -/
def getTilesFromIter (body : List TileNode) (iter : LoopIter) (st : ParserState) :
    Except ParserFault (ParserState × List ℕ) := do
  let b ← expandBody T body iter (.start st)
  let b := b.link
  pure (b.st, b.tileVec)

/-! ## The graph -/

/-- `_loop_nodes.at(depth)`: the headers and bodies of the loops at a depth.
SOURCE: TileGraphParser.cc:863-868 -/
def loopNodes : ℕ → List TileNode → List (LoopHeader × List TileNode)
  | 0, nodes => nodes.filterMap fun
    | .loop _ _ header body => some (header, body)
    | _ => none
  | depth + 1, nodes => (loopNodes 0 nodes).flatMap fun l => loopNodes depth l.2

mutual

/-- The number of loops that a node nests. -/
def TileNode.depth : TileNode → ℕ
  | .loop _ _ _ body => bodyDepth body + 1
  | _ => 0

/-- `_loop_nodes.size()` -/
def bodyDepth : List TileNode → ℕ
  | [] => 0
  | node :: nodes => max node.depth (bodyDepth nodes)

end

mutual

/-- What a loop writes to `_loop_size_map`, and the loops in its body.
SOURCE: TileGraphParser.cc:785-789 -/
def TileNode.registerLoops : TileNode → (String → LoopSize) → String → LoopSize
  | .loop _ _ l body, m => registerLoops body (Function.update m l.tileIndexName
      { size := i32 ((l.stop : ℤ) - l.start), step := i32 l.stride, loopType := l.loopType })
  | _, m => m

/-- What the nodes of a body write to `_loop_size_map`. -/
def registerLoops : List TileNode → (String → LoopSize) → String → LoopSize
  | [], m => m
  | node :: nodes, m => registerLoops nodes (node.registerLoops m)

end

/-- The nodes of a file.  Those before the first loop have no owner and are in no body; a node
behind the first loop asks for the owner at depth -1.
SOURCE: TileGraphParser.cc:870-888, 925-929 -/
def registerTiles : List TileNode → Except ParserFault (List TileNode)
  | [] => .ok []
  | .loop id child header body :: nodes =>
    if nodes.isEmpty then .ok [.loop id child header body] else .error .outOfRange
  | _ :: nodes => registerTiles nodes

/-- The headers of the first loops of each depth, as long as these are parallel loops.
SOURCE: TileGraphParser.cc:828-841 -/
def outerRanges (nodes : List TileNode) : List LoopHeader :=
  ((List.range (bodyDepth nodes)).filterMap fun depth =>
    (loopNodes depth nodes).head?.map (·.1)).takeWhile fun l => l.loopType = .parallelLoop

/-- The values that the iterator gives to an index: the first one also if the range is empty.
SOURCE: TileGraph.h:76-101 -/
def iteratorValues (l : LoopHeader) : Except ParserFault (List ℤ) := do
  let values ← loopValues l
  pure (if values.isEmpty then [(l.start : ℤ)] else values)

/-- The index values that the iterator goes through, the last index fastest.
SOURCE: TileGraph.h:85-113 -/
def outerIndices : List LoopHeader → LoopIter → Except ParserFault (List LoopIter)
  | [], iter => .ok [iter]
  | l :: ls, iter => do
    let values ← iteratorValues l
    let iters ← values.mapM fun value =>
      outerIndices ls (Function.update iter l.tileIndexName (some value))
    pure iters.flatten

/-- `subgraph->add_tile(t); t->set_owner(subgraph)`: what is written to the tile and to its
instructions.
SOURCE: TileGraph.cc:7-9, TileGraphParser.cc:854-857 -/
def CoreHeap.setSubgraph (h : CoreHeap ℕ ℕ) (g t : ℕ) : CoreHeap ℕ ℕ :=
  (h.tile t).instructions.foldl
    (fun h i => h.setInst i { h.inst i with subgraphId := g })
    (h.setTile t { h.tile t with ownerGraph := g })

/-- The tiles of one loop for one assignment of the outer indices.
SOURCE: TileGraphParser.cc:848-857 -/
def addLoop (body : List TileNode) (iter : LoopIter) (g : ℕ) (st : ParserState) :
    Except ParserFault (ParserState × List ℕ) := do
  let (st, tiles) ← getTilesFromIter T body iter { st with tagTable := [] }
  pure ({ st with heap := tiles.foldl (fun h t => h.setSubgraph g t) st.heap }, tiles)

/-- The subgraph of one assignment of the outer indices.
SOURCE: TileGraphParser.cc:848-858 -/
def addLoops (iter : LoopIter) (g : ℕ) :
    List (LoopHeader × List TileNode) → ParserState → Except ParserFault (ParserState × List ℕ)
  | [], st => .ok (st, [])
  | l :: ls, st => do
    let (st, tiles) ← addLoop T l.2 iter g st
    let (st, rest) ← addLoops iter g ls st
    pure (st, tiles ++ rest)

/-- One subgraph for each assignment of the outer indices, numbered from `g` on.
SOURCE: TileGraphParser.cc:843-861 -/
def addSubgraphs (coreOf : ℕ → ℤ) (loops : List (LoopHeader × List TileNode)) :
    List LoopIter → ℕ → ParserState → Except ParserFault (ParserState × List (SubGraphPlan ℕ))
  | [], _, st => .ok (st, [])
  | iter :: iters, g, st => do
    let (st, tiles) ← addLoops T iter g loops st
    let (st, rest) ← addSubgraphs coreOf loops iters (g + 1) st
    pure (st, { id := g, coreId := coreOf g, tiles := tiles } :: rest)

/-- The parser before it has made a tile. -/
def ParserState.init : ParserState where
  heap := { tile := fun _ => {}, inst := fun i => { id := i, opcode := .comp, owner := 0 } }

/-- The tile graph of a file.  `coreOf` is `getCoreIdFromConfig`, and `g` is the number that
the next subgraph gets.
SOURCE: TileGraphParser.cc:771-861 -/
def tileGraphParser (coreOf : ℕ → ℤ) (g : ℕ) (file : List TileNode) :
    Except ParserFault (ParserState × List (SubGraphPlan ℕ)) := do
  let nodes ← registerTiles file
  let T := { T with loopSizeMap := registerLoops file fun _ => {} }
  if nodes.isEmpty then pure (.init, [])
  else
    let outer := outerRanges nodes
    -- `_loop_nodes.at(last_outer_idx)` with index -1
    if outer.isEmpty then .error .outOfRange
    else
      let iters ← outerIndices outer fun _ => none
      addSubgraphs T coreOf (loopNodes (outer.length - 1) nodes) iters g .init

end

end PyTorchSim.Model
