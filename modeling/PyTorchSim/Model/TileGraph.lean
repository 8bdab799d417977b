import Mathlib.Logic.Function.Basic
import PyTorchSim.Model.Instruction

/-!
# Tiles, subgraphs and tile graphs

A tile graph is a list of subgraphs, one for each iteration of the outer loops, and a
subgraph is a set of tiles with dependency edges between them.  A core asks the graph
for tiles under a slot; the graph binds a subgraph to a core and a slot until its tiles
are handed out.

Tiles and subgraphs are shared objects in the source.  Here they live in a `Heap` and
are named by an identity of type `τ` and by the number the subgraph got when it was
created.
-/

set_option autoImplicit false

namespace PyTorchSim.Model

/-- SOURCE: Tile.h:13-18 -/
inductive TileStatus
  | initialized
  | running
  | finish
  | empty
  deriving DecidableEq, Repr

/-- A tile.  `ownerGraph` is the number of the subgraph that owns it.
SOURCE: Tile.h:11-63 -/
structure Tile (τ ι : Type) where
  status : TileStatus := .initialized
  requiredSramSize : ℕ := 0
  readyCounter : ℕ := 0
  nrInsts : ℕ := 0
  nrFinishedInsts : ℕ := 0
  instructions : List ι := []
  readyQueue : List ι := []
  childTiles : List τ := []
  ownerGraph : ℕ := 0
  stonneTile : Bool := false

namespace Tile

variable {τ ι : Type}

/-- SOURCE: Tile.cc:20-26 -/
def appendInstruction (t : Tile τ ι) (i : ι) : Tile τ ι :=
  { t with nrInsts := t.nrInsts + 1, instructions := t.instructions ++ [i] }

/-- SOURCE: Tile.h:42-44 -/
def incFinishedInst (t : Tile τ ι) : Tile τ ι :=
  { t with nrFinishedInsts := t.nrFinishedInsts + 1 }

/-- SOURCE: Tile.h:45 -/
def allInstsFinished (t : Tile τ ι) : Bool := t.nrInsts = t.nrFinishedInsts

end Tile

/-- The ways in which handing out tiles stops the program. -/
inductive DispatchFault
  /-- `dec_ready_counter` exits on a counter that is already 0. -/
  | readyCounterZero
  /-- `TileGraph::get_tile` dereferences a null subgraph. -/
  | nullSubgraph
  /-- The deque of tile graphs has no front. -/
  | noFrontGraph
  /-- `Simulator::core_cycle` exits on a tile that is not `INITIALIZED`. -/
  | invalidStatus
  deriving DecidableEq, Repr

/-- A subgraph.  The top of the priority queue `readyTileQueue` is a tile of least
`requiredSramSize`; which one, among equals, is left to the implementation of the queue.
`core_id` -1 lets every core take the subgraph.
SOURCE: TileGraph.h:10-36 -/
structure TileSubGraph (τ : Type) where
  readyTileQueue : List τ := []
  tileSet : List τ := []
  coreId : ℤ := -1

/-- The tile and subgraph objects of the program. -/
structure Heap (τ ι : Type) where
  tile : τ → Tile τ ι
  subgraph : ℕ → TileSubGraph τ

namespace TileSubGraph

variable {τ : Type}

/-- SOURCE: TileGraph.h:15 -/
def isFinished (g : TileSubGraph τ) : Bool := g.readyTileQueue.isEmpty && g.tileSet.isEmpty

/-- `_ready_tile_queue.push(t)`; `_tile_set.erase(t)`
SOURCE: TileGraph.cc:24-25 -/
def makeReady [DecidableEq τ] (g : TileSubGraph τ) (t : τ) : TileSubGraph τ :=
  { g with readyTileQueue := g.readyTileQueue ++ [t], tileSet := g.tileSet.erase t }

end TileSubGraph

namespace Heap

variable {τ ι : Type} [DecidableEq τ]

/-- Replaces a tile. -/
def setTile (h : Heap τ ι) (t : τ) (v : Tile τ ι) : Heap τ ι :=
  { h with tile := Function.update h.tile t v }

/-- Replaces a subgraph. -/
def setSubgraph (h : Heap τ ι) (g : ℕ) (v : TileSubGraph τ) : Heap τ ι :=
  { h with subgraph := Function.update h.subgraph g v }

/-- SOURCE: Tile.cc:8-10 -/
def incReadyCounter (h : Heap τ ι) (t : τ) : Heap τ ι :=
  h.setTile t { h.tile t with readyCounter := (h.tile t).readyCounter + 1 }

/-- SOURCE: Tile.cc:12-18 -/
def decReadyCounter (h : Heap τ ι) (t : τ) : Except DispatchFault (Heap τ ι) :=
  if (h.tile t).readyCounter = 0 then .error .readyCounterZero
  else .ok (h.setTile t { h.tile t with readyCounter := (h.tile t).readyCounter - 1 })

/-- `parent->append_child(child)`
SOURCE: Tile.cc:28-31 -/
def appendChild (h : Heap τ ι) (e : τ × τ) : Heap τ ι :=
  let h := h.incReadyCounter e.2
  h.setTile e.1 { h.tile e.1 with childTiles := (h.tile e.1).childTiles ++ [e.2] }

/-- `subgraph->add_tile(t); t->set_owner(subgraph)`
SOURCE: TileGraph.cc:7-15, TileGraphParser.cc:854-857 -/
def addTile (h : Heap τ ι) (g : ℕ) (t : τ) : Heap τ ι :=
  let sub := h.subgraph g
  let h := h.setSubgraph g
    (if (h.tile t).readyCounter = 0 then { sub with readyTileQueue := sub.readyTileQueue ++ [t] }
     else { sub with tileSet := sub.tileSet.insert t })
  h.setTile t { h.tile t with ownerGraph := g }

/-- `tile->finish_tile()`: the counters of the children.
SOURCE: Tile.cc:33-36 -/
def decChildren (h : Heap τ ι) (t : τ) : Except DispatchFault (Heap τ ι) :=
  (h.tile t).childTiles.foldlM decReadyCounter h

/-- The walk over the children that queues those whose counter has reached 0.
SOURCE: TileGraph.cc:20-26 -/
def queueReadyChildren (h : Heap τ ι) (g : ℕ) (children : List τ) : Heap τ ι :=
  children.foldl (fun h c =>
    if (h.tile c).readyCounter ≠ 0 then h else h.setSubgraph g ((h.subgraph g).makeReady c)) h

/-- `tile->get_owner()->finish_tile(tile)`
SOURCE: TileGraph.cc:17-28, Scheduler.h:12 -/
def finishTile (h : Heap τ ι) (t : τ) : Except DispatchFault (Heap τ ι) := do
  let h ← h.decChildren t
  pure (h.queueReadyChildren (h.tile t).ownerGraph (h.tile t).childTiles)

/-- The tile on top of the ready queue of a subgraph.  Of the tiles that need the least
memory the queue shows one; `tie` says which.
SOURCE: TileGraph.cc:30-35, TileGraph.h:23-27 -/
def topReadyTile (h : Heap τ ι) (g : ℕ) (tie : ℕ) : Option τ :=
  let ready := (h.subgraph g).readyTileQueue
  let least := ready.filter fun t =>
    ready.all fun u => (h.tile t).requiredSramSize ≤ (h.tile u).requiredSramSize
  least[tie % least.length]?

/-- `TileSubGraph::get_tile`: the top tile leaves the queue.  `none` is a tile with status
`EMPTY`.
SOURCE: TileGraph.cc:37-46 -/
def popReadyTile (h : Heap τ ι) (g : ℕ) (tie : ℕ) : Option τ × Heap τ ι :=
  match h.topReadyTile g tie with
  | none => (none, h)
  | some t =>
    let sub := h.subgraph g
    (some t, h.setSubgraph g { sub with readyTileQueue := sub.readyTileQueue.erase t })

end Heap

/-- A tile graph.  `slots` lists the pairs (core, slot) with an entry in the map
`_cpu_graph_map`, and `cpuGraphMap` is the subgraph stored there, `none` for a null pointer.
`subgraphs` lists every subgraph that was appended; nothing but the specification reads it.
SOURCE: TileGraph.h:38-146 -/
structure TileGraph where
  subgraphs : List ℕ := []
  subgraphVec : List ℕ := []
  finishedSubgraphVec : List ℕ := []
  slots : List (ℕ × ℕ) := []
  cpuGraphMap : ℕ × ℕ → Option ℕ := fun _ => none
  arrivalTime : ℕ := 0
  startTime : ℕ := 0
  stonneGraph : Bool := false

namespace TileGraph

variable {τ ι : Type} [DecidableEq τ]

/-- SOURCE: TileGraph.cc:49-52 -/
def appendSubgraph (G : TileGraph) (g : ℕ) : TileGraph :=
  { G with subgraphs := G.subgraphs ++ [g], subgraphVec := G.subgraphVec ++ [g] }

/-- The subgraphs bound to a core and a slot. -/
def allocated (G : TileGraph) : List ℕ := G.slots.filterMap G.cpuGraphMap

/-- `_vec_index` is 0 throughout.
SOURCE: TileGraph.h:42-57 -/
def empty (G : TileGraph) (core : ℕ) : Bool :=
  G.subgraphVec.isEmpty && G.slots.all fun k => k.1 != core || (G.cpuGraphMap k).isNone

/-- SOURCE: TileGraph.cc:54-67 -/
def isFinished (h : Heap τ ι) (G : TileGraph) : Bool :=
  G.subgraphVec.isEmpty && G.allocated.all fun g => (h.subgraph g).isFinished

/-- The first waiting subgraph that the core may take.
SOURCE: TileGraph.cc:112-119 -/
def nextSubgraph (h : Heap τ ι) (G : TileGraph) (core : ℕ) : Option ℕ :=
  G.subgraphVec.find? fun g => (h.subgraph g).coreId == -1 || (h.subgraph g).coreId == (core : ℤ)

/-- `_cpu_graph_map[core][slot] = v`, which creates the entry if it needs to. -/
def setSlot (G : TileGraph) (k : ℕ × ℕ) (v : Option ℕ) : TileGraph :=
  { G with
    slots := if k ∈ G.slots then G.slots else G.slots ++ [k]
    cpuGraphMap := Function.update G.cpuGraphMap k v }

/-- SOURCE: TileGraph.cc:106-121 -/
def allocateSubgraph (h : Heap τ ι) (G : TileGraph) (core slot : ℕ) : TileGraph :=
  let G := { G with
    finishedSubgraphVec := G.finishedSubgraphVec ++ (G.cpuGraphMap (core, slot)).toList }
  let next := G.nextSubgraph h core
  let G := G.setSlot (core, slot) next
  { G with subgraphVec := (next.map G.subgraphVec.erase).getD G.subgraphVec }

/-- `none` is a tile with status `EMPTY`.
SOURCE: TileGraph.cc:69-87 -/
def peekTile (h : Heap τ ι) (G : TileGraph) (core slot tie : ℕ) : Option τ × TileGraph :=
  match G.cpuGraphMap (core, slot) with
  | none => (none, G.allocateSubgraph h core slot)
  | some g =>
    if (h.subgraph g).isFinished then (none, G.allocateSubgraph h core slot)
    else (h.topReadyTile g tie, G)

/-- Unlike `peekTile` it does not look for a null pointer in an entry that exists.
SOURCE: TileGraph.cc:89-104 -/
def getTile (h : Heap τ ι) (G : TileGraph) (core slot tie : ℕ) :
    Except DispatchFault (Option τ × Heap τ ι × TileGraph) :=
  if (core, slot) ∉ G.slots then .ok (none, h, G.allocateSubgraph h core slot)
  else match G.cpuGraphMap (core, slot) with
    | none => .error .nullSubgraph
    | some g =>
      if (h.subgraph g).isFinished then .ok (none, h, G.allocateSubgraph h core slot)
      else
        let (t, h) := h.popReadyTile g tie
        .ok (t, h, G)

end TileGraph

end PyTorchSim.Model
