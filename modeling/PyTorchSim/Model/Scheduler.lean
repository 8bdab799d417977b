import PyTorchSim.Model.TileGraph

/-!
# The scheduler of a partition

A scheduler keeps a queue of tile graphs, one for each kernel, and hands out tiles of the
graph in front.  `TilePlan` is what the parser leaves behind for the kernels of a
partition: their subgraphs, the tiles of each and the dependency edges.  The heap and the
graphs are built from it with the calls the parser makes.

`Dispatch.step` makes one of the calls that the simulator makes to a scheduler.
-/

set_option autoImplicit false

namespace PyTorchSim.Model

/-- SOURCE: SimulationConfig.h:13 -/
inductive CoreType
  | wsMesh
  | stonne
  deriving DecidableEq, Repr

/-- What a scheduler did: it handed out a tile, it was told that a tile is finished, or it
removed a graph and reported the completion of its kernel. -/
inductive DispatchEvent (τ : Type)
  | handedOut (t : τ)
  | finished (t : τ)
  | completed (G : TileGraph) (startTime computeTime : ℕ)

/-- The tiles reported finished in a record of events. -/
def finishedIn {τ : Type} (events : List (DispatchEvent τ)) : List τ :=
  events.filterMap fun | .finished t => some t | _ => none

/-- SOURCE: Scheduler.h:8-26 -/
structure Scheduler (τ ι : Type) where
  heap : Heap τ ι
  tileGraph : List TileGraph := []
  events : List (DispatchEvent τ) := []

namespace Scheduler

variable {τ ι : Type} [DecidableEq τ]

/-- The tiles handed out so far. -/
def handedOut (s : Scheduler τ ι) : List τ :=
  s.events.filterMap fun | .handedOut t => some t | _ => none

/-- The tiles reported finished so far. -/
def finished (s : Scheduler τ ι) : List τ := finishedIn s.events

/-- The graphs removed so far. -/
def completed (s : Scheduler τ ι) : List TileGraph :=
  s.events.filterMap fun | .completed G _ _ => some G | _ => none

/-- Appends to the record of what happened. -/
def log (s : Scheduler τ ι) (e : DispatchEvent τ) : Scheduler τ ι :=
  { s with events := s.events ++ [e] }

/-- SOURCE: Scheduler.cc:47-71 -/
def refreshStatus (s : Scheduler τ ι) (now : ℕ) : Scheduler τ ι :=
  match s.tileGraph with
  | [] => s
  | G :: rest =>
    if G.isFinished s.heap then
      let startTime := if G.startTime > 0 then G.startTime else G.arrivalTime
      { s with tileGraph := rest }.log (.completed G startTime (u64 ((now : ℤ) - startTime)))
    else s

/-- SOURCE: Scheduler.cc:7-10 -/
def enqueueGraph (s : Scheduler τ ι) (now : ℕ) (G : TileGraph) : Scheduler τ ι :=
  { s with tileGraph := s.tileGraph ++ [G] }.refreshStatus now

/-- SOURCE: Scheduler.cc:35-39 -/
def empty (s : Scheduler τ ι) : Bool := s.tileGraph.isEmpty

/-- SOURCE: Scheduler.cc:41-45 -/
def emptyFor (s : Scheduler τ ι) (core : ℕ) : Bool :=
  match s.tileGraph with
  | [] => true
  | G :: _ => G.empty core

/-- SOURCE: Scheduler.cc:12-18 -/
def peekTile (s : Scheduler τ ι) (now core slot tie : ℕ) (ctype : CoreType) :
    Option τ × Scheduler τ ι :=
  match s.tileGraph with
  | [] => (none, s)
  | G :: rest =>
    if G.arrivalTime > now then (none, s)
    else if (!G.stonneGraph && ctype = .wsMesh) || (G.stonneGraph && ctype = .stonne) then
      let (t, G) := G.peekTile s.heap core slot tie
      (t, { s with tileGraph := G :: rest })
    else (none, s)

/-- SOURCE: Scheduler.cc:20-33 -/
def getTile (s : Scheduler τ ι) (now core slot tie : ℕ) :
    Except DispatchFault (Option τ × Scheduler τ ι) :=
  if s.emptyFor core then .ok (none, s)
  else match s.tileGraph with
    | [] => .error .noFrontGraph
    | G :: rest => do
      let (t, heap, G) ← G.getTile s.heap core slot tie
      let s := { s with heap := heap, tileGraph := G :: rest }
      match t with
      | none => pure (none, s.refreshStatus now)
      | some t =>
        let G := if G.startTime = 0 then { G with startTime := now } else G
        let s := { s with tileGraph := G :: rest }.log (.handedOut t)
        pure (some t, s.refreshStatus now)

/-- SOURCE: Scheduler.h:12 -/
def finishTile (s : Scheduler τ ι) (t : τ) : Except DispatchFault (Scheduler τ ι) := do
  let heap ← s.heap.finishTile t
  pure ({ s with heap := heap }.log (.finished t))

end Scheduler

/-- A subgraph as the parser builds it: its number, its core and its tiles in the order in
which they are added. -/
structure SubGraphPlan (τ : Type) where
  id : ℕ
  coreId : ℤ := -1
  tiles : List τ

/-- A tile graph as the parser builds it. -/
structure GraphPlan (τ : Type) where
  subgraphs : List (SubGraphPlan τ)
  arrivalTime : ℕ := 0
  stonneGraph : Bool := false

/-- The tiles of a tile graph. -/
def GraphPlan.tiles {τ : Type} (G : GraphPlan τ) : List τ := G.subgraphs.flatMap (·.tiles)

/-- The kernels of a partition: their tile graphs, the dependency edges (parent, child)
in the order of the calls of `append_child`, and the tiles before these calls.  Every
subgraph has its own number and every tile its own place, and an edge joins two tiles of
one subgraph. -/
structure TilePlan (τ ι : Type) where
  graphs : List (GraphPlan τ)
  edges : List (τ × τ)
  blank : τ → Tile τ ι
  blank_status : ∀ t, (blank t).status = .initialized
  blank_readyCounter : ∀ t, (blank t).readyCounter = 0
  blank_childTiles : ∀ t, (blank t).childTiles = []
  ids_nodup : ((graphs.flatMap (·.subgraphs)).map (·.id)).Nodup
  tiles_nodup : ((graphs.flatMap (·.subgraphs)).flatMap (·.tiles)).Nodup
  edges_nodup : edges.Nodup
  edges_local : ∀ e ∈ edges, ∃ sg ∈ graphs.flatMap (·.subgraphs), e.1 ∈ sg.tiles ∧ e.2 ∈ sg.tiles

namespace TilePlan

/-- Kernels whose tiles are as they are made. -/
def ofFresh {τ ι : Type} (graphs : List (GraphPlan τ)) (edges : List (τ × τ))
    (ids_nodup : ((graphs.flatMap (·.subgraphs)).map (·.id)).Nodup)
    (tiles_nodup : ((graphs.flatMap (·.subgraphs)).flatMap (·.tiles)).Nodup)
    (edges_nodup : edges.Nodup)
    (edges_local : ∀ e ∈ edges, ∃ sg ∈ graphs.flatMap (·.subgraphs),
      e.1 ∈ sg.tiles ∧ e.2 ∈ sg.tiles) : TilePlan τ ι where
  graphs := graphs
  edges := edges
  blank := fun _ => {}
  blank_status := fun _ => rfl
  blank_readyCounter := fun _ => rfl
  blank_childTiles := fun _ => rfl
  ids_nodup := ids_nodup
  tiles_nodup := tiles_nodup
  edges_nodup := edges_nodup
  edges_local := edges_local

variable {τ ι : Type} [DecidableEq τ]

/-- All subgraphs of all kernels. -/
def subgraphs (P : TilePlan τ ι) : List (SubGraphPlan τ) := P.graphs.flatMap (·.subgraphs)

/-- Every subgraph has a tile. -/
def Populated (P : TilePlan τ ι) : Prop := ∀ sg ∈ P.subgraphs, sg.tiles ≠ []

/-- The heap once every edge is there and every tile is added to its subgraph.
SOURCE: TileGraphParser.cc:844-861 -/
def heap (P : TilePlan τ ι) : Heap τ ι :=
  P.subgraphs.foldl
    (fun h sg => sg.tiles.foldl (fun h t => h.addTile sg.id t)
      (h.setSubgraph sg.id { coreId := sg.coreId }))
    (P.edges.foldl Heap.appendChild { tile := P.blank, subgraph := fun _ => {} })

end TilePlan

/-- The tile graph object of a plan.
SOURCE: TileGraphParser.cc:817-820, TileGraphParser.cc:860 -/
def GraphPlan.graph {τ : Type} (G : GraphPlan τ) : TileGraph :=
  G.subgraphs.foldl (fun g sg => g.appendSubgraph sg.id)
    { arrivalTime := G.arrivalTime, stonneGraph := G.stonneGraph }

/-- A scheduler and the kernels that are still to be launched. -/
structure Dispatch (τ ι : Type) where
  sched : Scheduler τ ι
  pending : List TileGraph

/-- The calls the simulator makes to a scheduler.  `issue` is a `peek_tile` whose tile, if
there is one, the core takes with `get_tile`; nothing comes between the two. -/
inductive DispatchCall (τ : Type)
  | launch (now : ℕ)
  | peek (now core slot tie : ℕ) (ctype : CoreType)
  | issue (now core slot tie : ℕ) (ctype : CoreType)
  | finish (t : τ)

namespace Dispatch

variable {τ ι : Type} [DecidableEq τ]

/-- The state before the first kernel is launched. -/
def init (P : TilePlan τ ι) : Dispatch τ ι :=
  { sched := { heap := P.heap }, pending := P.graphs.map (·.graph) }

/-- SOURCE: Simulator.cc:97-119, Simulator.h:44-46 -/
def step (s : Dispatch τ ι) : DispatchCall τ → Except DispatchFault (Dispatch τ ι)
  | .launch now =>
    match s.pending with
    | [] => .ok s
    | G :: rest => .ok { sched := s.sched.enqueueGraph now G, pending := rest }
  | .peek now core slot tie ctype =>
    .ok { s with sched := (s.sched.peekTile now core slot tie ctype).2 }
  | .issue now core slot tie ctype =>
    match s.sched.peekTile now core slot tie ctype with
    | (none, sched) => .ok { s with sched := sched }
    | (some t, sched) =>
      if (sched.heap.tile t).status ≠ .initialized then .error .invalidStatus
      else do
        let (_, sched) ← sched.getTile now core slot tie
        pure { s with sched := sched }
  | .finish t => do
    let sched ← s.sched.finishTile t
    pure { s with sched := sched }

/-- A core reports a tile it was given, and reports it once. -/
def Legal (s : Dispatch τ ι) : DispatchCall τ → Prop
  | .finish t => t ∈ s.sched.handedOut ∧ t ∉ s.sched.finished
  | _ => True

end Dispatch

end PyTorchSim.Model
