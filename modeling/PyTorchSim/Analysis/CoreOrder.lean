import PyTorchSim.Analysis.RunEnd

/-!
# The order of the tiles across cores

A scheduler and its cores only share the tiles that they pass.  A tile that a scheduler calls
finished was given to a core of its partition and is no longer held by it, so this core has reported
it and all of its instructions are done.  So a core that gets a tile finds the parents of the tile
done, wherever they ran.
-/

set_option autoImplicit false

namespace PyTorchSim.Analysis

open PyTorchSim.Model PyTorchSim.Library

section Order

variable {τ ι : Type} [DecidableEq τ] [DecidableEq ι] {P : TileProgram τ ι}
  {plans : ℕ → TilePlan τ ι} {cfg : SimulationConfig} {s : Simulator (Core τ ι) τ ι}

/-- A core of the partition has reported the tile, with all of its instructions finished. -/
def DoneOnCore (P : TileProgram τ ι) (cfg : SimulationConfig) (s : Simulator (Core τ ι) τ ι)
    (p : ℕ) (t : τ) : Prop :=
  ∃ core, Works cfg p core ∧ t ∈ (s.cores core).reportedTiles ∧
    ∀ i ∈ instsOf P t, ((s.cores core).heap.inst i).finished = true

/-- A tile that its scheduler calls finished is done on a core. -/
theorem doneOnCore_of_finished (hT : TilesInv P plans cfg s) (hS : Spread plans cfg s) {p : ℕ}
    {t : τ} (ht : t ∈ (s.partition p).sched.finished) : DoneOnCore P cfg s p t := by
  have hhanded := (hT.dispatch p).heap.finished_handed t ht
  obtain ⟨core, hcore, hissued⟩ := hS.placed p t hhanded
  have hledger := (hT.core core).ledger
  have hnot : t ∉ (s.cores core).tiles := by
    intro hmem
    have hheld := hT.held core t (.inl hmem)
    rw [hcore.2] at hheld
    exact hheld ht
  have hreported : t ∈ (s.cores core).reportedTiles := by
    have hsplit := hledger.split.mem_iff.mpr hissued
    exact (List.mem_append.mp hsplit).resolve_left hnot
  exact ⟨core, hcore, hreported, hledger.reported_done t hreported⟩

/-- The tiles are given to the cores in order: a core has a tile only when the parents of the tile
are done, and what a scheduler hands out is with one core of its partition, once. -/
structure OrderKept (P : TileProgram τ ι) (plans : ℕ → TilePlan τ ι) (cfg : SimulationConfig)
    (s : Simulator (Core τ ι) τ ι) : Prop where
  parents : ∀ core, ∀ t ∈ (s.cores core).issuedTiles,
    ∀ u ∈ parents (plans (cfg.partitionMap core)).edges t,
      DoneOnCore P cfg s (cfg.partitionMap core) u
  placed : ∀ p, ∀ t ∈ (s.partition p).sched.handedOut,
    ∃! core, Works cfg p core ∧ t ∈ (s.cores core).issuedTiles
  once : ∀ core, (s.cores core).issuedTiles.Nodup
  finished : ∀ p, ∀ t ∈ (s.partition p).sched.finished, DoneOnCore P cfg s p t

/-- **The order of the tiles holds across the cores**: in every state of a run, on any number of
cores and partitions and for every relation of their clocks, a core that was given a tile finds all
instructions of all parents of the tile finished on cores of its partition; each tile that a
scheduler hands out is with exactly one core of its partition, and not twice; and a tile that a
scheduler calls finished is. -/
theorem order_kept_across_cores (P : TileProgram τ ι) (plans : ℕ → TilePlan τ ι)
    (cfg : SimulationConfig) (s : Simulator (Core τ ι) τ ι)
    (h : Reach (Simulator.step (Core.interface cfg.coreConfig) cfg) (fun _ _ => True)
      (Simulator.init cfg (fun _ => { heap := P.heap }) plans) s) : OrderKept P plans cfg s := by
  obtain ⟨hT, hS⟩ := spread_of_reach h
  refine ⟨?_, ?_, fun core => (hT.core core).ledger.issued_nodup, ?_⟩
  · intro core t ht u hu
    have hheap := (hT.dispatch (cfg.partitionMap core)).heap
    have hready := hheap.handed_ready t (hT.issued core t ht)
    exact doneOnCore_of_finished hT hS (pendingParents_eq_zero.mp hready u (by simpa using hu))
  · intro p t ht
    obtain ⟨core, hcore, hissued⟩ := hS.placed p t ht
    refine ⟨core, ⟨hcore, hissued⟩, ?_⟩
    rintro other ⟨hother, hissued'⟩
    by_contra hne
    exact hT.apart other core hne (hother.2.trans hcore.2.symm) t hissued' hissued
  · intro p t ht
    exact doneOnCore_of_finished hT hS ht

end Order

/-! ## A run on two cores -/

/-- Two tiles with a vector instruction each. -/
def chainHeap : CoreHeap Bool Bool where
  tile := fun t => { status := .initialized, nrInsts := 1, instructions := [t] }
  inst := fun i =>
    { id := i, opcode := .comp, owner := i, computeType := VECTOR_UNIT, computeCycle := 1 }

def chainProgram : TileProgram Bool Bool where
  heap := chainHeap
  insts_nodup := fun _ => List.nodup_singleton _
  owner := fun _ _ hi => List.mem_singleton.mp hi
  nrInsts := fun _ => rfl
  nrFinishedInsts := fun _ => rfl
  readyQueue := fun _ => rfl
  finished := fun _ => rfl
  nrWaitingRequest := fun _ => rfl
  child_nodup := fun _ => List.nodup_nil
  child_mem := fun _ _ _ _ hj => absurd hj List.not_mem_nil
  readyCounter := fun _ _ _ => le_of_eq (List.countP_eq_zero.mpr fun _ _ => by
    simp [chainHeap])

/-- The second tile is a child of the first. -/
def chainPlan : TilePlan Bool Bool where
  graphs := [{ subgraphs := [{ id := 0, tiles := [false, true] }] }]
  edges := [(false, true)]
  blank := chainHeap.tile
  blank_status := fun _ => rfl
  blank_readyCounter := fun _ => rfl
  blank_childTiles := fun _ => rfl
  ids_nodup := List.nodup_singleton _
  tiles_nodup := by simp
  edges_nodup := List.nodup_singleton _
  edges_local := by simp

/-- Two cores of one partition. -/
def twoCores : SimulationConfig := { smallConfig with numCores := 2 }

/-- After 8 cycles the second tile is given to a core, and the first is done. -/
theorem order_kept_across_cores_chain : ∃ s : Simulator (Core Bool Bool) Bool Bool,
    (s.cores 0).issuedTiles ++ (s.cores 1).issuedTiles = [false, true] ∧
      OrderKept chainProgram (fun _ => chainPlan) twoCores s := by
  have hinit : Reach (Simulator.step (Core.interface twoCores.coreConfig) twoCores)
      (fun _ _ => True) (Simulator.init twoCores (fun _ => { heap := chainProgram.heap })
        fun _ => chainPlan) _ := .init
  obtain ⟨s, hreach, hissued⟩ := hinit.exists_of_foldlM
    (.enqueueGraph 0 :: List.replicate 8
      (.tick ⟨true, true, true⟩ { core := fun _ => {}, tie := fun _ _ => 0 }))
    (fun s => (s.cores 0).issuedTiles ++ (s.cores 1).issuedTiles)
    (b := [false, true]) (by decide +kernel) fun _ _ _ => trivial
  exact ⟨s, hissued, order_kept_across_cores chainProgram (fun _ => chainPlan) twoCores s hreach⟩

end PyTorchSim.Analysis
