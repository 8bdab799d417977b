import PyTorchSim.Analysis.SimulatorOutcome
import PyTorchSim.Analysis.RequestQueue

/-!
# No request is lost

Every request that a core pushed is in one queue of the path, or the core has got it back.
Together with the directions of `TrafficInv` this says that a core gets back its own requests,
each once and as a reply.
-/

set_option autoImplicit false

namespace PyTorchSim.Analysis

open PyTorchSim.Model PyTorchSim.Library

variable {κ τ ι ε : Type} [DecidableEq τ] {ops : CoreInterface κ τ ι ε} {cfg : SimulationConfig}
  {s : Simulator κ τ ι}

/-- A queue of the path of a request: in its core, or behind it. -/
inductive PathQueue
  | request (core : ℕ)
  | station (st : Station)

/-- The requests in a queue of the path, by their core and number.  The request queue of a
core holds the numbers after those that left it. -/
def requestsIn (ops : CoreInterface κ τ ι ε) (s : Simulator κ τ ι) : PathQueue → List (ℕ × ℕ)
  | .request core => (List.range (ops.requestQueue (s.cores core)).length).map
      fun k => (core, (s.sent core).length + k)
  | .station st => (stationed s st).map Access.key

/-- The number of requests that a core has pushed so far. -/
def pushed (ops : CoreInterface κ τ ι ε) (s : Simulator κ τ ι) (core : ℕ) : ℕ :=
  (s.sent core).length + (ops.requestQueue (s.cores core)).length

/-- The requests of a simulator are conserved. -/
structure RequestsConserved (ops : CoreInterface κ τ ι ε) (s : Simulator κ τ ι) : Prop where
  placed : ∀ core, ∀ n < pushed ops s core, ∃! q, (core, n) ∈ requestsIn ops s q
  once : ∀ q, (requestsIn ops s q).Nodup
  returned : ∀ core, ∀ a ∈ s.returned core, a.coreId = core ∧
    (s.sent core)[a.requestId]? = some a.fetch ∧ a.mfType = .reply a.fetch.isWrite ∧
      a.replies = 1

omit [DecidableEq τ] in
theorem mem_requestsIn_request {core c n : ℕ} :
    (c, n) ∈ requestsIn ops s (.request core) ↔
      c = core ∧ (s.sent core).length ≤ n ∧ n < pushed ops s core := by
  unfold requestsIn pushed
  rw [List.mem_map]
  constructor
  · rintro ⟨k, hk, heq⟩
    rw [List.mem_range] at hk
    obtain ⟨rfl, rfl⟩ := Prod.mk.inj heq
    exact ⟨rfl, by omega, by omega⟩
  · rintro ⟨rfl, hle, hlt⟩
    refine ⟨n - (s.sent c).length, List.mem_range.mpr (by omega), ?_⟩
    rw [Nat.add_sub_cancel' hle]

omit [DecidableEq τ] in
theorem RequestInv.sent_lt (hI : RequestInv cfg s) {st : Station} {c n : ℕ}
    (h : (c, n) ∈ requestsIn ops s (.station st)) : n < (s.sent c).length := by
  obtain ⟨a, ha, hkey⟩ := List.mem_map.mp h
  obtain ⟨rfl, rfl⟩ := Prod.mk.inj hkey
  exact (List.getElem?_eq_some_iff.mp (hI.traffic.sent st a ha)).1

omit [DecidableEq τ] in
theorem RequestInv.conserved (ops : CoreInterface κ τ ι ε) (hI : RequestInv cfg s) :
    RequestsConserved ops s := by
  refine ⟨fun core n hn => ?_, fun q => ?_, fun core a ha => ?_⟩
  · rcases Nat.lt_or_ge n (s.sent core).length with hsent | hqueued
    · obtain ⟨st, hst⟩ := hI.traffic.placed core n hsent
      refine ⟨.station st, hst, fun q hq => ?_⟩
      cases q with
      | request c =>
          obtain ⟨rfl, hle, -⟩ := mem_requestsIn_request.mp hq
          omega
      | station st' => exact congrArg _ (hI.traffic.exclusive.unique st' st _ hq hst)
    · refine ⟨.request core, mem_requestsIn_request.mpr ⟨rfl, hqueued, hn⟩, fun q hq => ?_⟩
      cases q with
      | request c =>
          obtain ⟨rfl, -, -⟩ := mem_requestsIn_request.mp hq
          rfl
      | station st =>
          have hlt := hI.sent_lt hq
          omega
  · cases q with
    | request core =>
        refine List.Nodup.map (fun k m hkm => ?_) List.nodup_range
        have hsum := (Prod.mk.inj hkm).2
        omega
    | station st => exact hI.traffic.exclusive.nodup st
  · obtain ⟨hin, rfl⟩ := hI.traffic.fits (.returned core) a ha
    exact ⟨rfl, hI.traffic.sent (.returned _) a ha, hin.1, hin.2⟩

/-- **Requests are conserved from end to end.**  In every state that a simulator reaches, with
any cores and any masks, a request that a core pushed is in one queue of the path or was given
back to this core, once and as the reply that `set_reply` made of it; and no step uses a node
that the interconnect does not have. -/
theorem requests_conserved (ops : CoreInterface κ τ ι ε) (cfg : SimulationConfig)
    (cores : ℕ → κ) (P : ℕ → TilePlan τ ι) (s : Simulator κ τ ι)
    (h : Reach (Simulator.step ops cfg) (fun _ _ => True) (Simulator.init cfg cores P) s) :
    RequestsConserved ops s ∧
      ∀ a, Simulator.step ops cfg s a ≠ .error .nodeOutOfRange := by
  have hI : RequestInv cfg s := requestInv_of_reach h
  refine ⟨hI.conserved ops, fun a ha => ?_⟩
  have hout := simStep_outcome ops hI a
  rw [ha] at hout
  obtain ⟨t, -, hbad⟩ := hout
  exact hbad rfl

/-- A tile that loads one element. -/
def oneLoad : TileProgram (Fin 1) (Fin 1) where
  heap := {
    tile := fun _ => { status := .initialized, nrInsts := 1, instructions := [Fin.last 0] }
    inst := fun _ => { id := Fin.last 0, opcode := .movin, owner := Fin.last 0, tileSize := [1],
                       elemBits := 8 } }
  insts_nodup := by decide
  owner := by decide
  nrInsts := by decide
  nrFinishedInsts := by decide
  readyQueue := by decide
  finished := by decide
  nrWaitingRequest := by decide
  child_nodup := by decide
  child_mem := by decide
  readyCounter := by decide

/-- The kernel of this tile. -/
def oneLoadKernel : TilePlan (Fin 1) (Fin 1) where
  graphs := [{ subgraphs := [{ id := 0, tiles := [Fin.last 0] }] }]
  edges := []
  blank := oneLoad.heap.tile
  blank_status := fun _ => rfl
  blank_readyCounter := fun _ => rfl
  blank_childTiles := fun _ => rfl
  ids_nodup := by decide
  tiles_nodup := by decide
  edges_nodup := by decide
  edges_local := by simp

/-- One core and two channels. -/
def smallConfig : SimulationConfig where
  numCores := 1
  dramChannels := 2
  dramReqSize := 32
  dramLatency := 1
  icntLatency := 0
  corePeriod := 1
  dramPeriod := 1
  icntPeriod := 1
  partitions_pos := Nat.one_pos
  partitions_dvd := by decide
  channels_lt := by decide
  reqSize_lt := Nat.lt_two_pow_self

/-- The kernel is launched, and the clocks have seven cycles each. -/
def oneLoadRun : List (SimAction CycleEnv) :=
  .enqueueGraph 0 ::
    List.replicate 7 (.tick ⟨true, true, true⟩ { core := fun _ => {}, tie := fun _ _ => 0 })

/-- In this run the request of the tile comes back to the core. -/
theorem requests_conserved_oneLoad : ∃ s : Simulator (Core (Fin 1) (Fin 1)) (Fin 1) (Fin 1),
    (s.returned 0).map Access.key = [(0, 0)] ∧
      RequestsConserved (Core.interface smallConfig.coreConfig) s ∧
      ∀ a, Simulator.step (Core.interface smallConfig.coreConfig) smallConfig s a ≠
        .error .nodeOutOfRange := by
  have hinit : Reach (Simulator.step (Core.interface smallConfig.coreConfig) smallConfig)
      (fun _ _ => True) (Simulator.init smallConfig (fun _ => { heap := oneLoad.heap })
        fun _ => oneLoadKernel) _ := .init
  obtain ⟨s, hreach, hreturned⟩ := hinit.exists_of_foldlM oneLoadRun
    (fun s => (s.returned 0).map Access.key) (b := [(0, 0)]) (by decide +kernel)
    fun _ _ _ => trivial
  exact ⟨s, hreturned, requests_conserved _ _ _ _ s hreach⟩

end PyTorchSim.Analysis
