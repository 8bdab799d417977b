import PyTorchSim.Analysis.DmaBookkeeping
import PyTorchSim.Analysis.OpenKernels

/-!
# The end of a run

The loop of the simulator stops when no core works, no scheduler shows a tile to its cores and the
DRAM is empty; the interconnect is not asked.  Every tile that a scheduler handed out was given to a
core of its partition, so when the loop stops and every kernel has a tile, the queues of the
schedulers are empty, the tiles of the launched kernels are done, and no core waits for a request.
-/

set_option autoImplicit false

namespace PyTorchSim.Analysis

open PyTorchSim.Model PyTorchSim.Library

variable {τ ι : Type} [DecidableEq τ] [DecidableEq ι] {P : TileProgram τ ι}
  {plans : ℕ → TilePlan τ ι} {cfg : SimulationConfig} {s s' : Simulator (Core τ ι) τ ι}

/-- A core of a partition. -/
def Works (cfg : SimulationConfig) (p core : ℕ) : Prop :=
  core < cfg.numCores ∧ cfg.partitionMap core = p

/-- What the schedulers handed out is spread over the cores of their partitions. -/
structure Spread (plans : ℕ → TilePlan τ ι) (cfg : SimulationConfig)
    (s : Simulator (Core τ ι) τ ι) : Prop where
  front : ∀ p, Filled (plans p) → FrontOpen (plans p) (s.partition p)
  retired : ∀ p, RetiredDone (plans p) (s.partition p)
  slots : ∀ p, SlotsOf (Works cfg p) (s.partition p)
  placed : ∀ p, ∀ t ∈ (s.partition p).sched.handedOut,
    ∃ core, Works cfg p core ∧ t ∈ (s.cores core).issuedTiles

/-- No core is given a tile, and no scheduler is called. -/
structure Still (s s' : Simulator (Core τ ι) τ ι) : Prop where
  partition : s'.partition = s.partition
  issued : ∀ core, (s'.cores core).issuedTiles = (s.cores core).issuedTiles

namespace Still

omit [DecidableEq τ] [DecidableEq ι] in
theorem refl (s : Simulator (Core τ ι) τ ι) : Still s s := ⟨rfl, fun _ => rfl⟩

omit [DecidableEq τ] [DecidableEq ι] in
theorem trans {s'' : Simulator (Core τ ι) τ ι} (h : Still s s') (h' : Still s' s'') :
    Still s s'' :=
  ⟨h'.partition.trans h.partition, fun core => (h'.issued core).trans (h.issued core)⟩

omit [DecidableEq τ] [DecidableEq ι] in
/-- A core goes on without a new tile. -/
theorem setCore {k : ℕ} {c : Core τ ι} (hc : c.issuedTiles = (s.cores k).issuedTiles)
    (hcores : s'.cores = Function.update s.cores k c) (hpartition : s'.partition = s.partition) :
    Still s s' := by
  refine ⟨hpartition, fun core => ?_⟩
  rw [hcores]
  by_cases hk : core = k
  · subst hk
    rw [Function.update_self, hc]
  · rw [Function.update_of_ne hk]

end Still

namespace Spread

omit [DecidableEq τ] [DecidableEq ι] in
theorem still (hS : Spread plans cfg s) (h : Still s s') : Spread plans cfg s' := by
  refine ⟨?_, ?_, ?_, fun p t ht => ?_⟩
  · rw [h.partition]
    exact hS.front
  · rw [h.partition]
    exact hS.retired
  · rw [h.partition]
    exact hS.slots
  · rw [h.partition] at ht
    obtain ⟨core, hcore, hissued⟩ := hS.placed p t ht
    refine ⟨core, hcore, ?_⟩
    rw [h.issued]
    exact hissued

omit [DecidableEq τ] [DecidableEq ι] in
/-- A scheduler goes on, and what it hands out goes to a core of its partition. -/
theorem setPartition {p : ℕ} {d : Dispatch τ ι} (hS : Spread plans cfg s)
    (hfront : Filled (plans p) → FrontOpen (plans p) d) (hretired : RetiredDone (plans p) d)
    (hslots : SlotsOf (Works cfg p) d)
    (hcores : ∀ core, ∀ t ∈ (s.cores core).issuedTiles, t ∈ (s'.cores core).issuedTiles)
    (hplaced : ∀ t ∈ d.sched.handedOut, t ∉ (s.partition p).sched.handedOut →
      ∃ core, Works cfg p core ∧ t ∈ (s'.cores core).issuedTiles)
    (hpartition : s'.partition = Function.update s.partition p d) : Spread plans cfg s' := by
  have hold : ∀ q, ∀ t ∈ (s.partition q).sched.handedOut,
      ∃ core, Works cfg q core ∧ t ∈ (s'.cores core).issuedTiles := by
    intro q t ht
    obtain ⟨core, hcore, hissued⟩ := hS.placed q t ht
    exact ⟨core, hcore, hcores core t hissued⟩
  have hcases : ∀ q, (q = p ∧ s'.partition q = d) ∨ s'.partition q = s.partition q := by
    intro q
    rw [hpartition]
    by_cases hq : q = p
    · subst hq
      exact .inl ⟨rfl, Function.update_self ..⟩
    · exact .inr (Function.update_of_ne hq ..)
  refine ⟨fun q => ?_, fun q => ?_, fun q => ?_, fun q t ht => ?_⟩
  · rcases hcases q with ⟨rfl, heq⟩ | heq <;> rw [heq]
    · exact hfront
    · exact hS.front q
  · rcases hcases q with ⟨rfl, heq⟩ | heq <;> rw [heq]
    · exact hretired
    · exact hS.retired q
  · rcases hcases q with ⟨rfl, heq⟩ | heq <;> rw [heq]
    · exact hslots
    · exact hS.slots q
  · rcases hcases q with ⟨rfl, heq⟩ | heq
    · rw [heq] at ht
      by_cases hin : t ∈ (s.partition q).sched.handedOut
      · exact hold q t hin
      · exact hplaced t ht hin
    · rw [heq] at ht
      exact hold q t ht

omit [DecidableEq τ] [DecidableEq ι] in
/-- A scheduler keeps its graphs and hands out nothing. -/
theorem setScheduler {p : ℕ} {q : Scheduler τ ι} (hS : Spread plans cfg s)
    (hgraphs : q.tileGraph = (s.partition p).sched.tileGraph)
    (hhanded : q.handedOut = (s.partition p).sched.handedOut)
    (hcompleted : q.completed = (s.partition p).sched.completed) :
    Spread plans cfg (s.setScheduler p q) := by
  have hfront : Filled (plans p) → FrontOpen (plans p) { s.partition p with sched := q } := by
    unfold FrontOpen
    rw [hgraphs, hhanded]
    exact hS.front p
  have hslots : SlotsOf (Works cfg p) { s.partition p with sched := q } := by
    unfold SlotsOf
    rw [hgraphs]
    exact hS.slots p
  have hretired : RetiredDone (plans p) { s.partition p with sched := q } :=
    (hS.retired p).of_subset hcompleted fun t ht => hhanded ▸ ht
  refine hS.setPartition hfront hretired hslots (fun _ _ => id) (fun t ht hnot => ?_) rfl
  rw [hhanded] at ht
  exact absurd ht hnot

omit [DecidableEq ι] in
/-- Before the first kernel is launched. -/
theorem init (plans : ℕ → TilePlan τ ι) (cfg : SimulationConfig) (cores : ℕ → Core τ ι) :
    Spread plans cfg (Simulator.init cfg cores plans) := by
  refine ⟨fun p _ G hG => ?_, fun p plan hplan => ?_, fun p => .init (plans p),
    fun p t ht => absurd ht List.not_mem_nil⟩
  · cases hG
  · cases hplan

end Spread

/-! ## A cycle of the cores -/

section CoreCycle

/-- A core is asked whether it takes a tile. -/
theorem offerTile_spread {slot tie core : ℕ} {b : Bool} (hcore : core < cfg.numCores)
    (hT : TilesInv P plans cfg s) (hS : Spread plans cfg s)
    (h : Simulator.offerTile (Core.interface cfg.coreConfig) cfg slot tie core s = .ok (s', b)) :
    TilesInv P plans cfg s' ∧ Spread plans cfg s' := by
  have hout : Outcome (SimStep (Core.interface cfg.coreConfig) cfg) NodesExist s Prod.fst
      (Simulator.offerTile (Core.interface cfg.coreConfig) cfg slot tie core s) :=
    offerTile_outcome slot tie core
  rw [h] at hout
  refine ⟨Outcome.invariant (fun _ _ hI hstep => SimStep.tiles hstep hI) hout hT, ?_⟩
  have hworks : Works cfg (cfg.partitionMap core) core := ⟨hcore, rfl⟩
  have hdispatch := hT.dispatch (cfg.partitionMap core)
  unfold Simulator.offerTile at h
  obtain ⟨p, hp, h⟩ := bind_eq_ok.mp h
  obtain rfl := schedulerOf_ok hp
  rcases hpeek : (s.partition (cfg.partitionMap core)).sched.peekTile s.coreCycles core slot tie
    (cfg.coreType core) with ⟨tile, sched⟩
  -- whether or not the core takes a tile, the scheduler may bind a subgraph to it
  have hshown : Spread plans cfg (s.setScheduler (cfg.partitionMap core) sched) := by
    have heffect := @DispatchInv.effect_peek _ _ _ (plans (cfg.partitionMap core))
      (s.partition (cfg.partitionMap core))
      (.peek s.coreCycles core slot tie (cfg.coreType core))
      s.coreCycles core slot tie (cfg.coreType core)
    have hfront := fun hP => (hS.front (cfg.partitionMap core) hP).of_effect hP hdispatch heffect
    have hretired := (hS.retired (cfg.partitionMap core)).of_effect hdispatch heffect
    have hslots := (hS.slots (cfg.partitionMap core)).peek s.coreCycles core slot tie
      (cfg.coreType core) hworks
    have hsame := (peek_records hdispatch s.coreCycles core slot tie (cfg.coreType core)).2.1
    rw [hpeek] at hfront hretired hslots hsame
    refine hS.setPartition hfront hretired hslots (fun _ _ => id) (fun t ht hnot => ?_) rfl
    exact absurd (hsame ▸ ht) hnot
  rw [hpeek] at h
  cases tile with
  | none =>
      cases h
      exact hshown
  | some t =>
      dsimp only at h
      split at h
      · split at h
        · obtain ⟨⟨u, taken⟩, hget, h⟩ := bind_eq_ok.mp h
          have hget := mapError_ok hget
          cases u with
          | none => cases h
          | some u =>
              cases h
              obtain ⟨-, rfl, -, hhanded, -⟩ := issue_records hdispatch hpeek hget
              have heffect := effect_issue hdispatch hpeek hget
              rw [setScheduler_setScheduler]
              refine hS.setPartition (fun hP => (hS.front _ hP).of_effect hP hdispatch heffect)
                ((hS.retired _).of_effect hdispatch heffect)
                ((hS.slots _).issue hdispatch hpeek hget) (fun k t ht => ?_) (fun t ht hnot => ?_)
                rfl
              · show t ∈ (Function.update s.cores core ((s.cores core).issue u) k).issuedTiles
                by_cases hk : k = core
                · subst hk
                  rw [Function.update_self]
                  show t ∈ (Core.log _ (.tileIssued u)).issuedTiles
                  rw [Core.issuedTiles_log]
                  exact List.mem_append_left _ ht
                · rw [Function.update_of_ne hk]
                  exact ht
              · refine ⟨core, hworks, ?_⟩
                change t ∈ taken.handedOut at ht
                rw [hhanded] at ht
                obtain rfl := List.mem_singleton.mp ((List.mem_append.mp ht).resolve_left hnot)
                show t ∈ (Function.update s.cores core ((s.cores core).issue t) core).issuedTiles
                rw [Function.update_self]
                show t ∈ (Core.log _ (.tileIssued t)).issuedTiles
                rw [Core.issuedTiles_log]
                exact List.mem_append_right _ List.mem_cons_self
        · cases h
      · cases h
        exact hshown

theorem offerTiles_spread {slot : ℕ} {tie : ℕ → ℕ} (l : List ℕ)
    (hl : ∀ core ∈ l, core < cfg.numCores) (hT : TilesInv P plans cfg s) (hS : Spread plans cfg s)
    (h : Simulator.offerTiles (Core.interface cfg.coreConfig) cfg slot tie l s = .ok s') :
    TilesInv P plans cfg s' ∧ Spread plans cfg s' := by
  induction l generalizing s with
  | nil =>
      cases h
      exact ⟨hT, hS⟩
  | cons core l ih =>
      unfold Simulator.offerTiles at h
      obtain ⟨⟨t, taken⟩, ht, h⟩ := bind_eq_ok.mp h
      obtain ⟨hT', hS'⟩ := offerTile_spread (hl core List.mem_cons_self) hT hS ht
      dsimp only at h
      split at h
      · cases h
        exact ⟨hT', hS'⟩
      · exact ih (fun k hk => hl k (List.mem_cons_of_mem core hk)) hT' hS' h

theorem issueTiles_spread {env : TickEnv CycleEnv} (hT : TilesInv P plans cfg s)
    (hS : Spread plans cfg s)
    (h : Simulator.issueTiles (Core.interface cfg.coreConfig) cfg env s = .ok s') :
    TilesInv P plans cfg s' ∧ Spread plans cfg s' := by
  refine foldlM_invariant (I := fun t => TilesInv P plans cfg t ∧ Spread plans cfg t) _ h
    ⟨hT, hS⟩ ?_
  rintro t i t' - ⟨hT, hS⟩ h
  obtain ⟨u, hu, h⟩ := bind_eq_ok.mp h
  cases h
  obtain ⟨hT', hS'⟩ := offerTiles_spread _ (fun core hcore => List.mem_range.mp hcore) hT hS hu
  exact ⟨hT'.congr rfl rfl, hS'.still ⟨rfl, fun _ => rfl⟩⟩

/-- A core reports a tile and has its cycle. -/
theorem cycleCore_spread {env : TickEnv CycleEnv} {core : ℕ} (hT : TilesInv P plans cfg s)
    (hS : Spread plans cfg s)
    (h : Simulator.cycleCore (Core.interface cfg.coreConfig) cfg env s core = .ok s') :
    TilesInv P plans cfg s' ∧ Spread plans cfg s' := by
  unfold Simulator.cycleCore at h
  obtain ⟨t, hreport, h⟩ := bind_eq_ok.mp h
  obtain ⟨c, hcycle, h⟩ := bind_eq_ok.mp h
  cases h
  have hT₁ : TilesInv P plans cfg t := (reportTile_move hreport).1.tiles hT
  have hS₁ : Spread plans cfg t := by
    have hissued : (s.cores core).popFinishedTile.2.issuedTiles = (s.cores core).issuedTiles := by
      unfold Core.popFinishedTile
      split <;> rfl
    unfold Simulator.reportTile at hreport
    rcases hpop : (Core.interface cfg.coreConfig).popFinishedTile (s.cores core) with ⟨tile, c⟩
    have hc : c.issuedTiles = (s.cores core).issuedTiles := by
      have hsnd : c = (s.cores core).popFinishedTile.2 := (congrArg Prod.snd hpop).symm
      rw [hsnd, hissued]
    rw [hpop] at hreport
    cases tile with
    | none =>
        cases hreport
        exact hS.still (.setCore hc rfl rfl)
    | some u =>
        obtain ⟨q, hq, hreport⟩ := bind_eq_ok.mp hreport
        obtain rfl := schedulerOf_ok hq
        obtain ⟨sched, hsched, hreport⟩ := bind_eq_ok.mp hreport
        cases hreport
        have hstill : Spread plans cfg (s.setCore core c) := hS.still (.setCore hc rfl rfl)
        have hsched := mapError_ok hsched
        unfold Model.Scheduler.finishTile at hsched
        obtain ⟨heap, -, hsched⟩ := bind_eq_ok.mp hsched
        cases hsched
        refine hstill.setScheduler rfl ?_ ?_
        · simp [Model.Scheduler.handedOut, Model.Scheduler.log]
        · simp [Model.Scheduler.completed, Model.Scheduler.log]
  have hcycle := mapError_ok hcycle
  refine ⟨SimStep.tiles (.cycle t core _ c hcycle) hT₁, hS₁.still (.setCore ?_ rfl rfl)⟩
  exact (cycle_keepsTiles (hT₁.core core) (hT₁.reports core) hcycle).2.2.issued

theorem coreCycle_spread {env : TickEnv CycleEnv} (hT : TilesInv P plans cfg s)
    (hS : Spread plans cfg s)
    (h : Simulator.coreCycle (Core.interface cfg.coreConfig) cfg env s = .ok s') :
    Spread plans cfg s' := by
  unfold Simulator.coreCycle at h
  obtain ⟨t, hissue, h⟩ := bind_eq_ok.mp h
  obtain ⟨u, hcycle, h⟩ := bind_eq_ok.mp h
  cases h
  have hcores := foldlM_invariant (I := fun t => TilesInv P plans cfg t ∧ Spread plans cfg t) _
    hcycle (issueTiles_spread hT hS hissue) fun _ _ _ _ hI hok => cycleCore_spread hI.1 hI.2 hok
  exact hcores.2.still ⟨rfl, fun _ => rfl⟩

end CoreCycle

/-! ## The rest of a step -/

/-- A port passes on a request and a reply. -/
theorem cyclePort_still {k : ℕ × ℕ}
    (h : Simulator.cyclePort (Core.interface cfg.coreConfig) cfg s k = .ok s') : Still s s' := by
  unfold Simulator.cyclePort at h
  obtain ⟨t, hsend, hreceive⟩ := bind_eq_ok.mp h
  have hsent : Still s t := by
    unfold Simulator.sendRequest at hsend
    split at hsend
    · cases hsend
      exact .refl s
    · dsimp only at hsend
      split at hsend
      · cases hsend
        exact .refl s
      · obtain ⟨_, -, hsend⟩ := bind_eq_ok.mp hsend
        split at hsend
        · cases hsend
        · obtain ⟨dest, -, hsend⟩ := bind_eq_ok.mp hsend
          obtain ⟨icnt, -, hsend⟩ := bind_eq_ok.mp hsend
          cases hsend
          exact .setCore (c := (Core.interface cfg.coreConfig).popMemoryRequest (s.cores k.1))
            rfl rfl rfl
  refine hsent.trans ?_
  unfold Simulator.receiveResponse at hreceive
  obtain ⟨empty, -, hreceive⟩ := bind_eq_ok.mp hreceive
  split at hreceive
  · cases hreceive
    exact .refl _
  · obtain ⟨access, -, hreceive⟩ := bind_eq_ok.mp hreceive
    obtain ⟨icnt, -, hreceive⟩ := bind_eq_ok.mp hreceive
    cases hreceive
    refine .setCore (c := (t.cores k.1).pushMemoryResponse access.fetch) ?_ rfl rfl
    unfold Core.pushMemoryResponse
    dsimp only
    split <;> rfl

omit [DecidableEq τ] [DecidableEq ι] in
/-- A channel takes a request and gives back a reply. -/
theorem cycleMemory_still {mem : ℕ} (h : Simulator.cycleMemory cfg s mem = .ok s') :
    Still s s' := by
  unfold Simulator.cycleMemory at h
  obtain ⟨t, hto, hfrom⟩ := bind_eq_ok.mp h
  have htaken : Still s t := by
    unfold Simulator.toMemory at hto
    obtain ⟨empty, -, hto⟩ := bind_eq_ok.mp hto
    split at hto
    · cases hto
      exact .refl s
    · split at hto
      · cases hto
        exact .refl s
      · obtain ⟨access, -, hto⟩ := bind_eq_ok.mp hto
        obtain ⟨icnt, -, hto⟩ := bind_eq_ok.mp hto
        cases hto
        exact ⟨rfl, fun _ => rfl⟩
  refine htaken.trans ?_
  unfold Simulator.fromMemory at hfrom
  split at hfrom
  · cases hfrom
    exact .refl _
  · dsimp only at hfrom
    split at hfrom
    · cases hfrom
      exact .refl _
    · obtain ⟨access, -, hfrom⟩ := bind_eq_ok.mp hfrom
      obtain ⟨dest, -, hfrom⟩ := bind_eq_ok.mp hfrom
      obtain ⟨icnt, -, hfrom⟩ := bind_eq_ok.mp hfrom
      cases hfrom
      exact ⟨rfl, fun _ => rfl⟩

theorem icntCycle_still (h : Simulator.icntCycle (Core.interface cfg.coreConfig) cfg s = .ok s') :
    Still s s' := by
  unfold Simulator.icntCycle at h
  obtain ⟨t, hports, h⟩ := bind_eq_ok.mp h
  obtain ⟨u, hmemory, h⟩ := bind_eq_ok.mp h
  cases h
  have ht : Still s t := foldlM_invariant _ hports (.refl s)
    fun _ _ _ _ hI hok => hI.trans (cyclePort_still hok)
  have hu : Still s u := foldlM_invariant _ hmemory ht
    fun _ _ _ _ hI hok => hI.trans (cycleMemory_still hok)
  exact hu.trans ⟨rfl, fun _ => rfl⟩

/-- Every action keeps the schedulers and the cores in step. -/
theorem simStep_spread {a : SimAction CycleEnv} (hT : TilesInv P plans cfg s)
    (hS : Spread plans cfg s)
    (h : Simulator.step (Core.interface cfg.coreConfig) cfg s a = .ok s') :
    Spread plans cfg s' := by
  cases a with
  | enqueueGraph p =>
      dsimp only [Simulator.step] at h
      split at h
      · obtain ⟨d, hd, h⟩ := bind_eq_ok.mp h
        cases h
        have hd := mapError_ok hd
        obtain ⟨d', hok, heffect⟩ := (hT.dispatch p).effect (.launch s.coreCycles) trivial
        rw [hd] at hok
        cases hok
        have hsame := (launch_records (hT.dispatch p) hd).2.1
        refine hS.setPartition (fun hP => (hS.front p hP).of_effect hP (hT.dispatch p) heffect)
          ((hS.retired p).of_effect (hT.dispatch p) heffect) ((hS.slots p).launch hd)
          (fun _ _ => id) (fun t ht hnot => ?_) rfl
        exact absurd (hsame ▸ ht) hnot
      · cases h
  | tick mask env =>
      obtain ⟨core, dram, icnt⟩ := mask
      have hrest : ∀ t, Spread plans cfg t →
          (if icnt then Simulator.icntCycle (Core.interface cfg.coreConfig) cfg
            (if dram then t.dramCycle else t) else pure (if dram then t.dramCycle else t)) = .ok s' →
          Spread plans cfg s' := by
        intro t ht hok
        have hdram : Still t (if dram then t.dramCycle else t) := by
          cases dram with
          | true => exact ⟨rfl, fun _ => rfl⟩
          | false => exact .refl _
        cases icnt with
        | true => exact (ht.still hdram).still (icntCycle_still hok)
        | false =>
            cases hok
            exact ht.still hdram
      dsimp only [Simulator.step, Simulator.tick] at h
      cases core with
      | true =>
          obtain ⟨t, ht, h⟩ := bind_eq_ok.mp h
          exact hrest t (coreCycle_spread hT hS ht) h
      | false => exact hrest s hS h

/-- In every state of a run. -/
theorem spread_of_reach
    (h : Reach (Simulator.step (Core.interface cfg.coreConfig) cfg) (fun _ _ => True)
      (Simulator.init cfg (fun _ => { heap := P.heap }) plans) s) :
    TilesInv P plans cfg s ∧ Spread plans cfg s := by
  refine h.invariant (I := fun s => TilesInv P plans cfg s ∧ Spread plans cfg s)
    ⟨.init P plans cfg, .init plans cfg _⟩ fun s a s' hr hI _ hok => ?_
  have hout := simStep_outcome (Core.interface cfg.coreConfig) (requestInv_of_reach hr) a
  rw [hok] at hout
  have hkeeps : ∀ t t', TilesInv P plans cfg t →
      AnyStep (Core.interface cfg.coreConfig) cfg t t' → TilesInv P plans cfg t' := by
    rintro t t' hT (hstep | hstep)
    · exact hstep.tiles hT
    · exact hstep.tiles hT
  exact ⟨Outcome.invariant hkeeps hout hI.1, simStep_spread hI.1 hI.2 hok⟩

/-! ## When the loop stops -/

/-- The kernels of a partition that are launched. -/
def launched (plan : TilePlan τ ι) (d : Dispatch τ ι) : List (GraphPlan τ) :=
  plan.graphs.take (plan.graphs.length - d.pending.length)

/-- A simulation is done: the queues are empty, the launched kernels are done on the cores of their
partition, and the cores have got back all of their requests. -/
structure RunComplete (P : TileProgram τ ι) (plans : ℕ → TilePlan τ ι) (cfg : SimulationConfig)
    (s : Simulator (Core τ ι) τ ι) : Prop where
  queue : ∀ core < cfg.numCores, (s.partition (cfg.partitionMap core)).sched.tileGraph = []
  tiles : ∀ core < cfg.numCores,
    ∀ plan ∈ launched (plans (cfg.partitionMap core)) (s.partition (cfg.partitionMap core)),
    ∀ t ∈ plan.tiles, ∃ k, Works cfg (cfg.partitionMap core) k ∧ t ∈ (s.cores k).reportedTiles ∧
      ∀ i ∈ instsOf P t, ((s.cores k).heap.inst i).finished = true
  requests : ∀ core < cfg.numCores, (s.cores core).requestQueue = [] ∧
    ∀ n < (s.sent core).length, ∃ a ∈ s.returned core, a.requestId = n

omit [DecidableEq τ] [DecidableEq ι] in
/-- What the loop asks when it stops. -/
theorem loops_eq_false {κ ε : Type} {ops : CoreInterface κ τ ι ε} {s : Simulator κ τ ι}
    (h : s.loops ops cfg = false) :
    (∀ core < cfg.numCores, ops.running (s.cores core) = false) ∧
      ∀ core < cfg.numCores, (s.partition (cfg.partitionMap core)).sched.emptyFor core = true := by
  unfold Simulator.loops Simulator.running at h
  simp only [Bool.or_eq_false_iff, List.any_eq_false, List.mem_range] at h
  obtain ⟨⟨⟨⟨hcores, hscheds⟩, -⟩, -⟩, -⟩ := h
  exact ⟨fun core hcore => by simpa using hcores core hcore,
    fun core hcore => by simpa using hscheds core hcore⟩

omit [DecidableEq τ] [DecidableEq ι] in
/-- A core that does not work has no tile and no instruction in the DMA engine. -/
theorem running_eq_false {c : Core τ ι} {cfg : CoreConfig} (h : c.running cfg = false) :
    c.tiles = [] ∧ c.dmaWaitingQueue = [] ∧ c.dma.currentInst = none := by
  unfold Core.running at h
  simp only [Bool.or_eq_false_iff] at h
  obtain ⟨⟨⟨⟨⟨⟨⟨htiles, -⟩, -⟩, hwaiting⟩, -⟩, hcurrent⟩, -⟩, -⟩ := h
  refine ⟨by simpa using htiles, by simpa using hwaiting, ?_⟩
  cases hdma : c.dma.currentInst with
  | none => rfl
  | some i =>
      rw [hdma] at hcurrent
      cases hcurrent

omit [DecidableEq τ] in
/-- A core without an instruction in the DMA engine waits for no request. -/
theorem PathInv.answered_of_idle {p : CorePath τ ι} (hI : PathInv P p)
    (hwaiting : p.core.dmaWaitingQueue = []) (hcurrent : p.core.dma.currentInst = none) :
    p.core.requestQueue = [] ∧ ∀ n < p.sent.length, n ∈ p.answered := by
  have hzero : ∀ i, unsent p.core i = 0 ∧ outstanding p i = ∅ := by
    intro i
    have hcount := hI.ledger.count i
    have hnone : (p.core.heap.inst i).nrWaitingRequest = 0 := by
      by_contra hpos
      rcases hI.ledger.owner i (Nat.pos_of_ne_zero hpos) with hi | ⟨hi, -⟩
      · rw [hwaiting] at hi
        exact List.not_mem_nil hi
      · rw [hcurrent] at hi
        cases hi
    rw [hnone] at hcount
    exact ⟨by omega, Finset.card_eq_zero.mp (by omega)⟩
  constructor
  · refine List.eq_nil_iff_forall_not_mem.mpr fun r hr => ?_
    have hqueued : 0 < p.core.requestQueue.countP (·.customData = r.customData) :=
      List.countP_pos_iff.mpr ⟨r, hr, decide_eq_true rfl⟩
    have hunsent := (hzero r.customData).1
    unfold unsent at hunsent
    omega
  · intro n hn
    by_contra hnot
    have hmem : n ∈ outstanding p (p.sent[n]).customData := by
      refine mem_outstanding.mpr ⟨hn, hnot, ?_⟩
      rw [List.getElem?_eq_getElem hn]
      rfl
    rw [(hzero _).2] at hmem
    exact Finset.notMem_empty n hmem

/-- **A simulation stops only when it is done**: when the loop of the simulator stops in a run on
kernels that all have a tile, on any number of cores and partitions, the queues of the schedulers
are empty, every tile of a launched kernel is done on a core of its partition, and no request of a
core is unanswered, although the interconnect is not asked. -/
theorem run_complete_of_stopped (P : TileProgram τ ι)
    (hsizes : ∀ i, (P.heap.inst i).opcode = .movin ∨ (P.heap.inst i).opcode = .movout →
      ∀ n ∈ (P.heap.inst i).tileSize, 0 < n)
    (plans : ℕ → TilePlan τ ι) (hplans : ∀ p, Filled (plans p)) (cfg : SimulationConfig)
    (s : Simulator (Core τ ι) τ ι)
    (h : Reach (Simulator.step (Core.interface cfg.coreConfig) cfg) (fun _ _ => True)
      (Simulator.init cfg (fun _ => { heap := P.heap }) plans) s)
    (hstop : s.loops (Core.interface cfg.coreConfig) cfg = false) : RunComplete P plans cfg s := by
  obtain ⟨hT, hS⟩ := spread_of_reach h
  obtain ⟨hidle, hshown⟩ := loops_eq_false hstop
  have hqueue : ∀ core < cfg.numCores,
      (s.partition (cfg.partitionMap core)).sched.tileGraph = [] := by
    intro core hcore
    refine tileGraph_nil_of_empty (hT.dispatch _) (hS.front _ (hplans _)) (hS.slots _) ⟨core, hcore, rfl⟩ ?_
    rintro k ⟨hk, hmap⟩
    rw [← hmap]
    exact hshown k hk
  refine ⟨hqueue, fun core hcore plan hplan t ht => ?_, fun core hcore => ?_⟩
  · -- the launched kernels are retired
    have hlength := (hT.dispatch (cfg.partitionMap core)).graphs.length_eq
    rw [hqueue core hcore, List.nil_append, List.length_append] at hlength
    have htake : plan ∈ (plans (cfg.partitionMap core)).graphs.take
        (s.partition (cfg.partitionMap core)).sched.completed.length := by
      have hcount : (plans (cfg.partitionMap core)).graphs.length -
          (s.partition (cfg.partitionMap core)).pending.length =
          (s.partition (cfg.partitionMap core)).sched.completed.length := by omega
      rw [← hcount]
      exact hplan
    obtain ⟨k, hk, hissued⟩ := hS.placed _ t (hS.retired _ plan htake t ht)
    have htiles := (running_eq_false (hidle k hk.1)).1
    have hledger := (hT.core k).ledger
    have hsplit := hledger.split
    rw [htiles, List.nil_append] at hsplit
    have hreported := hsplit.mem_iff.mpr hissued
    exact ⟨k, hk, hreported, hledger.reported_done t hreported⟩
  · obtain ⟨p, hF⟩ := (runInv_of_reach hcore h).followed
    obtain ⟨-, hwaiting, hcurrent⟩ := running_eq_false (hidle core hcore)
    have hpath : PathInv P p := PathInv.of_reach hsizes hF.reach
    have hanswered := hpath.answered_of_idle (by rw [hF.state]; exact hwaiting)
      (by rw [hF.state]; exact hcurrent)
    rw [hF.state, hF.sent] at hanswered
    exact ⟨hanswered.1, fun n hn => (hF.answered n).mp (hanswered.2 n hn)⟩

/-- The run that loads one element stops, with its tile done. -/
theorem run_complete_of_stopped_oneLoad : ∃ s : Simulator (Core (Fin 1) (Fin 1)) (Fin 1) (Fin 1),
    s.loops (Core.interface smallConfig.coreConfig) smallConfig = false ∧
      (s.sent 0).length = 1 ∧ RunComplete oneLoad (fun _ => oneLoadKernel) smallConfig s := by
  have hinit : Reach (Simulator.step (Core.interface smallConfig.coreConfig) smallConfig)
      (fun _ _ => True) (Simulator.init smallConfig (fun _ => { heap := oneLoad.heap })
        fun _ => oneLoadKernel) _ := .init
  obtain ⟨s, hreach, hrun⟩ := hinit.exists_of_foldlM
    (.enqueueGraph 0 :: List.replicate 12
      (.tick ⟨true, true, true⟩ { core := fun _ => {}, tie := fun _ _ => 0 }))
    (fun s => (s.loops (Core.interface smallConfig.coreConfig) smallConfig, (s.sent 0).length))
    (b := (false, 1)) (by decide +kernel) fun _ _ _ => trivial
  obtain ⟨hstop, hsent⟩ := Prod.mk.inj hrun
  have hfilled : ∀ _ : ℕ, Filled oneLoadKernel := by
    refine fun _ => ⟨fun sg hsg => ?_, fun plan hplan => ?_⟩
    · simp only [TilePlan.subgraphs, oneLoadKernel, List.flatMap_cons, List.flatMap_nil,
        List.append_nil, List.mem_singleton] at hsg
      rw [hsg]
      exact List.cons_ne_nil _ _
    · rw [List.mem_singleton.mp (show plan ∈ [_] from hplan)]
      exact List.cons_ne_nil _ _
  exact ⟨s, hstop, hsent,
    run_complete_of_stopped oneLoad (by decide) _ hfilled smallConfig s hreach hstop⟩

end PyTorchSim.Analysis
