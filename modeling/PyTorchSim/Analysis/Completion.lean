import PyTorchSim.Analysis.CoreOutcome

/-!
# Each completion is counted once

`CoreInv` holds in every reachable state of a core, and a fault can only be one that
`StopsWith` admits.  From the record of events it follows that no instruction is passed to
`finish_instruction` twice, that the counter of a tile is the number of its finished
instructions, and that a tile is reported once.
-/

set_option autoImplicit false

namespace PyTorchSim.Analysis

open PyTorchSim.Model PyTorchSim.Library

variable {τ ι : Type} [DecidableEq τ] [DecidableEq ι] {P : TileProgram τ ι} {cfg : CoreConfig}
  {c c' : Core τ ι} {s : CoreSystem τ ι} {i : ι} {t : τ}

/-! ## The runs of a core -/

/-- An action of the simulator is a row of steps of the core. -/
theorem step_outcome {a : CoreAction τ} (hI : CoreInv P s.core) (ha : CoreSystem.Legal s a) :
    Outcome (CoreStep cfg) StopsWith s.core CoreSystem.core (CoreSystem.step cfg s a) := by
  cases a with
  | issue t => exact .single (.inr (.inr (.issue s.core t ha)))
  | cycle env =>
      have hcycle : Outcome (CoreStep cfg) StopsWith s.core id (s.core.cycle cfg env) := by
        refine (cycle_outcome hI).mono (fun _ _ h => ?_) fun _ _ h => h
        rcases h with h | h
        · exact .inl h
        · exact .inr (.inl h)
      exact Outcome.bind (fun _ _ hI h => CoreStep.inv h hI) hI hcycle fun _ _ _ => .ok rfl
  | popFinishedTile => exact .single (.inr (.inr (.popFinishedTile s.core)))
  | popMemoryRequest =>
      dsimp only [CoreSystem.step]
      split
      · exact .ok rfl
      · rename_i r rest hq
        exact .single (Or.inr (.inr (.popMemoryRequest s.core r rest hq)))
  | pushMemoryResponse n =>
      dsimp only [CoreSystem.step]
      split
      · exact .ok rfl
      · rename_i r _
        exact .single (Or.inr (.inr (.pushMemoryResponse s.core r)))

/-- **The rule for runs of a core**: what holds of a core without tiles and is kept by each
step from a state with the invariant holds in every reachable state. -/
theorem core_run_invariant {I : Core τ ι → Prop}
    (h : Reach (CoreSystem.step cfg) CoreSystem.Legal (CoreSystem.init P) s)
    (h₀ : I { heap := P.heap })
    (hstep : ∀ c c', CoreInv P c → I c → CoreStep cfg c c' → I c') :
    CoreInv P s.core ∧ I s.core := by
  refine Reach.invariant (I := fun s => CoreInv P s.core ∧ I s.core) h
    ⟨.init P, h₀⟩ fun s a s' _ hs ha hok => ?_
  have hout : Outcome (CoreStep cfg) StopsWith s.core CoreSystem.core (CoreSystem.step cfg s a) :=
    step_outcome hs.1 ha
  rw [hok] at hout
  exact Outcome.invariant (I := fun c => CoreInv P c ∧ I c)
    (fun c c' hc hstep' => ⟨hstep'.inv hc.1, hstep c c' hc.1 hc.2 hstep'⟩) hout hs

/-- The invariant of a core holds in every reachable state. -/
theorem reachable_coreInv
    (h : Reach (CoreSystem.step cfg) CoreSystem.Legal (CoreSystem.init P) s) :
    CoreInv P s.core :=
  (core_run_invariant (I := fun _ => True) h trivial fun _ _ _ _ _ => trivial).1

/-- The error exits of `finish_instruction` are not reached. -/
theorem step_ne_fault {a : CoreAction τ} {e : CoreFault} (hI : CoreInv P s.core)
    (ha : CoreSystem.Legal s a) (he : ∀ c : Core τ ι, ¬ StopsWith e c) :
    CoreSystem.step cfg s a ≠ .error e :=
  Outcome.no_fault (fun _ _ hI h => CoreStep.inv h hI) (fun c _ => he c)
    (step_outcome hI ha) hI

/-! ## The reports -/

/-- The reports of a core: those not yet taken are the last ones, and a reported tile has the
status `FINISH`. -/
structure ReportInv (c : Core τ ι) : Prop where
  queue : c.finishedTiles <:+ c.reportedTiles
  status : ∀ t ∈ c.reportedTiles, (c.heap.tile t).status = .finish

/-- Nothing is reported. -/
structure Unreported (c c' : Core τ ι) : Prop where
  queue : c'.finishedTiles = c.finishedTiles
  reported : c'.reportedTiles = c.reportedTiles
  status : ∀ t, (c'.heap.tile t).status = (c.heap.tile t).status

namespace Unreported

omit [DecidableEq τ] [DecidableEq ι] in
theorem inv (h : Unreported c c') (hR : ReportInv c) : ReportInv c' := by
  refine ⟨?_, fun t ht => ?_⟩
  · rw [h.queue, h.reported]
    exact hR.queue
  · rw [h.status]
    rw [h.reported] at ht
    exact hR.status t ht

omit [DecidableEq τ] [DecidableEq ι] in
theorem trans {c'' : Core τ ι} (h : Unreported c c') (h' : Unreported c' c'') :
    Unreported c c'' := by
  refine ⟨h'.queue.trans h.queue, h'.reported.trans h.reported, fun t => ?_⟩
  rw [h'.status, h.status]

omit [DecidableEq τ] [DecidableEq ι] in
theorem log (c : Core τ ι) (e : CoreEvent τ ι) (he : ∀ t, e ≠ .tileFinished t) :
    Unreported c (c.log e) := by
  refine ⟨rfl, ?_, fun _ => rfl⟩
  rw [Core.reportedTiles_log]
  cases e with
  | tileFinished t => exact absurd rfl (he t)
  | _ => exact List.append_nil _

omit [DecidableEq τ] [DecidableEq ι] in
theorem setTag (c : Core τ ι) (g : ℕ) (key : List ℤ) (v : ℕ) : Unreported c (c.setTag g key v) :=
  ⟨rfl, rfl, fun _ => rfl⟩

omit [DecidableEq τ] [DecidableEq ι] in
theorem registerTag (c : Core τ ι) (i : ι) : Unreported c (c.registerTag i) :=
  ⟨rfl, (log c (.tagRegistered i _) (by simp)).reported, fun _ => rfl⟩

omit [DecidableEq τ] in
theorem setTimes (c : Core τ ι) (p : Core.Pipeline) (i : ι) : Unreported c (c.setTimes p i) :=
  ⟨rfl, rfl, fun _ => rfl⟩

omit [DecidableEq ι] in
theorem enqueueReady (h : CoreHeap τ ι) (u t : τ) (i : ι) :
    ((h.enqueueReady u i).tile t).status = (h.tile t).status := by
  unfold CoreHeap.enqueueReady CoreHeap.setTile
  by_cases ht : t = u
  · subst ht
    simp
  · simp [ht]

theorem decReadyCounter (h : CoreHeap τ ι) (i : ι) (t : τ) :
    ((h.decReadyCounter i).tile t).status = (h.tile t).status := by
  unfold CoreHeap.decReadyCounter
  dsimp only
  split
  · exact enqueueReady _ _ _ _
  · rfl

theorem heapFinish (h : CoreHeap τ ι) (i : ι) (t : τ) :
    ((h.finish i).tile t).status = (h.tile t).status := by
  have hfold : ∀ (l : List ι) (h : CoreHeap τ ι),
      ((l.foldl CoreHeap.decReadyCounter h).tile t).status = (h.tile t).status := by
    intro l
    induction l with
    | nil => exact fun _ => rfl
    | cons j l ih => exact fun h => (ih _).trans (decReadyCounter h j t)
  have hinst : ((h.finishInstruction i).tile t).status = (h.tile t).status :=
    hfold (h.inst i).childInst h
  rw [← hinst]
  unfold CoreHeap.finish CoreHeap.setTile
  by_cases ht : t = ((h.finishInstruction i).inst i).owner
  · subst ht
    simp [Tile.incFinishedInst]
  · simp [ht]

theorem finish (c : Core τ ι) (i : ι) : Unreported c (c.finish i) :=
  ⟨rfl, Core.reportedTiles_finish c i, heapFinish c.heap i⟩

theorem finishAll (ws : List ι) (c : Core τ ι) : Unreported c (ws.foldl Core.finish c) := by
  induction ws generalizing c with
  | nil => exact ⟨rfl, rfl, fun _ => rfl⟩
  | cons w ws ih => exact (finish c w).trans (ih _)

omit [DecidableEq ι] in
theorem take (c : Core τ ι) (t : τ) (i : ι) : Unreported c (c.take t i) := by
  have hlog := log c (.instIssued i) (by simp)
  refine ⟨rfl, hlog.reported, fun u => ?_⟩
  change ((c.heap.popReady t).tile u).status = _
  rw [CoreHeap.popReady_tile]

omit [DecidableEq ι] in
theorem setTile_readyQueue (h : CoreHeap τ ι) (l : List ι) (u t : τ) :
    ((l.foldl (fun h i => if (h.inst i).isReady then h.enqueueReady u i else h) h).tile
      t).status = (h.tile t).status := by
  rw [(CoreHeap.foldl_enqueueReady l h u).2 t]

end Unreported

theorem UnitStep.reports (h : UnitStep cfg c c') (hR : ReportInv c) : ReportInv c' := by
  cases h with
  | stats f => exact ⟨hR.queue, hR.status⟩
  | clock n => exact ⟨hR.queue, hR.status⟩
  | arrayTurn n => exact ⟨hR.queue, hR.status⟩
  | compute p i rest hp =>
      have hfinish := (Unreported.finish c i).inv hR
      cases p <;> exact ⟨hfinish.queue, hfinish.status⟩
  | ssdNone hssd hcur => exact ⟨hR.queue, hR.status⟩
  | ssdWrite i hssd hcur hw =>
      exact (Unreported.finish _ i).inv (c := { c with dma := c.dma.endSsd }) ⟨hR.queue, hR.status⟩
  | ssdAsync i hssd hcur hr ha =>
      exact (Unreported.finish _ i).inv (c := { c with
        dma := c.dma.endSsd, dmaFinishedQueue := c.dmaFinishedQueue ++ [i] })
        ⟨hR.queue, hR.status⟩
  | ssdSync i hssd hcur hr ha => exact ⟨hR.queue, hR.status⟩
  | drainWrite i rest hq hr => exact ⟨hR.queue, hR.status⟩
  | drainSync i rest hq hr ha =>
      exact (Unreported.finish _ i).inv (c := { c with dmaFinishedQueue := rest })
        ⟨hR.queue, hR.status⟩
  | drainAsync i rest ws hq hr ha hws hlt =>
      refine (Unreported.finishAll ws _).inv ?_
      refine (Unreported.log _ _ (by simp)).inv ?_
      exact ⟨hR.queue, hR.status⟩
  | retireWrite i hfin hcur hw =>
      exact (Unreported.finish _ i).inv (c := { c with
        dma := { c.dma with currentInst := none }
        dmaWaitingQueue := c.dmaWaitingQueue.insert i }) ⟨hR.queue, hR.status⟩
  | retireAsync i hfin hcur hr ha =>
      exact (Unreported.finish _ i).inv (c := { c with
        dma := { c.dma with currentInst := none }
        dmaWaitingQueue := c.dmaWaitingQueue.insert i }) ⟨hR.queue, hR.status⟩
  | retireSync i hfin hcur hr ha => exact ⟨hR.queue, hR.status⟩
  | startLoad i rest hfin hcur hq => exact ⟨hR.queue, hR.status⟩
  | startStore i rest hfin hcur hq => exact ⟨hR.queue, hR.status⟩
  | oracle i n hcur hgen _ => exact ⟨hR.queue, hR.status⟩
  | generate i env hcur hgen hssd hfin => exact ⟨hR.queue, hR.status⟩
  | inject n hgen hssd => exact ⟨hR.queue, hR.status⟩
  | report t ht hdone =>
      refine ⟨?_, fun u hu => ?_⟩
      · rw [Core.reportedTiles_log]
        exact List.suffix_append_self_iff.mpr hR.queue
      · rw [Core.reportedTiles_log] at hu
        change ((c.heap.setTile t _).tile u).status = .finish
        by_cases hut : u = t
        · subst hut
          rw [CoreHeap.setTile_tile_self]
        · rw [CoreHeap.setTile_tile_of_ne _ _ hut]
          rcases List.mem_append.mp hu with hu | hu
          · exact hR.status u hu
          · exact absurd (List.mem_singleton.mp hu) hut

theorem IssueEffect.unreported (h : IssueEffect i c c') : Unreported c c' := by
  cases h with
  | sparseLoad hop hs =>
      exact (Unreported.registerTag c i).trans ((Unreported.setTag _ _ _ _).trans
        (Unreported.finish _ i))
  | knownLoad v hop hs ha htag hv => exact Unreported.finish c i
  | awaitedLoad hop hs ha htag => exact ⟨rfl, rfl, fun _ => rfl⟩
  | load hop hs hnew =>
      exact ⟨rfl, (Unreported.registerTag c i).reported, fun _ => rfl⟩
  | store hop => exact ⟨rfl, rfl, fun _ => rfl⟩
  | comp p hop hcycle => cases p <;> exact ⟨rfl, rfl, fun _ => rfl⟩
  | compZero p hop hcycle => exact (Unreported.setTimes c p i).trans (Unreported.finish _ i)
  | barSparse hop htag =>
      have hskip : Unreported c { c with
          heap := Core.skipMatmuls c.heap (c.heap.inst i).childInst } := by
        refine ⟨rfl, rfl, fun t => ?_⟩
        rw [(CoreHeap.skipMatmuls_spec _ c.heap).1]
      exact hskip.trans (Unreported.finish _ i)
  | barReady v hop htag hv hs => exact (Unreported.setTag c _ _ _).trans (Unreported.finish _ i)
  | barWait hop htag => exact ⟨rfl, rfl, fun _ => rfl⟩

theorem OuterStep.reports (h : OuterStep c c') (hR : ReportInv c) : ReportInv c' := by
  cases h with
  | issue t ht =>
      have hissue : Unreported c (c.issue t) := by
        refine ⟨rfl, ?_, Unreported.setTile_readyQueue c.heap _ t⟩
        exact (Unreported.log c (.tileIssued t) (by simp)).reported
      exact hissue.inv hR
  | popFinishedTile =>
      unfold Core.popFinishedTile
      split
      · exact hR
      · rename_i u rest hq
        refine ⟨?_, hR.status⟩
        have hsuffix := hR.queue
        rw [hq] at hsuffix
        exact (List.suffix_cons u rest).trans hsuffix
  | popMemoryRequest r rest hq => exact ⟨hR.queue, hR.status⟩
  | pushMemoryResponse r =>
      unfold Core.pushMemoryResponse
      dsimp only
      split
      · exact ⟨hR.queue, hR.status⟩
      · exact ⟨hR.queue, hR.status⟩

/-- **Every step of a core keeps the reports in order.** -/
theorem CoreStep.reports (h : CoreStep cfg c c') (hR : ReportInv c) : ReportInv c' := by
  rcases h with h | h | h
  · exact h.reports hR
  · obtain ⟨t, i, -, -, heffect⟩ := h
    exact ((Unreported.take c t i).trans heffect.unreported).inv hR
  · exact h.reports hR

/-! ## Completion -/

/-- In every reachable state of a core: no instruction was passed to `finish_instruction`
twice, no next action reaches an error exit of `finish_instruction`, the counter of a tile is
the number of its finished instructions, and a tile given to the core is either still in it or
was reported, once, with the status `FINISH` and all of its instructions finished. -/
theorem completion_counted_once
    (h : Reach (CoreSystem.step cfg) CoreSystem.Legal (CoreSystem.init P) s) :
    s.core.finishCalls.Nodup ∧
      (∀ i, i ∈ s.core.finishCalls ↔ (s.core.heap.inst i).finished = true) ∧
      (∀ a, CoreSystem.Legal s a → CoreSystem.step cfg s a ≠ .error .alreadyFinished ∧
        CoreSystem.step cfg s a ≠ .error .notFinished) ∧
      (∀ t, (s.core.heap.tile t).nrFinishedInsts =
        (s.core.heap.tile t).instructions.countP fun i => (s.core.heap.inst i).finished) ∧
      (∀ t ∈ s.issuedTiles, s.core.tiles.count t + s.core.reportedTiles.count t = 1) ∧
      (∀ t ∈ s.core.reportedTiles, t ∈ s.issuedTiles ∧ s.core.reportedTiles.count t = 1 ∧
        (s.core.heap.tile t).status = .finish ∧
        ∀ i ∈ (s.core.heap.tile t).instructions, (s.core.heap.inst i).finished = true) ∧
      s.core.finishedTiles <:+ s.core.reportedTiles := by
  have hreport₀ : ReportInv ({ heap := P.heap } : Core τ ι) :=
    ⟨List.suffix_refl _, fun t ht => absurd ht List.not_mem_nil⟩
  obtain ⟨hI, hR⟩ := core_run_invariant h hreport₀ fun _ _ _ hR hstep => hstep.reports hR
  have hcount : ∀ t ∈ s.issuedTiles,
      s.core.tiles.count t + s.core.reportedTiles.count t = 1 := by
    intro t ht
    have hsplit := List.perm_iff_count.mp hI.ledger.split t
    rw [List.count_append, List.count_eq_one_of_mem hI.ledger.issued_nodup ht] at hsplit
    exact hsplit
  refine ⟨hI.ledger.calls_nodup, hI.ledger.calls, fun a ha => ?_, fun t => ?_, hcount,
    fun t ht => ?_, hR.queue⟩
  · exact ⟨step_ne_fault hI ha fun _ h => h, step_ne_fault hI ha fun _ h => h⟩
  · rw [hI.placement.insts]
    exact hI.placement.nrFinished t
  · have hissued : t ∈ s.issuedTiles :=
      hI.ledger.split.subset (List.mem_append.mpr (.inr ht))
    refine ⟨hissued, ?_, hR.status t ht, fun i hi => ?_⟩
    · have hsum := hcount t hissued
      have hpos := List.count_pos_iff.mpr ht
      omega
    · rw [hI.placement.insts] at hi
      exact hI.ledger.reported_done t ht i hi

/-- A tile in which a multiplication waits for a synchronous load. -/
def loadThenMultiply : TileProgram (Fin 1) (Fin 2) where
  heap := {
    tile := fun _ => { status := .initialized, nrInsts := 2, instructions := List.finRange 2 }
    inst := fun
      | 0 => { id := ⟨0, Nat.zero_lt_two⟩, opcode := .movin, owner := Fin.last 0,
               childInst := [Fin.last 1], tileSize := [1] }
      | 1 => { id := Fin.last 1, opcode := .comp, owner := Fin.last 0, computeType := MATMUL,
               computeCycle := 3, readyCounter := 1 } }
  insts_nodup := by decide
  owner := by decide
  nrInsts := by decide
  nrFinishedInsts := by decide
  readyQueue := by decide
  finished := by decide
  nrWaitingRequest := by decide
  child_nodup := by decide
  child_mem := by decide
  readyCounter := by decide

/-- A run in which the load is answered by the latency oracle and the tile is reported. -/
theorem loadThenMultiply_reach : ∃ s,
    Reach (CoreSystem.step {}) CoreSystem.Legal (CoreSystem.init loadThenMultiply) s ∧
      s.core.finishCalls = [0, 1] ∧ s.core.reportedTiles = [0] := by
  refine ⟨_, Reach.of_foldlM (List.replicate 9 (.cycle { latency := some 1 }))
    (.step (.issue 0) .init List.not_mem_nil rfl) rfl ?_, by decide⟩
  intro s a ha
  rw [List.eq_of_mem_replicate ha]
  trivial

/-- Both instructions are finished once, and the tile is reported once. -/
theorem completion_counted_once_loadThenMultiply : ∃ s : CoreSystem (Fin 1) (Fin 2),
    s.core.finishCalls = [0, 1] ∧ s.core.finishCalls.Nodup ∧
      (s.core.heap.tile 0).nrFinishedInsts =
        (s.core.heap.tile 0).instructions.countP (fun i => (s.core.heap.inst i).finished) ∧
      s.core.reportedTiles.count 0 = 1 := by
  obtain ⟨s, hreach, hcalls, hreported⟩ := loadThenMultiply_reach
  have hall := completion_counted_once hreach
  have hmem : (0 : Fin 1) ∈ s.core.reportedTiles := by
    rw [hreported]
    exact List.mem_singleton.mpr rfl
  exact ⟨s, hcalls, hall.1, hall.2.2.2.1 0, (hall.2.2.2.2.2.1 0 hmem).2.1⟩

end PyTorchSim.Analysis
