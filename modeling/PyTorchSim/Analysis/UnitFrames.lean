import PyTorchSim.Analysis.CoreOutcome

/-!
# What the DMA engine leaves alone

The compute units of a core share its clock, its instructions and its counters with the DMA engine
and the issue switch.  `SameUnits` says that a part of a cycle leaves the units alone: the clock,
the content of the pipelines, the times of the instructions and the counters of the units.  The DMA
engine does, and so do loads, stores and waits when they are issued.
-/

set_option autoImplicit false

namespace PyTorchSim.Analysis

open PyTorchSim.Model PyTorchSim.Library

/-- The counters of the compute units, in the current interval and in all. -/
structure Usage where
  active : Core.Pipeline → ℕ
  idle : Core.Pipeline → ℕ
  totalActive : Core.Pipeline → ℕ
  totalIdle : Core.Pipeline → ℕ

/-- The counters of the compute units.
SOURCE: Core.h:70-89 -/
def usage (s : CoreStats) : Usage where
  active
    | .vu => s.vuComputeCycle
    | .sa n => s.saComputeCycle n
  idle
    | .vu => s.vuComputeIdleCycle
    | .sa n => s.saComputeIdleCycle n
  totalActive
    | .vu => s.totVuComputeCycle
    | .sa n => s.totSaComputeCycle n
  totalIdle
    | .vu => s.totVuComputeIdleCycle
    | .sa n => s.totSaComputeIdleCycle n

/-- The compute units of a core. -/
def units (cfg : CoreConfig) : List Core.Pipeline :=
  .vu :: (List.range cfg.numSystolicArrayPerCore).map .sa

variable {τ ι : Type}

/-- The times of an instruction stay, but it may be made to take no cycle. -/
structure SameTimes (v v' : Instruction τ ι) : Prop where
  finishCycle : v'.finishCycle = v.finishCycle
  bubbleCycle : v'.bubbleCycle = v.bubbleCycle
  overlappingCycle : v'.overlappingCycle = v.overlappingCycle
  computeCycle : v'.computeCycle = v.computeCycle ∨ v'.computeCycle = 0

theorem SameTimes.refl (v : Instruction τ ι) : SameTimes v v := ⟨rfl, rfl, rfl, .inl rfl⟩

theorem SameTimes.trans {v v' v'' : Instruction τ ι} (h : SameTimes v v')
    (h' : SameTimes v' v'') : SameTimes v v'' := by
  refine ⟨h'.finishCycle.trans h.finishCycle, h'.bubbleCycle.trans h.bubbleCycle,
    h'.overlappingCycle.trans h.overlappingCycle, ?_⟩
  rcases h'.computeCycle with hkept | hzero
  · rw [hkept]
    exact h.computeCycle
  · exact .inr hzero

/-- The clock, the pipelines, the times and the counters of the compute units stay. -/
structure SameUnits (c c' : Core τ ι) : Prop where
  clock : c'.coreCycle = c.coreCycle
  pipeline : ∀ p, c'.pipeline p = c.pipeline p
  times : ∀ i, SameTimes (c.heap.inst i) (c'.heap.inst i)
  usage : usage c'.stats = usage c.stats

variable {c c' c'' : Core τ ι}

theorem SameUnits.refl (c : Core τ ι) : SameUnits c c :=
  ⟨rfl, fun _ => rfl, fun _ => .refl _, rfl⟩

theorem SameUnits.trans (h : SameUnits c c') (h' : SameUnits c' c'') : SameUnits c c'' := by
  refine ⟨h'.clock.trans h.clock, fun p => ?_, fun i => (h.times i).trans (h'.times i),
    h'.usage.trans h.usage⟩
  rw [h'.pipeline, h.pipeline]

/-- A change of the other components. -/
theorem SameUnits.of_eq (hclock : c'.coreCycle = c.coreCycle)
    (hvu : c'.vuComputePipeline = c.vuComputePipeline)
    (hsa : c'.saComputePipeline = c.saComputePipeline)
    (hinst : ∀ i, SameTimes (c.heap.inst i) (c'.heap.inst i))
    (husage : Analysis.usage c'.stats = Analysis.usage c.stats) : SameUnits c c' := by
  refine ⟨hclock, fun p => ?_, hinst, husage⟩
  cases p with
  | vu => exact hvu
  | sa n => exact congrFun hsa n

variable [DecidableEq τ] [DecidableEq ι] {cfg : CoreConfig} {env : CycleEnv} {i : ι} {t : τ}

/-- Finishing an instruction changes no times. -/
theorem sameTimes_finish (h : CoreHeap τ ι) (i j : ι) :
    SameTimes (h.inst j) ((h.finish i).inst j) := by
  obtain ⟨n, hn⟩ := (CoreHeap.finish_frame h i).1 j
  rw [hn]
  exact ⟨rfl, rfl, rfl, .inl rfl⟩

theorem sameUnits_finish (c : Core τ ι) (i : ι) : SameUnits c (c.finish i) :=
  .of_eq rfl rfl rfl (fun j => sameTimes_finish c.heap i j) rfl

theorem finishInstruction_units {tag : InstFinishTraceTag}
    (h : c.finishInstruction i tag = .ok c') : SameUnits c c' := by
  unfold Core.finishInstruction at h
  split at h
  · split at h
    · cases h
    · cases h
      exact .of_eq rfl rfl rfl (fun _ => .refl _) rfl
  · split at h
    · cases h
    · cases h
      exact sameUnits_finish c i

/-! ## The DMA engine -/

theorem finishSsd_units (h : c.finishSsd i = .ok c') : SameUnits c c' := by
  unfold Core.finishSsd at h
  split at h
  · exact finishInstruction_units h
  · split at h
    · obtain ⟨d, hd, h⟩ := bind_eq_ok.mp h
      have hfinish := finishInstruction_units hd
      cases h
      exact hfinish.trans (.of_eq rfl rfl rfl (fun _ => .refl _) rfl)
    · cases h
      exact .of_eq rfl rfl rfl (fun _ => .refl _) rfl

theorem ssdCycle_units (h : c.ssdCycle = .ok c') : SameUnits c c' := by
  unfold Core.ssdCycle at h
  have hend : SameUnits c { c with dma := c.dma.endSsd } :=
    .of_eq rfl rfl rfl (fun _ => .refl _) rfl
  split at h
  · split at h
    · cases h
      exact hend
    · exact hend.trans (finishSsd_units h)
  · cases h
    exact .refl _

theorem wakeWaiters_units {g : ℕ} {key : List ℤ} (ws : List ι)
    (h : Core.wakeWaiters g key ws c = .ok c') : SameUnits c c' := by
  induction ws generalizing c with
  | nil =>
      cases h
      exact .refl _
  | cons w ws ih =>
      unfold Core.wakeWaiters at h
      obtain ⟨dma, -, h⟩ := bind_eq_ok.mp h
      obtain ⟨d, hd, h⟩ := bind_eq_ok.mp h
      have hmark : SameUnits c { c with dma := dma } :=
        .of_eq rfl rfl rfl (fun _ => .refl _) rfl
      exact (hmark.trans (finishInstruction_units hd)).trans (ih h)

theorem finishSyncRead_units (h : c.finishSyncRead i = .ok c') : SameUnits c c' := by
  unfold Core.finishSyncRead at h
  split at h
  · exact finishInstruction_units h
  · cases h
    exact .refl _

theorem finishAsyncRead_units (h : c.finishAsyncRead i = .ok c') : SameUnits c c' := by
  unfold Core.finishAsyncRead at h
  split at h
  · obtain ⟨dma, -, h⟩ := bind_eq_ok.mp h
    obtain ⟨d, hd, h⟩ := bind_eq_ok.mp h
    obtain ⟨ws, -, h⟩ := bind_eq_ok.mp h
    have hready : SameUnits c { c with dma := dma } :=
      .of_eq rfl rfl rfl (fun _ => .refl _) rfl
    exact (hready.trans (finishInstruction_units hd)).trans (wakeWaiters_units ws h)
  · cases h
    exact .refl _

theorem drainLoop_units (l : List ι) (h : Core.drainLoop l c = .ok c') : SameUnits c c' := by
  induction l generalizing c with
  | nil =>
      cases h
      exact .refl _
  | cons i rest ih =>
      unfold Core.drainLoop at h
      obtain ⟨d, hd, h⟩ := bind_eq_ok.mp h
      obtain ⟨e, he, h⟩ := bind_eq_ok.mp h
      have hread := (finishSyncRead_units hd).trans (finishAsyncRead_units he)
      have hleave : SameUnits e { e with dmaFinishedQueue := e.dmaFinishedQueue.tail } :=
        .of_eq rfl rfl rfl (fun _ => .refl _) rfl
      exact (hread.trans hleave).trans (ih h)

theorem finishSent_units (h : c.finishSent i = .ok c') : SameUnits c c' := by
  unfold Core.finishSent at h
  split at h
  · exact finishInstruction_units h
  · split at h
    · exact finishInstruction_units h
    · split at h
      · cases h
      · cases h
        exact .refl _

theorem retireCurrent_units (h : c.retireCurrent = .ok c') : SameUnits c c' := by
  unfold Core.retireCurrent at h
  split at h
  · cases h
    exact .refl _
  · obtain ⟨d, hd, h⟩ := bind_eq_ok.mp h
    have hleave : SameUnits c { c with dma := { c.dma with currentInst := none } } :=
      .of_eq rfl rfl rfl (fun _ => .refl _) rfl
    have hsent := hleave.trans (finishSent_units hd)
    cases h
    exact hsent.trans (.of_eq rfl rfl rfl (fun _ => .refl _) rfl)

omit [DecidableEq τ] [DecidableEq ι] in
theorem issueDma_units {b : Bool} (h : c.issueDma = .ok (c', b)) : SameUnits c c' := by
  unfold Core.issueDma at h
  split at h
  · obtain ⟨dma, -, h⟩ := bind_eq_ok.mp h
    cases h
    exact .of_eq rfl rfl rfl (fun _ => .refl _) rfl
  · obtain ⟨dma, -, h⟩ := bind_eq_ok.mp h
    cases h
    exact .of_eq rfl rfl rfl (fun _ => .refl _) rfl
  · cases h
    exact .of_eq rfl rfl rfl (fun _ => .refl _) rfl

theorem nextDma_units {b : Bool} (h : c.nextDma = .ok (c', b)) : SameUnits c c' := by
  unfold Core.nextDma at h
  split at h
  · obtain ⟨d, hd, h⟩ := bind_eq_ok.mp h
    exact (retireCurrent_units hd).trans (issueDma_units h)
  · cases h
    exact .refl _

omit [DecidableEq τ] in
theorem generateAccesses_units {b : Bool} (h : Core.generateAccesses cfg env c = .ok (c', b)) :
    SameUnits c c' := by
  unfold Core.generateAccesses at h
  split at h
  · cases h
    exact .refl _
  · split at h
    · cases h
    · next j _ =>
      split at h
      · cases h
        exact .of_eq rfl rfl rfl (fun _ => .refl _) rfl
      · cases h
        refine .of_eq rfl rfl rfl (fun k => ?_) rfl
        by_cases hk : k = j
        · subst hk
          dsimp only
          rw [CoreHeap.setInst_inst_self]
          exact ⟨rfl, rfl, rfl, .inl rfl⟩
        · dsimp only
          rw [CoreHeap.setInst_inst_of_ne _ _ hk]
          exact .refl _

omit [DecidableEq τ] in
theorem generateMemfetch_units (h : Core.generateMemfetch cfg env c = .ok c') :
    SameUnits c c' := by
  unfold Core.generateMemfetch at h
  split at h
  · cases h
    exact .refl _
  · obtain ⟨⟨d, b⟩, hd, h⟩ := bind_eq_ok.mp h
    have hunits := generateAccesses_units hd
    dsimp only at h
    split at h
    · cases h
      exact hunits
    · cases h
      exact hunits.trans (.of_eq rfl rfl rfl (fun _ => .refl _) rfl)

/-- The DMA engine leaves the compute units alone. -/
theorem dmaCycle_units (h : c.dmaCycle cfg env = .ok c') : SameUnits c c' := by
  unfold Core.dmaCycle at h
  obtain ⟨d, hd, h⟩ := bind_eq_ok.mp h
  obtain ⟨e, he, h⟩ := bind_eq_ok.mp h
  obtain ⟨⟨f, b⟩, hf, h⟩ := bind_eq_ok.mp h
  have hunits := ((ssdCycle_units hd).trans (drainLoop_units _ he)).trans (nextDma_units hf)
  dsimp only at h
  split at h
  · obtain ⟨g, hg, h⟩ := bind_eq_ok.mp h
    have hmemfetch := hunits.trans (generateMemfetch_units hg)
    cases h
    exact hmemfetch.trans (.of_eq rfl rfl rfl (fun _ => .refl _) rfl)
  · cases h
    exact hunits

/-! ## Loads, stores and waits -/

omit [DecidableEq τ] [DecidableEq ι] in
theorem waitForTag_units (h : c.waitForTag i = .ok c') : SameUnits c c' := by
  unfold Core.waitForTag at h
  obtain ⟨dma, -, h⟩ := bind_eq_ok.mp h
  cases h
  exact .of_eq rfl rfl rfl (fun _ => .refl _) rfl

theorem issueMovin_units (h : c.issueMovin i = .ok c') : SameUnits c c' := by
  have hcount (d : Core τ ι) (op : Opcode) : SameUnits d (d.countSkipped op) :=
    .of_eq rfl rfl rfl (fun _ => .refl _) rfl
  unfold Core.issueMovin at h
  dsimp only at h
  split at h
  · obtain ⟨dma, -, h⟩ := bind_eq_ok.mp h
    obtain ⟨d, hd, h⟩ := bind_eq_ok.mp h
    have hregister : SameUnits c { c.registerTag i with dma := dma } :=
      .of_eq rfl rfl rfl (fun _ => .refl _) rfl
    have hfinish := hregister.trans (finishInstruction_units hd)
    cases h
    exact hfinish.trans (hcount d _)
  · split at h
    · obtain ⟨v, -, h⟩ := bind_eq_ok.mp h
      split at h
      · obtain ⟨d, hd, h⟩ := bind_eq_ok.mp h
        have hfinish := finishInstruction_units hd
        cases h
        exact hfinish.trans (hcount d _)
      · obtain ⟨d, hd, h⟩ := bind_eq_ok.mp h
        have hwait := waitForTag_units hd
        cases h
        exact hwait.trans (hcount d _)
    · cases h
      exact .of_eq rfl rfl rfl (fun _ => .refl _) rfl

omit [DecidableEq τ] in
/-- A wait may make matrix multiplications take no cycle. -/
theorem sameTimes_skipMatmuls (l : List ι) (h : CoreHeap τ ι) (j : ι) :
    SameTimes (h.inst j) ((Core.skipMatmuls h l).inst j) := by
  induction l generalizing h with
  | nil => exact .refl _
  | cons i l ih =>
      unfold Core.skipMatmuls at ih ⊢
      rw [List.foldl_cons]
      refine .trans ?_ (ih _)
      split
      · by_cases hj : j = i
        · subst hj
          rw [CoreHeap.setInst_inst_self]
          exact ⟨rfl, rfl, rfl, .inr rfl⟩
        · rw [CoreHeap.setInst_inst_of_ne _ _ hj]
          exact .refl _
      · exact .refl _

theorem issueBar_units (h : c.issueBar i = .ok c') : SameUnits c c' := by
  unfold Core.issueBar at h
  obtain ⟨v, -, h⟩ := bind_eq_ok.mp h
  split at h
  · have hskip : SameUnits c
        { c with heap := Core.skipMatmuls c.heap (c.heap.inst i).childInst } :=
      .of_eq rfl rfl rfl (fun j => sameTimes_skipMatmuls _ c.heap j) rfl
    exact hskip.trans (finishInstruction_units h)
  · split at h
    · obtain ⟨dma, -, h⟩ := bind_eq_ok.mp h
      have hmark : SameUnits c { c with dma := dma } :=
        .of_eq rfl rfl rfl (fun _ => .refl _) rfl
      exact hmark.trans (finishInstruction_units h)
    · exact waitForTag_units h

/-- Loads, stores and waits leave the compute units alone. -/
theorem issueInst_units {b : Bool} (hop : (c.heap.inst i).opcode ≠ .comp)
    (h : c.issueInst cfg t i = .ok (c', b)) : SameUnits c c' := by
  have hlog : SameUnits c (c.log (.instIssued i)) := .of_eq rfl rfl rfl (fun _ => .refl _) rfl
  unfold Core.issueInst at h
  dsimp only at h
  split at h
  · obtain ⟨d, hd, h⟩ := bind_eq_ok.mp h
    cases h
    exact hlog.trans (issueMovin_units hd)
  · cases h
    exact .of_eq rfl rfl rfl (fun _ => .refl _) rfl
  · next hcomp => exact absurd hcomp hop
  · obtain ⟨d, hd, h⟩ := bind_eq_ok.mp h
    cases h
    exact hlog.trans (issueBar_units hd)

omit [DecidableEq ι] in
theorem removeFinishedTile_units (c : Core τ ι) : SameUnits c c.removeFinishedTile := by
  unfold Core.removeFinishedTile
  split
  · exact .refl _
  · exact .of_eq rfl rfl rfl (fun _ => .refl _) rfl

/-! ## Between two cycles -/

/-- What happens between two cycles does not touch the compute units. -/
theorem step_units {s s' : CoreSystem τ ι} {a : CoreAction τ} (ha : ∀ env, a ≠ .cycle env)
    (h : s.step cfg a = .ok s') : SameUnits s.core s'.core := by
  cases a with
  | cycle env => exact absurd rfl (ha env)
  | issue t =>
    cases h
    refine .of_eq rfl rfl rfl (fun i => ?_) rfl
    have hinst : (s.core.issue t).heap.inst = s.core.heap.inst :=
      (CoreHeap.foldl_enqueueReady _ s.core.heap t).1
    dsimp only
    rw [hinst]
    exact .refl _
  | popFinishedTile =>
    cases h
    dsimp only
    unfold Core.popFinishedTile
    split <;> exact .of_eq rfl rfl rfl (fun _ => .refl _) rfl
  | popMemoryRequest =>
    dsimp only [CoreSystem.step] at h
    split at h <;> cases h
    · exact .refl _
    · exact .of_eq rfl rfl rfl (fun _ => .refl _) rfl
  | pushMemoryResponse n =>
    dsimp only [CoreSystem.step] at h
    split at h
    · cases h
      exact .refl _
    · next r _ =>
      cases h
      have hinst (i : ι) : SameTimes (s.core.heap.inst i)
          ((s.core.heap.setInst r.customData { s.core.heap.inst r.customData with
            nrWaitingRequest := (s.core.heap.inst r.customData).decWaitingRequest }).inst i) := by
        by_cases hi : i = r.customData
        · subst hi
          rw [CoreHeap.setInst_inst_self]
          exact ⟨rfl, rfl, rfl, .inl rfl⟩
        · rw [CoreHeap.setInst_inst_of_ne _ _ hi]
          exact .refl _
      dsimp only
      unfold Core.pushMemoryResponse
      dsimp only
      split <;> exact .of_eq rfl rfl rfl hinst rfl

end PyTorchSim.Analysis
