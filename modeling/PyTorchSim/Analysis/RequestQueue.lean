import PyTorchSim.Model.Simulator
import PyTorchSim.Library.Runs

/-!
# The request queue of a core

Only the DMA engine makes requests, and it appends them to the queue.  So a cycle keeps the
queue as a prefix, and a core is one of the cores a simulator may have.
-/

set_option autoImplicit false

namespace PyTorchSim.Analysis

open PyTorchSim.Model PyTorchSim.Library

variable {τ ι : Type} [DecidableEq τ] [DecidableEq ι] {c c' : Core τ ι} {cfg : CoreConfig}
  {env : CycleEnv} {i : ι} {t : τ}

/-! ## The compute units -/

theorem finishInstruction_queue {tag : InstFinishTraceTag}
    (h : c.finishInstruction i tag = .ok c') : c'.requestQueue = c.requestQueue := by
  unfold Core.finishInstruction at h
  split at h
  · split at h
    · cases h
    · cases h
      rfl
  · split at h
    · cases h
    · cases h
      rfl

omit [DecidableEq τ] [DecidableEq ι] in
theorem popPipeline_queue (c : Core τ ι) (p : Core.Pipeline) :
    (c.popPipeline p).requestQueue = c.requestQueue := by
  cases p <;> rfl

theorem vuLoop_queue (l : List ι) (h : Core.vuLoop l c = .ok c') :
    c'.requestQueue = c.requestQueue := by
  induction l generalizing c with
  | nil =>
      cases h
      rfl
  | cons i rest ih =>
      unfold Core.vuLoop at h
      dsimp only at h
      split at h
      · obtain ⟨d, hd, h⟩ := bind_eq_ok.mp h
        have hfinish := finishInstruction_queue hd
        rw [ih h, popPipeline_queue, hfinish]
        rfl
      · cases h
        rfl

theorem saLoop_queue (n : ℕ) (l : List ι) (h : Core.saLoop n l c = .ok c') :
    c'.requestQueue = c.requestQueue := by
  induction l generalizing c with
  | nil =>
      cases h
      rfl
  | cons i rest ih =>
      unfold Core.saLoop at h
      dsimp only at h
      split at h
      · obtain ⟨d, hd, h⟩ := bind_eq_ok.mp h
        have hfinish := finishInstruction_queue hd
        rw [ih h, popPipeline_queue, hfinish]
        rfl
      · cases h
        rfl

theorem computeCycle_queue (h : c.computeCycle cfg = .ok c') :
    c'.requestQueue = c.requestQueue := by
  obtain ⟨d, hd, h⟩ := bind_eq_ok.mp h
  have hvu : d.requestQueue = c.requestQueue := vuLoop_queue _ hd
  exact foldlM_invariant (I := fun e : Core τ ι => e.requestQueue = c.requestQueue) _ h hvu
    fun e n e' _ he hstep => (saLoop_queue n _ hstep).trans he

/-! ## The DMA engine -/

theorem finishSsd_queue (h : c.finishSsd i = .ok c') : c'.requestQueue = c.requestQueue := by
  unfold Core.finishSsd at h
  split at h
  · exact finishInstruction_queue h
  · split at h
    · obtain ⟨d, hd, h⟩ := bind_eq_ok.mp h
      have hfinish := finishInstruction_queue hd
      cases h
      exact hfinish
    · cases h
      rfl

theorem ssdCycle_queue (h : c.ssdCycle = .ok c') : c'.requestQueue = c.requestQueue := by
  unfold Core.ssdCycle at h
  split at h
  · split at h
    · cases h
      rfl
    · have hfinish := finishSsd_queue h
      exact hfinish
  · cases h
    rfl

theorem wakeWaiters_queue {g : ℕ} {key : List ℤ} (ws : List ι)
    (h : Core.wakeWaiters g key ws c = .ok c') : c'.requestQueue = c.requestQueue := by
  induction ws generalizing c with
  | nil =>
      cases h
      rfl
  | cons w ws ih =>
      unfold Core.wakeWaiters at h
      obtain ⟨dma, -, h⟩ := bind_eq_ok.mp h
      obtain ⟨d, hd, h⟩ := bind_eq_ok.mp h
      rw [ih h, finishInstruction_queue hd]

theorem finishSyncRead_queue (h : c.finishSyncRead i = .ok c') :
    c'.requestQueue = c.requestQueue := by
  unfold Core.finishSyncRead at h
  split at h
  · exact finishInstruction_queue h
  · cases h
    rfl

theorem finishAsyncRead_queue (h : c.finishAsyncRead i = .ok c') :
    c'.requestQueue = c.requestQueue := by
  unfold Core.finishAsyncRead at h
  split at h
  · obtain ⟨dma, -, h⟩ := bind_eq_ok.mp h
    obtain ⟨d, hd, h⟩ := bind_eq_ok.mp h
    obtain ⟨ws, -, h⟩ := bind_eq_ok.mp h
    rw [wakeWaiters_queue ws h, finishInstruction_queue hd]
  · cases h
    rfl

theorem drainLoop_queue (l : List ι) (h : Core.drainLoop l c = .ok c') :
    c'.requestQueue = c.requestQueue := by
  induction l generalizing c with
  | nil =>
      cases h
      rfl
  | cons i rest ih =>
      unfold Core.drainLoop at h
      obtain ⟨d, hd, h⟩ := bind_eq_ok.mp h
      obtain ⟨e, he, h⟩ := bind_eq_ok.mp h
      rw [ih h, ← finishSyncRead_queue hd, ← finishAsyncRead_queue he]

theorem finishSent_queue (h : c.finishSent i = .ok c') : c'.requestQueue = c.requestQueue := by
  unfold Core.finishSent at h
  split at h
  · exact finishInstruction_queue h
  · split at h
    · exact finishInstruction_queue h
    · split at h
      · cases h
      · cases h
        rfl

theorem retireCurrent_queue (h : c.retireCurrent = .ok c') :
    c'.requestQueue = c.requestQueue := by
  unfold Core.retireCurrent at h
  split at h
  · cases h
    rfl
  · obtain ⟨d, hd, h⟩ := bind_eq_ok.mp h
    have hsent := finishSent_queue hd
    cases h
    exact hsent

omit [DecidableEq τ] [DecidableEq ι] in
theorem issueDma_queue {b : Bool} (h : c.issueDma = .ok (c', b)) :
    c'.requestQueue = c.requestQueue := by
  unfold Core.issueDma at h
  split at h
  · obtain ⟨dma, -, h⟩ := bind_eq_ok.mp h
    cases h
    rfl
  · obtain ⟨dma, -, h⟩ := bind_eq_ok.mp h
    cases h
    rfl
  · cases h
    rfl

theorem nextDma_queue {b : Bool} (h : c.nextDma = .ok (c', b)) :
    c'.requestQueue = c.requestQueue := by
  unfold Core.nextDma at h
  split at h
  · obtain ⟨d, hd, h⟩ := bind_eq_ok.mp h
    rw [issueDma_queue h, retireCurrent_queue hd]
  · cases h
    rfl

omit [DecidableEq τ] in
theorem generateAccesses_queue {b : Bool} (h : Core.generateAccesses cfg env c = .ok (c', b)) :
    c'.requestQueue = c.requestQueue := by
  unfold Core.generateAccesses at h
  split at h
  · cases h
    rfl
  · split at h
    · cases h
    · split at h
      · cases h
        rfl
      · cases h
        rfl

omit [DecidableEq τ] in
theorem generateMemfetch_queue (h : Core.generateMemfetch cfg env c = .ok c') :
    c.requestQueue <+: c'.requestQueue := by
  unfold Core.generateMemfetch at h
  split at h
  · cases h
    exact List.prefix_refl _
  · obtain ⟨⟨d, b⟩, hd, h⟩ := bind_eq_ok.mp h
    have hqueue := generateAccesses_queue hd
    dsimp only at h
    split at h
    · cases h
      exact hqueue ▸ List.prefix_refl _
    · cases h
      rw [← hqueue]
      exact List.prefix_append _ _

theorem dmaCycle_queue (h : c.dmaCycle cfg env = .ok c') :
    c.requestQueue <+: c'.requestQueue := by
  unfold Core.dmaCycle at h
  obtain ⟨d, hd, h⟩ := bind_eq_ok.mp h
  obtain ⟨e, he, h⟩ := bind_eq_ok.mp h
  obtain ⟨⟨f, b⟩, hf, h⟩ := bind_eq_ok.mp h
  have hqueue : f.requestQueue = c.requestQueue := by
    rw [nextDma_queue hf, drainLoop_queue _ he, ssdCycle_queue hd]
  dsimp only at h
  rw [← hqueue]
  split at h
  · obtain ⟨g, hg, h⟩ := bind_eq_ok.mp h
    have hmemfetch := generateMemfetch_queue hg
    cases h
    exact hmemfetch
  · cases h
    exact List.prefix_refl _

/-! ## The issue loop -/

omit [DecidableEq τ] [DecidableEq ι] in
theorem waitForTag_queue (h : c.waitForTag i = .ok c') : c'.requestQueue = c.requestQueue := by
  unfold Core.waitForTag at h
  obtain ⟨dma, -, h⟩ := bind_eq_ok.mp h
  cases h
  rfl

theorem issueMovin_queue (h : c.issueMovin i = .ok c') : c'.requestQueue = c.requestQueue := by
  unfold Core.issueMovin at h
  dsimp only at h
  split at h
  · obtain ⟨dma, -, h⟩ := bind_eq_ok.mp h
    obtain ⟨d, hd, h⟩ := bind_eq_ok.mp h
    have hfinish := finishInstruction_queue hd
    cases h
    exact hfinish
  · split at h
    · obtain ⟨v, -, h⟩ := bind_eq_ok.mp h
      split at h
      · obtain ⟨d, hd, h⟩ := bind_eq_ok.mp h
        have hfinish := finishInstruction_queue hd
        cases h
        exact hfinish
      · obtain ⟨d, hd, h⟩ := bind_eq_ok.mp h
        have hwait := waitForTag_queue hd
        cases h
        exact hwait
    · cases h
      rfl

omit [DecidableEq τ] [DecidableEq ι] in
theorem getComputePipeline_queue {computeType : ℕ} {p : Core.Pipeline}
    (h : c.getComputePipeline cfg computeType = .ok (p, c')) :
    c'.requestQueue = c.requestQueue := by
  unfold Core.getComputePipeline at h
  split at h
  · cases h
    rfl
  · split at h
    · split at h
      · cases h
      · cases h
        rfl
    · cases h

omit [DecidableEq τ] [DecidableEq ι] in
theorem pushPipeline_queue (c : Core τ ι) (p : Core.Pipeline) (i : ι) :
    (c.pushPipeline p i).requestQueue = c.requestQueue := by
  cases p <;> rfl

theorem issueComp_queue {b : Bool} (h : c.issueComp cfg t i = .ok (c', b)) :
    c'.requestQueue = c.requestQueue := by
  unfold Core.issueComp at h
  obtain ⟨⟨p, d⟩, hd, h⟩ := bind_eq_ok.mp h
  have hqueue := getComputePipeline_queue hd
  dsimp only at h
  split at h
  · cases h
    exact hqueue
  · cases h
    split
    · exact (pushPipeline_queue _ p i).trans hqueue
    · exact (pushPipeline_queue _ p i).trans hqueue

theorem issueBar_queue (h : c.issueBar i = .ok c') : c'.requestQueue = c.requestQueue := by
  unfold Core.issueBar at h
  obtain ⟨v, -, h⟩ := bind_eq_ok.mp h
  split at h
  · have hfinish := finishInstruction_queue h
    exact hfinish
  · split at h
    · obtain ⟨dma, -, h⟩ := bind_eq_ok.mp h
      have hfinish := finishInstruction_queue h
      exact hfinish
    · exact waitForTag_queue h

theorem issueInst_queue {b : Bool} (h : c.issueInst cfg t i = .ok (c', b)) :
    c'.requestQueue = c.requestQueue := by
  unfold Core.issueInst at h
  dsimp only at h
  split at h
  · obtain ⟨d, hd, h⟩ := bind_eq_ok.mp h
    cases h
    exact (issueMovin_queue hd).trans rfl
  · cases h
    rfl
  · have hcomp := issueComp_queue h
    exact hcomp
  · obtain ⟨d, hd, h⟩ := bind_eq_ok.mp h
    cases h
    exact (issueBar_queue hd).trans rfl

theorem scanReady_queue (fuel : ℕ) {b : Bool} (h : Core.scanReady cfg env t fuel c = .ok (c', b)) :
    c'.requestQueue = c.requestQueue := by
  induction fuel generalizing c with
  | zero => cases h
  | succ fuel ih =>
      unfold Core.scanReady at h
      split at h
      · cases h
        rfl
      · obtain ⟨⟨d, issued⟩, hd, h⟩ := bind_eq_ok.mp h
        have hqueue := issueInst_queue hd
        dsimp only at h
        split at h
        · cases h
          exact hqueue
        · split at h
          · exact (ih h).trans hqueue
          · cases h

theorem issueLoop_queue (ts : List τ) {b : Bool} (h : Core.issueLoop cfg env ts c = .ok (c', b)) :
    c'.requestQueue = c.requestQueue := by
  induction ts generalizing c with
  | nil =>
      cases h
      rfl
  | cons t ts ih =>
      unfold Core.issueLoop at h
      obtain ⟨⟨d, issued⟩, hd, h⟩ := bind_eq_ok.mp h
      have hqueue := scanReady_queue _ hd
      dsimp only at h
      split at h
      · cases h
        exact hqueue
      · exact (ih h).trans hqueue

omit [DecidableEq ι] in
theorem removeFinishedTile_queue (c : Core τ ι) :
    c.removeFinishedTile.requestQueue = c.requestQueue := by
  unfold Core.removeFinishedTile
  split <;> rfl

/-- A cycle of a core appends to its request queue. -/
theorem cycle_queue (h : c.cycle cfg env = .ok c') : c.requestQueue <+: c'.requestQueue := by
  unfold Core.cycle at h
  obtain ⟨d, hd, h⟩ := bind_eq_ok.mp h
  obtain ⟨e, he, h⟩ := bind_eq_ok.mp h
  obtain ⟨⟨f, issued⟩, hf, h⟩ := bind_eq_ok.mp h
  have hdma : c.requestQueue <+: f.requestQueue := by
    have hgrow := dmaCycle_queue he
    have hissue := issueLoop_queue _ hf
    rw [hissue, ← computeCycle_queue hd]
    exact hgrow
  have hstats : ∀ g : Core τ ι, g.requestQueue = f.requestQueue →
      (if cfg.corePrintInterval ≠ 0 ∧ g.coreCycle % cfg.corePrintInterval = 0 then
        pure (g.addStats (Core.updateStats cfg)) else pure g : Except CoreFault (Core τ ι)) =
          .ok c' → c.requestQueue <+: c'.requestQueue := by
    intro g hg h
    rw [← hg] at hdma
    split at h
    · cases h
      exact hdma
    · cases h
      exact hdma
  cases issued with
  | true => exact hstats f rfl h
  | false => exact hstats f.removeFinishedTile (removeFinishedTile_queue f) h

end PyTorchSim.Analysis

namespace PyTorchSim.Model

open PyTorchSim.Analysis

/-- A core as the simulator sees it. -/
def Core.interface {τ ι : Type} [DecidableEq τ] [DecidableEq ι] (cfg : CoreConfig) :
    CoreInterface (Core τ ι) τ ι CycleEnv where
  running := Core.running cfg
  canIssue := Core.canIssue
  issue := Core.issue
  popFinishedTile c :=
    (c.popFinishedTile.1.filter fun t => (c.heap.tile t).status = .finish, c.popFinishedTile.2)
  cycle := Core.cycle cfg
  requestQueue := Core.requestQueue
  popMemoryRequest c := { c with requestQueue := c.requestQueue.tail }
  pushMemoryResponse := Core.pushMemoryResponse
  issue_queue _ _ := rfl
  popFinishedTile_queue c := by
    unfold Core.popFinishedTile
    split <;> rfl
  cycle_queue _ _ _ h := cycle_queue h
  popMemoryRequest_queue _ := rfl
  pushMemoryResponse_queue c r := by
    unfold Core.pushMemoryResponse
    dsimp only
    split <;> rfl

end PyTorchSim.Model
