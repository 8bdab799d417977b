import PyTorchSim.Analysis.CoreInvariant
import PyTorchSim.Library.Runs

/-!
# A cycle is a row of steps

The functions of a core are taken apart: what each of them does, from a state with the
invariant, is explained by the steps of `UnitStep` and `IssueStep`, and a fault by the state
it arises in.  `StopsWith` says which faults arise, and in which states.
-/

set_option autoImplicit false

namespace PyTorchSim.Model.Core

variable {τ ι : Type} [DecidableEq τ] [DecidableEq ι]

/-- The first half of a cycle: the compute units and the DMA engine. -/
def unitCycle (cfg : CoreConfig) (env : CycleEnv) (c : Core τ ι) : Except CoreFault (Core τ ι) := do
  let c ← c.computeCycle cfg
  c.dmaCycle cfg env

/-- The second half of a cycle: the clock, the issue switch and the report of a tile. -/
def issueCycle (cfg : CoreConfig) (env : CycleEnv) (c : Core τ ι) :
    Except CoreFault (Core τ ι) := do
  let c := { c with coreCycle := c.coreCycle + 1 }
  let (c, issued) ← issueLoop cfg env c.tiles c
  let c := if issued then c else c.removeFinishedTile
  if cfg.corePrintInterval ≠ 0 ∧ c.coreCycle % cfg.corePrintInterval = 0 then
    pure (c.addStats (updateStats cfg))
  else pure c

theorem cycle_eq (cfg : CoreConfig) (env : CycleEnv) (c : Core τ ι) :
    c.cycle cfg env = c.unitCycle cfg env >>= issueCycle cfg env := by
  unfold cycle unitCycle
  rw [bind_assoc]
  rfl

end PyTorchSim.Model.Core

namespace PyTorchSim.Analysis

open PyTorchSim.Model PyTorchSim.Library

variable {τ ι : Type} [DecidableEq τ] [DecidableEq ι] {P : TileProgram τ ι} {c c' : Core τ ι}
  {i : ι} {t : τ} {b : Bool} {cfg : CoreConfig}

omit [DecidableEq τ] [DecidableEq ι] in
/-- The faults of a core and the states in which they arise.  Eight of them never do. -/
def StopsWith : CoreFault → Core τ ι → Prop
  | .notFinished, _ => False
  | .alreadyFinished, _ => False
  | .subgraphNotInTable, _ => False
  | .invalidDmaInstruction, _ => False
  | .noCurrentInst, _ => False
  | .outOfFuel, _ => False
  | .noTagToWaitFor, _ => False
  | .noTagWaiters, _ => False
  | .tagNotReady, c => ∃ g key, 2 ^ 32 ≤ (c.dma.waiters g key).length
  | .keyNotInTable, c => ∃ t ∈ c.tiles, ∃ i, (c.heap.tile t).readyQueue.head? = some i ∧
      (c.heap.inst i).opcode = .bar ∧
      c.dma.tag (c.heap.inst i).subgraphId (c.heap.inst i).tagKey = none
  | .endIteratorDereferenced, c => ∃ t ∈ c.tiles, ∃ i,
      (c.heap.tile t).readyQueue.head? = some i ∧ (c.heap.inst i).opcode = .bar ∧
      c.dma.tag (c.heap.inst i).subgraphId (c.heap.inst i).tagKey = none
  | .unsupportedTile, _ => True
  | .undefinedComputeType, _ => True
  | .erasedIterator, _ => True

omit [DecidableEq τ] [DecidableEq ι] in
/-- The faults of the issue switch.  Marking a tag used is not one of them. -/
def IssueStops (e : CoreFault) (c : Core τ ι) : Prop := e ≠ .tagNotReady ∧ StopsWith e c

/-! ## Finishing -/

theorem finishInstruction_ok (h : (c.heap.inst i).finished = false) :
    c.finishInstruction i = .ok (c.finish i) := by
  unfold Core.finishInstruction
  rw [if_neg (by simp), h, if_neg Bool.false_ne_true]
  rfl

theorem finishInstruction_issue (h : (c.heap.inst i).finished = false) :
    c.finishInstruction i .dmaIssueComplete = .ok (c.finish i) := by
  unfold Core.finishInstruction
  rw [if_neg (by simp), h, if_neg Bool.false_ne_true]
  rfl

theorem finishInstruction_resp (h : (c.heap.inst i).finished = true) :
    c.finishInstruction i .dmaRespComplete = .ok (c.log (.dataReturned i)) := by
  unfold Core.finishInstruction
  rw [if_pos rfl, h]
  rfl

theorem finish_last {s : Core τ ι} (h : (c.heap.inst i).finished = false)
    (hr : UnitStep cfg s (c.finish i)) :
    Outcome (UnitStep cfg) StopsWith s id (c.finishInstruction i) := by
  rw [finishInstruction_ok h]
  exact .single hr

section Bind

variable {α : Type} {s : Core τ ι} {post : α → Core τ ι} {f : Core τ ι → Except CoreFault α}

theorem finish_bind (h : (c.heap.inst i).finished = false)
    (hr : Outcome (UnitStep cfg) StopsWith s post (f (c.finish i))) :
    Outcome (UnitStep cfg) StopsWith s post (c.finishInstruction i >>= f) := by
  rw [finishInstruction_ok h]
  exact hr

theorem finish_bind_issue (h : (c.heap.inst i).finished = false)
    (hr : Outcome (UnitStep cfg) StopsWith s post (f (c.finish i))) :
    Outcome (UnitStep cfg) StopsWith s post (c.finishInstruction i .dmaIssueComplete >>= f) := by
  rw [finishInstruction_issue h]
  exact hr

end Bind

/-! ## The compute units -/

/-- A step of a unit in front of a computation. -/
theorem UnitStep.andThen {α : Type} {post : α → Core τ ι} {r : Except CoreFault α}
    (h : UnitStep cfg c c') (hI : CoreInv P c)
    (hr : CoreInv P c' → Outcome (UnitStep cfg) StopsWith c' post r) :
    Outcome (UnitStep cfg) StopsWith c post r :=
  .step h (hr (h.inv hI))

omit [DecidableEq τ] in
/-- The instructions in a pipeline are not finished. -/
theorem CoreInv.pipeline_unfinished (hI : CoreInv P c) {p : Core.Pipeline} {rest : List ι}
    (hp : c.pipeline p = i :: rest) : (c.heap.inst i).finished = false := by
  have hmem : i ∈ places c.heap (elsewhere P c) (.pipe p) := by
    change i ∈ c.pipeline p
    rw [hp]
    exact List.mem_cons_self
  exact hI.placement.flag _ i hmem

omit [DecidableEq τ] [DecidableEq ι] in
theorem pipeline_popPipeline (c : Core τ ι) (p : Core.Pipeline) :
    (c.popPipeline p).pipeline p = (c.pipeline p).tail := by
  unfold Core.popPipeline
  rw [Core.pipeline_setPipeline, if_pos rfl]

theorem vuLoop_outcome (l : List ι) (hI : CoreInv P c) (hl : c.pipeline .vu = l) :
    Outcome (UnitStep cfg) StopsWith c id (Core.vuLoop l c) := by
  induction l generalizing c with
  | nil => exact .single (.stats c _)
  | cons i rest ih =>
      unfold Core.vuLoop
      refine UnitStep.andThen (.stats c .vuBusy) hI fun hI₁ => ?_
      dsimp only
      split
      · refine UnitStep.andThen (.stats _ (.vuBubble (c.heap.inst i).bubbleCycle)) hI₁
          fun hI₂ => ?_
        refine finish_bind (hI₂.pipeline_unfinished (p := .vu) hl) ?_
        refine UnitStep.andThen (.compute _ .vu i rest hl) hI₂ fun hI₃ => ih hI₃ ?_
        rw [pipeline_popPipeline]
        exact congrArg List.tail hl
      · exact .ok rfl

theorem saLoop_outcome (n : ℕ) (l : List ι) (hI : CoreInv P c) (hl : c.pipeline (.sa n) = l) :
    Outcome (UnitStep cfg) StopsWith c id (Core.saLoop n l c) := by
  induction l generalizing c with
  | nil => exact .single (.stats c _)
  | cons i rest ih =>
      unfold Core.saLoop
      split
      · refine UnitStep.andThen (.stats c (.saBubble n (c.heap.inst i).bubbleCycle)) hI
          fun hI₁ => ?_
        refine finish_bind (hI₁.pipeline_unfinished (p := .sa n) hl) ?_
        refine UnitStep.andThen (.compute _ (.sa n) i rest hl) hI₁ fun hI₂ => ih hI₂ ?_
        rw [pipeline_popPipeline]
        exact congrArg List.tail hl
      · exact .single (.stats c _)

theorem unit_keeps (cfg : CoreConfig) (P : TileProgram τ ι) :
    ∀ c c', CoreInv P c → UnitStep cfg c c' → CoreInv P c' := fun _ _ hI h => h.inv hI

theorem saCycle_outcome (hI : CoreInv P c) :
    Outcome (UnitStep cfg) StopsWith c id (Core.saCycle cfg c) := by
  unfold Core.saCycle
  induction List.range cfg.numSystolicArrayPerCore generalizing c with
  | nil => exact .ok rfl
  | cons n l ih =>
      rw [List.foldlM_cons]
      exact Outcome.bind (unit_keeps cfg P) hI (saLoop_outcome n _ hI rfl) fun c₁ _ hI₁ => ih hI₁

theorem computeCycle_outcome (hI : CoreInv P c) :
    Outcome (UnitStep cfg) StopsWith c id (Core.computeCycle cfg c) := by
  unfold Core.computeCycle
  exact Outcome.bind (unit_keeps cfg P) hI (vuLoop_outcome _ hI rfl)
    fun c₁ _ hI₁ => saCycle_outcome hI₁

/-! ## The DMA engine -/

omit [DecidableEq τ] in
/-- The current instruction of the engine is not finished. -/
theorem CoreInv.current_unfinished (hI : CoreInv P c) (hcur : c.dma.currentInst = some i) :
    (c.heap.inst i).finished = false :=
  hI.placement.flag .dma i (by simp [places, elsewhere, hcur])

omit [DecidableEq τ] in
/-- An instruction of the engine that is no store is a load. -/
theorem CoreInv.read_of_not_write (hI : CoreInv P c) (hcur : c.dma.currentInst = some i)
    (hw : (c.heap.inst i).isDmaWrite = false) : (c.heap.inst i).isDmaRead = true := by
  refine (hI.isRead i).mpr ((hI.current_fits hcur).resolve_right fun hop => ?_)
  rw [(hI.isWrite i).mpr hop] at hw
  cases hw

theorem ssdCycle_outcome (hI : CoreInv P c) :
    Outcome (UnitStep cfg) StopsWith c id c.ssdCycle := by
  unfold Core.ssdCycle
  split
  case isFalse => exact .ok rfl
  case isTrue h =>
      rw [Bool.and_eq_true] at h
      cases hcur : c.dma.currentInst with
      | none => exact .single (.ssdNone c h.1 hcur)
      | some i =>
          have hflag := hI.current_unfinished hcur
          unfold Core.finishSsd
          dsimp only
          cases hw : (c.heap.inst i).isDmaWrite with
          | true => exact finish_last hflag (.ssdWrite c i h.1 hcur hw)
          | false =>
              have hr := hI.read_of_not_write hcur hw
              rw [hr]
              cases ha : (c.heap.inst i).isAsyncDma with
              | true => exact finish_bind_issue hflag (.single (.ssdAsync c i h.1 hcur hr ha))
              | false => exact .single (.ssdSync c i h.1 hcur hr ha)

omit [DecidableEq τ] [DecidableEq ι] in
theorem storeTag_storeTag (d : DMA ι) (g : ℕ) (key : List ℤ) (v w : ℕ) :
    (d.storeTag g key v).storeTag g key w = d.storeTag g key w := by
  simp [DMA.storeTag]

omit [DecidableEq τ] [DecidableEq ι] in
theorem markTagUsed_ok {d : DMA ι} {g : ℕ} {key : List ℤ} {v : ℕ} (htag : d.tag g key = some v)
    (hv : v ≠ 0) : d.markTagUsed g key = .ok (d.storeTag g key ((v + 1) % 2 ^ 32)) := by
  have htable : (d.tagTable g).isNone = false := by
    unfold DMA.tag at htag
    cases h : d.tagTable g with
    | none => simp [h] at htag
    | some m => rfl
  unfold DMA.markTagUsed
  rw [htable, if_neg Bool.false_ne_true, htag]
  simp only [Option.getD_some, if_neg hv]

omit [DecidableEq τ] [DecidableEq ι] in
theorem markTagUsed_storeTag (d : DMA ι) (g : ℕ) (key : List ℤ) {v : ℕ} (hv : v ≠ 0) :
    (d.storeTag g key v).markTagUsed g key = .ok (d.storeTag g key ((v + 1) % 2 ^ 32)) := by
  have htag : (d.storeTag g key v).tag g key = some v := by
    rw [DMA.tag_storeTag, if_pos ⟨rfl, rfl⟩]
  rw [markTagUsed_ok htag hv, storeTag_storeTag]

theorem wakeWaiters_cons {g : ℕ} {key : List ℤ} {w : ι} {ws : List ι} (q : List ι) {v : ℕ}
    (hpos : 0 < v) (hlt : v < 2 ^ 32) (hflag : (c.heap.inst w).finished = false) :
    Core.wakeWaiters g key (w :: ws) { c.setTag g key (v % 2 ^ 32) with dmaFinishedQueue := q } =
      Core.wakeWaiters g key ws
        { (c.finish w).setTag g key ((v + 1) % 2 ^ 32) with dmaFinishedQueue := q } := by
  have hmod : v % 2 ^ 32 = v := Nat.mod_eq_of_lt hlt
  have hmark : (c.dma.storeTag g key (v % 2 ^ 32)).markTagUsed g key =
      .ok (c.dma.storeTag g key ((v + 1) % 2 ^ 32)) := by
    rw [hmod]
    exact markTagUsed_storeTag _ _ _ (by omega)
  have hfinish : ({ c.setTag g key ((v + 1) % 2 ^ 32) with
      dmaFinishedQueue := q } : Core τ ι).finishInstruction w =
        .ok (({ c.setTag g key ((v + 1) % 2 ^ 32) with
          dmaFinishedQueue := q } : Core τ ι).finish w) := finishInstruction_ok hflag
  change (do
    let dma ← (c.dma.storeTag g key (v % 2 ^ 32)).markTagUsed g key
    let c' ← ({ c.setTag g key (v % 2 ^ 32) with
      dmaFinishedQueue := q, dma := dma } : Core τ ι).finishInstruction w
    Core.wakeWaiters g key ws c') = _
  rw [hmark]
  change (({ c.setTag g key ((v + 1) % 2 ^ 32) with
    dmaFinishedQueue := q } : Core τ ι).finishInstruction w >>= fun c' =>
      Core.wakeWaiters g key ws c') = _
  rw [hfinish]
  rfl

/-- The waiters of a tag are finished in turn, as long as its word does not run over. -/
theorem wakeWaiters_eq {g : ℕ} {key : List ℤ} {ws : List ι} (q : List ι) {v : ℕ} (hpos : 0 < v)
    (hlen : v + ws.length ≤ 2 ^ 32) (hI : CoreInv P c) (hws : ws.Nodup)
    (hhand : ∀ w ∈ ws, Hand P c w false) :
    Core.wakeWaiters g key ws { c.setTag g key (v % 2 ^ 32) with dmaFinishedQueue := q } =
      .ok { ws.foldl Core.finish (c.setTag g key ((v + ws.length) % 2 ^ 32)) with
        dmaFinishedQueue := q } := by
  induction ws generalizing c v with
  | nil => rfl
  | cons w ws ih =>
      obtain ⟨hw, hws⟩ := List.nodup_cons.mp hws
      have hsum : v + (w :: ws).length = v + 1 + ws.length := by
        rw [List.length_cons]
        omega
      obtain ⟨hfin, hkeep⟩ := hI.finishHand (hhand w List.mem_cons_self)
      rw [wakeWaiters_cons q hpos (by omega) (hhand w List.mem_cons_self).flag, hsum]
      exact ih (c := c.finish w) (by omega) (by omega) hfin hws fun u hu =>
        hkeep u false (fun heq => hw (heq ▸ hu)) (hhand u (List.mem_cons_of_mem w hu))

/-- When there are too many waiters, the word runs over to 0 and marking it used throws. -/
theorem wakeWaiters_fault {g : ℕ} {key : List ℤ} {ws : List ι} (q : List ι) {v : ℕ} (hpos : 0 < v)
    (hle : v ≤ 2 ^ 32) (hlen : 2 ^ 32 < v + ws.length) (hI : CoreInv P c) (hws : ws.Nodup)
    (hhand : ∀ w ∈ ws, Hand P c w false) :
    Core.wakeWaiters g key ws { c.setTag g key (v % 2 ^ 32) with dmaFinishedQueue := q } =
      .error .tagNotReady := by
  induction ws generalizing c v with
  | nil => simp at hlen; omega
  | cons w ws ih =>
      obtain ⟨hw, hws⟩ := List.nodup_cons.mp hws
      rw [List.length_cons] at hlen
      rcases Nat.lt_or_eq_of_le hle with hlt | rfl
      · obtain ⟨hfin, hkeep⟩ := hI.finishHand (hhand w List.mem_cons_self)
        rw [wakeWaiters_cons q hpos hlt (hhand w List.mem_cons_self).flag]
        exact ih (c := c.finish w) (by omega) (by omega) (by omega) hfin hws fun u hu =>
          hkeep u false (fun heq => hw (heq ▸ hu)) (hhand u (List.mem_cons_of_mem w hu))
      · have hmark : (c.dma.storeTag g key (2 ^ 32 % 2 ^ 32)).markTagUsed g key =
            .error .tagNotReady := by
          have htag : (c.dma.storeTag g key 0).tag g key = some 0 := by
            rw [DMA.tag_storeTag, if_pos ⟨rfl, rfl⟩]
          have htable : ((c.dma.storeTag g key 0).tagTable g).isNone = false := by
            simp [DMA.storeTag]
          rw [Nat.mod_self]
          unfold DMA.markTagUsed
          rw [htable, if_neg Bool.false_ne_true, htag]
          rfl
        change (do
          let dma ← (c.dma.storeTag g key (2 ^ 32 % 2 ^ 32)).markTagUsed g key
          let c' ← ({ c.setTag g key (2 ^ 32 % 2 ^ 32) with
            dmaFinishedQueue := q, dma := dma } : Core τ ι).finishInstruction w
          Core.wakeWaiters g key ws c') = _
        rw [hmark]
        rfl

theorem foldl_finish_queue (ws : List ι) (c : Core τ ι) :
    (ws.foldl Core.finish c).dmaFinishedQueue = c.dmaFinishedQueue := by
  induction ws generalizing c with
  | nil => rfl
  | cons w ws ih => exact ih (c.finish w)

/-- What the arrival of the data of an asynchronous load does. -/
theorem finishAsyncRead_eq (hI : CoreInv P c) {rest ws : List ι}
    (hq : c.dmaFinishedQueue = i :: rest) (hr : (c.heap.inst i).isDmaRead = true)
    (ha : (c.heap.inst i).isAsyncDma = true)
    (hws : c.dma.waiters (c.heap.inst i).subgraphId (c.heap.inst i).tagKey = ws) :
    c.finishAsyncRead i = if ws.length < 2 ^ 32 then
      .ok { ws.foldl Core.finish ({ c.setTag (c.heap.inst i).subgraphId (c.heap.inst i).tagKey
        ((1 + ws.length) % 2 ^ 32) with dmaFinishedQueue := rest }.log (.dataReturned i)) with
          dmaFinishedQueue := c.dmaFinishedQueue }
    else .error .tagNotReady := by
  have hmem : i ∈ elsewhere P c .arrived := by simp [elsewhere, hq]
  have hop := (hI.isRead i).mp hr
  have hasync := ha
  rw [hI.isAsync] at hasync
  have hflag : (c.heap.inst i).finished = true := by
    rw [hI.placement.flag .arrived i hmem]
    simp [Place.finishedAt, hasync]
  have hknown := hI.transit.known _ (List.mem_filterMap.mpr
    ⟨i, by simp [Core.transit, hq], hI.loadTag_eq hop hasync⟩)
  obtain ⟨hI₁, hnodup, hhand⟩ := hI.arrive 1 hq hr ha
  rw [hws] at hnodup hhand
  unfold Core.finishAsyncRead
  rw [hr, ha, Bool.and_self, if_pos rfl]
  change (c.dma.tag (c.heap.inst i).subgraphId (c.heap.inst i).tagKey).isSome = true at hknown
  generalize (c.heap.inst i).subgraphId = g at *
  generalize (c.heap.inst i).tagKey = key at *
  have htable : (c.dma.tagTable g).isNone = false := by
    unfold DMA.tag at hknown
    cases h : c.dma.tagTable g with
    | none => simp [h] at hknown
    | some m => rfl
  have hset : c.dma.setTagFinish g key = .ok (c.dma.storeTag g key 1) := by
    unfold DMA.setTagFinish
    rw [htable, if_neg Bool.false_ne_true]
  have hresp : (c.setTag g key 1).finishInstruction i .dmaRespComplete =
      .ok ((c.setTag g key 1).log (.dataReturned i)) := finishInstruction_resp hflag
  have hget : (c.dma.storeTag g key 1).getTagWaiter g key = .ok ws := by
    rw [← hws]
    simp [DMA.getTagWaiter, DMA.tag, DMA.storeTag]
  have hover : ∀ w, (({ c.setTag g key 1 with
      dmaFinishedQueue := rest }.log (.dataReturned i)).setTag g key w) =
        { c.setTag g key w with dmaFinishedQueue := rest }.log (.dataReturned i) := by
    intro w
    simp [Core.setTag, Core.log, storeTag_storeTag]
  have hstart : (c.setTag g key 1).log (.dataReturned i) =
      { (({ c.setTag g key 1 with dmaFinishedQueue := rest }.log (.dataReturned i)).setTag g key
        (1 % 2 ^ 32)) with dmaFinishedQueue := c.dmaFinishedQueue } := by
    rw [hover]
    rfl
  change (c.dma.setTagFinish g key >>= fun dma => do
    let c' ← ({ c with dma := dma } : Core τ ι).finishInstruction i .dmaRespComplete
    let ws ← c'.dma.getTagWaiter g key
    Core.wakeWaiters g key ws c') = _
  rw [hset]
  change ((c.setTag g key 1).finishInstruction i .dmaRespComplete >>= fun c' => do
    let ws ← c'.dma.getTagWaiter g key
    Core.wakeWaiters g key ws c') = _
  rw [hresp]
  change ((c.dma.storeTag g key 1).getTagWaiter g key >>= fun ws =>
    Core.wakeWaiters g key ws ((c.setTag g key 1).log (.dataReturned i))) = _
  rw [hget]
  change Core.wakeWaiters g key ws ((c.setTag g key 1).log (.dataReturned i)) = _
  rw [hstart]
  by_cases hlen : ws.length < 2 ^ 32
  · rw [if_pos hlen, wakeWaiters_eq _ Nat.one_pos (by omega) hI₁ hnodup hhand, hover]
  · rw [if_neg hlen, wakeWaiters_fault _ Nat.one_pos (by omega) (by omega) hI₁ hnodup hhand]

/-- The loop goes on after a step that has taken the front from the queue. -/
theorem drainLoop_rest {rest : List ι} (hstep : UnitStep cfg c c')
    (htail : c.dmaFinishedQueue.tail = rest) (hqueue : c'.dmaFinishedQueue = rest)
    (hr : Outcome (UnitStep cfg) StopsWith c' id (Core.drainLoop rest c')) :
    Outcome (UnitStep cfg) StopsWith c id
      (Core.drainLoop rest { c' with dmaFinishedQueue := c.dmaFinishedQueue.tail }) := by
  rw [htail, ← hqueue]
  rw [← hqueue] at hr
  exact .step hstep hr

theorem drainLoop_outcome (l : List ι) (hI : CoreInv P c) (hl : c.dmaFinishedQueue = l) :
    Outcome (UnitStep cfg) StopsWith c id (Core.drainLoop l c) := by
  induction l generalizing c with
  | nil => exact .ok rfl
  | cons i rest ih =>
      have htail : c.dmaFinishedQueue.tail = rest := by rw [hl]; rfl
      unfold Core.drainLoop
      cases hr : (c.heap.inst i).isDmaRead with
      | false =>
          have hsync : c.finishSyncRead i = .ok c := by simp [Core.finishSyncRead, hr]
          have hasync : c.finishAsyncRead i = .ok c := by simp [Core.finishAsyncRead, hr]
          rw [hsync]
          change Outcome _ _ c id (c.finishAsyncRead i >>= fun c' =>
            Core.drainLoop rest { c' with dmaFinishedQueue := c'.dmaFinishedQueue.tail })
          rw [hasync]
          change Outcome _ _ c id
            (Core.drainLoop rest { c with dmaFinishedQueue := c.dmaFinishedQueue.tail })
          rw [htail]
          exact UnitStep.andThen (.drainWrite c i rest hl hr) hI fun hI₁ => ih hI₁ rfl
      | true =>
          cases ha : (c.heap.inst i).isAsyncDma with
          | false =>
              have hmem : i ∈ elsewhere P c .arrived := by simp [elsewhere, hl]
              have hflag : (c.heap.inst i).finished = false := by
                rw [hI.placement.flag .arrived i hmem]
                rw [hI.isAsync] at ha
                simp [Place.finishedAt, (hI.isRead i).mp hr, ha]
              have hsync : c.finishSyncRead i = .ok (c.finish i) := by
                simp [Core.finishSyncRead, hr, ha, finishInstruction_ok hflag]
              have hstep : UnitStep cfg c _ := .drainSync c i rest hl hr ha
              have hI₁ := hstep.inv hI
              have hkeep : ((c.finish i).heap.inst i).isAsyncDma = false := by
                rw [hI.isAsync, ← hI₁.isAsync] at ha
                exact ha
              have hasync : (c.finish i).finishAsyncRead i = .ok (c.finish i) := by
                simp [Core.finishAsyncRead, hkeep]
              rw [hsync]
              change Outcome _ _ c id ((c.finish i).finishAsyncRead i >>= fun c' =>
                Core.drainLoop rest { c' with dmaFinishedQueue := c'.dmaFinishedQueue.tail })
              rw [hasync]
              change Outcome _ _ c id
                (Core.drainLoop rest { c.finish i with dmaFinishedQueue := c.dmaFinishedQueue.tail })
              rw [htail]
              exact .step hstep (ih hI₁ rfl)
          | true =>
              have hsync : c.finishSyncRead i = .ok c := by simp [Core.finishSyncRead, ha]
              rw [hsync]
              change Outcome _ _ c id (c.finishAsyncRead i >>= fun c' =>
                Core.drainLoop rest { c' with dmaFinishedQueue := c'.dmaFinishedQueue.tail })
              rw [finishAsyncRead_eq hI hl hr ha rfl]
              split
              case isFalse hlen => exact .fault ⟨_, _, Nat.le_of_not_lt hlen⟩
              case isTrue hlen =>
                  have hstep : UnitStep cfg c _ := .drainAsync c i rest _ hl hr ha rfl hlen
                  have hI₁ := hstep.inv hI
                  have hrest := drainLoop_rest hstep htail (foldl_finish_queue _ _)
                    (ih hI₁ (foldl_finish_queue _ _))
                  exact hrest

theorem retireCurrent_outcome (hI : CoreInv P c) (hfin : c.dma.finished = true) :
    Outcome (UnitStep cfg) StopsWith c id c.retireCurrent := by
  unfold Core.retireCurrent
  cases hcur : c.dma.currentInst with
  | none => exact .ok rfl
  | some i =>
      have hflag := hI.current_unfinished hcur
      unfold Core.finishSent
      dsimp only
      cases hw : (c.heap.inst i).isDmaWrite with
      | true => exact finish_bind hflag (.single (.retireWrite c i hfin hcur hw))
      | false =>
          have hr := hI.read_of_not_write hcur hw
          rw [hr]
          cases ha : (c.heap.inst i).isAsyncDma with
          | true => exact finish_bind_issue hflag (.single (.retireAsync c i hfin hcur hr ha))
          | false => exact .single (.retireSync c i hfin hcur hr ha)

theorem finishInstruction_dma {tag : InstFinishTraceTag}
    (h : c.finishInstruction i tag = .ok c') : c'.dma = c.dma := by
  unfold Core.finishInstruction at h
  split at h
  · split at h
    · cases h
    · cases h
      rfl
  · split at h
    · cases h
    · cases h
      rfl

theorem finishSent_dma (h : c.finishSent i = .ok c') : c'.dma = c.dma := by
  unfold Core.finishSent at h
  split at h
  · exact finishInstruction_dma h
  · split at h
    · exact finishInstruction_dma h
    · split at h
      · cases h
      · cases h
        rfl

/-- The engine has no instruction after `retireCurrent`. -/
theorem retireCurrent_dma (h : c.retireCurrent = .ok c') :
    c'.dma = { c.dma with currentInst := none } := by
  unfold Core.retireCurrent at h
  cases hcur : c.dma.currentInst with
  | none =>
      rw [hcur] at h
      cases h
      rw [← hcur]
  | some i =>
      rw [hcur] at h
      simp only at h
      cases hsent : Core.finishSent { c with dma := { c.dma with currentInst := none } } i with
      | error e =>
          rw [hsent] at h
          cases h
      | ok c₁ =>
          rw [hsent] at h
          cases h
          exact finishSent_dma hsent

theorem issueDma_outcome (hfin : c.dma.finished = true) (hcur : c.dma.currentInst = none) :
    Outcome (UnitStep cfg) StopsWith c Prod.fst c.issueDma := by
  unfold Core.issueDma
  split
  · rename_i st i rest hld
    unfold DMA.issueTile
    split
    · exact .fault trivial
    · exact .single (.startLoad c i rest hfin hcur hld)
  · rename_i i rest hld hst
    unfold DMA.issueTile
    split
    · exact .fault trivial
    · exact .single (.startStore c i rest hfin hcur hst)
  · exact .single (.stats c .dmaIdle)

omit [DecidableEq τ] [DecidableEq ι] in
/-- After `issueDma` the engine is idle or works on an instruction. -/
theorem issueDma_busy (h : c.issueDma = .ok (c', true)) : c'.dma.finished = false := by
  unfold Core.issueDma DMA.issueTile at h
  split at h
  · split at h
    · cases h
    · cases h
      rfl
  · split at h
    · cases h
    · cases h
      rfl
  · cases h

theorem generateAccesses_outcome {env : CycleEnv} (hI : CoreInv P c)
    (hfin : c.dma.finished = false) (hssd : c.dma.ssdPending = false) :
    Outcome (UnitStep cfg) StopsWith c Prod.fst (c.generateAccesses cfg env) := by
  unfold Core.generateAccesses
  split
  · exact .ok rfl
  · rename_i hgen
    rw [Bool.not_eq_true] at hgen
    split
    · rename_i hcur
      have hbusy := hI.engine.busy hfin
      rw [hcur] at hbusy
      cases hbusy
    · rename_i i hcur
      split
      · exact .single (.oracle c i _ hcur hgen hfin)
      · exact .single (.generate c i env hcur hgen hssd hfin)

omit [DecidableEq τ] in
theorem generateAccesses_generated {env : CycleEnv} (hssd : c.dma.ssdPending = false)
    (h : c.generateAccesses cfg env = .ok (c', true)) :
    c'.dma.generatedOnce = true ∧ c'.dma.ssdPending = false := by
  unfold Core.generateAccesses at h
  split at h
  · rename_i hgen
    cases h
    exact ⟨hgen, hssd⟩
  · split at h
    · cases h
    · split at h
      · cases h
      · cases h
        exact ⟨rfl, hssd⟩

theorem generateMemfetch_outcome {env : CycleEnv} (hI : CoreInv P c)
    (hfin : c.dma.finished = false) :
    Outcome (UnitStep cfg) StopsWith c id (c.generateMemfetch cfg env) := by
  unfold Core.generateMemfetch
  cases hssd : c.dma.ssdPending with
  | true => exact .ok rfl
  | false =>
      simp only [Bool.false_eq_true, if_false]
      refine Outcome.bind (unit_keeps cfg P) hI (generateAccesses_outcome hI hfin hssd) ?_
      rintro ⟨c₁, generated⟩ hok hI₁
      cases generated with
      | false => exact .ok rfl
      | true =>
          obtain ⟨hgen, hssd₁⟩ := generateAccesses_generated hssd hok
          exact .single (.inject c₁ _ hgen hssd₁)

theorem nextDma_outcome (hI : CoreInv P c) :
    Outcome (UnitStep cfg) StopsWith c Prod.fst c.nextDma := by
  unfold Core.nextDma
  split
  · rename_i hfin
    refine Outcome.bind (unit_keeps cfg P) hI (retireCurrent_outcome hI hfin) fun c₁ hok hI₁ => ?_
    have hdma := retireCurrent_dma hok
    refine issueDma_outcome (c := c₁) ?_ ?_
    · rw [hdma]
      exact hfin
    · rw [hdma]
  · exact .ok rfl

theorem nextDma_busy (h : c.nextDma = .ok (c', true)) : c'.dma.finished = false := by
  unfold Core.nextDma at h
  split at h
  · cases hretire : c.retireCurrent with
    | error e =>
        rw [hretire] at h
        cases h
    | ok c₁ =>
        rw [hretire] at h
        exact issueDma_busy h
  · rename_i hfin
    cases h
    rwa [Bool.not_eq_true] at hfin

theorem dmaCycle_outcome {env : CycleEnv} (hI : CoreInv P c) :
    Outcome (UnitStep cfg) StopsWith c id (c.dmaCycle cfg env) := by
  unfold Core.dmaCycle
  refine Outcome.bind (unit_keeps cfg P) hI (ssdCycle_outcome hI) fun c₁ _ hI₁ => ?_
  refine Outcome.bind (unit_keeps cfg P) hI₁ (drainLoop_outcome _ hI₁ rfl) fun c₂ _ hI₂ => ?_
  refine Outcome.bind (unit_keeps cfg P) hI₂ (nextDma_outcome hI₂) ?_
  rintro ⟨c₃, busy⟩ hok hI₃
  cases busy with
  | false => exact .ok rfl
  | true =>
      refine Outcome.bind (unit_keeps cfg P) hI₃
        (generateMemfetch_outcome hI₃ (nextDma_busy hok)) fun c₄ _ hI₄ => ?_
      exact .single (.stats c₄ .dmaBusy)

/-! ## The issue switch -/

omit [DecidableEq τ] [DecidableEq ι] in
theorem getTagFinish_ok {d : DMA ι} {g : ℕ} {key : List ℤ} {v : ℕ} (h : d.tag g key = some v) :
    d.getTagFinish g key = .ok v := by
  unfold DMA.tag at h
  unfold DMA.getTagFinish
  cases htable : d.tagTable g with
  | none => simp [htable] at h
  | some m =>
      rw [htable] at h
      change m key = some v at h
      simp only [h]

omit [DecidableEq τ] [DecidableEq ι] in
theorem getTagFinish_error {d : DMA ι} {g : ℕ} {key : List ℤ} (h : d.tag g key = none) :
    d.getTagFinish g key = .error .endIteratorDereferenced ∨
      d.getTagFinish g key = .error .keyNotInTable := by
  unfold DMA.tag at h
  unfold DMA.getTagFinish
  cases htable : d.tagTable g with
  | none => exact .inl rfl
  | some m =>
      rw [htable] at h
      change m key = none at h
      simp only [h]
      exact .inr trivial

omit [DecidableEq τ] [DecidableEq ι] in
theorem waitForTag_ok {v : ℕ}
    (htag : c.dma.tag (c.heap.inst i).subgraphId (c.heap.inst i).tagKey = some v) :
    c.waitForTag i = .ok (c.addWaiter i) := by
  unfold Core.waitForTag DMA.registerTagWaiter
  rw [htag]
  rfl

/-- A load in front of a ready queue has one of the effects of the switch. -/
theorem issueMovin_spec (hop : (c.heap.inst i).opcode = .movin)
    (hflag : (c.heap.inst i).finished = false) :
    ∃ d f, IssueEffect i c d ∧ c.issueMovin i = .ok (d.addStats f) := by
  unfold Core.issueMovin
  cases hs : (c.heap.inst i).isSparseInst with
  | true =>
      refine ⟨_, .skipped (c.heap.inst i).opcode, .sparseLoad hop hs, ?_⟩
      have hset : ((c.registerTag i).dma.setTagSparse (c.heap.inst i).subgraphId
          (c.heap.inst i).tagKey) = .ok ((c.registerTag i).dma.storeTag (c.heap.inst i).subgraphId
            (c.heap.inst i).tagKey sparseTag) := by
        simp [DMA.setTagSparse, Core.registerTag, DMA.registerTag, DMA.storeTag]
      have hfinish : ((c.registerTag i).setTag (c.heap.inst i).subgraphId (c.heap.inst i).tagKey
          sparseTag).finishInstruction i = .ok (((c.registerTag i).setTag
            (c.heap.inst i).subgraphId (c.heap.inst i).tagKey sparseTag).finish i) :=
        finishInstruction_ok hflag
      simp only [hs, if_true]
      rw [hset]
      change ((c.registerTag i).setTag (c.heap.inst i).subgraphId (c.heap.inst i).tagKey
        sparseTag).finishInstruction i >>= _ = _
      rw [hfinish]
      rfl
  | false =>
      simp only [hs, Bool.false_eq_true, if_false]
      split
      · rename_i hknown
        rw [Bool.and_eq_true] at hknown
        obtain ⟨v, hv⟩ := Option.isSome_iff_exists.mp hknown.2
        rw [getTagFinish_ok hv]
        by_cases h0 : v = 0
        · subst h0
          refine ⟨_, .skipped (c.heap.inst i).opcode, .awaitedLoad hop hs hknown.1 hv, ?_⟩
          change c.waitForTag i >>= _ = _
          rw [waitForTag_ok hv]
          rfl
        · refine ⟨_, .skipped (c.heap.inst i).opcode, .knownLoad v hop hs hknown.1 hv h0, ?_⟩
          change (if v ≠ 0 then _ else _) = _
          rw [if_pos h0, finishInstruction_ok hflag]
          rfl
      · rename_i hknown
        refine ⟨_, id, .load hop hs fun ha => ?_, rfl⟩
        rw [ha, Bool.true_and] at hknown
        exact Option.not_isSome_iff_eq_none.mp hknown

/-- A wait in front of a ready queue has one of the effects of the switch, or its tag is
missing. -/
theorem issueBar_spec (hop : (c.heap.inst i).opcode = .bar)
    (hflag : (c.heap.inst i).finished = false) :
    (∃ d, IssueEffect i c d ∧ c.issueBar i = .ok d) ∨
      c.dma.tag (c.heap.inst i).subgraphId (c.heap.inst i).tagKey = none ∧
        (c.issueBar i = .error .endIteratorDereferenced ∨
          c.issueBar i = .error .keyNotInTable) := by
  unfold Core.issueBar
  cases hv : c.dma.tag (c.heap.inst i).subgraphId (c.heap.inst i).tagKey with
  | none =>
      refine .inr ⟨rfl, ?_⟩
      dsimp only
      rcases getTagFinish_error hv with h | h
      · rw [h]
        exact .inl rfl
      · rw [h]
        exact .inr rfl
  | some v =>
      refine .inl ?_
      dsimp only
      rw [getTagFinish_ok hv]
      by_cases hsparse : v = sparseTag
      · subst hsparse
        refine ⟨_, .barSparse hop hv, ?_⟩
        have hfinish : ({ c with heap := Core.skipMatmuls c.heap (c.heap.inst i).childInst } :
            Core τ ι).finishInstruction i = .ok (({ c with
              heap := Core.skipMatmuls c.heap (c.heap.inst i).childInst } : Core τ ι).finish i) := by
          refine finishInstruction_ok ?_
          exact ((SameData.skipMatmuls c.heap _).finished i).trans hflag
        exact hfinish
      · by_cases h0 : v = 0
        · subst h0
          refine ⟨_, .barWait hop hv, ?_⟩
          exact waitForTag_ok hv
        · refine ⟨_, .barReady v hop hv h0 hsparse, ?_⟩
          have hfinish : (c.setTag (c.heap.inst i).subgraphId (c.heap.inst i).tagKey
              ((v + 1) % 2 ^ 32)).finishInstruction i = .ok ((c.setTag (c.heap.inst i).subgraphId
                (c.heap.inst i).tagKey ((v + 1) % 2 ^ 32)).finish i) := finishInstruction_ok hflag
          change (if v = sparseTag then _ else if v ≠ 0 then _ else _) = _
          rw [if_neg hsparse, if_pos h0, markTagUsed_ok hv h0]
          exact hfinish

omit [DecidableEq τ] [DecidableEq ι] in
theorem getComputePipeline_spec (cfg : CoreConfig) (c : Core τ ι) (computeType : ℕ) :
    (∃ p n, c.getComputePipeline cfg computeType = .ok (p, { c with systolicArrayRr := n })) ∨
      c.getComputePipeline cfg computeType = .error .undefinedComputeType := by
  unfold Core.getComputePipeline
  split
  · exact .inl ⟨.vu, c.systolicArrayRr, rfl⟩
  · split
    · split
      · exact .inr rfl
      · exact .inl ⟨_, _, rfl⟩
    · exact .inr rfl

/-- A compute instruction in front of a ready queue enters a pipeline, or takes no cycle and is
finished at once. -/
theorem issueComp_spec (cfg : CoreConfig) (hop : (c.heap.inst i).opcode = .comp) :
    (∃ n f, ∃ d : Core τ ι, IssueEffect i { c with systolicArrayRr := n } d ∧
      c.issueComp cfg t i = .ok (d.addStats f, true)) ∨
    (∃ n p f, ∃ d : Core τ ι, d = ({ c with systolicArrayRr := n } : Core τ ι).setTimes p i ∧
      IssueEffect i { c with systolicArrayRr := n } (d.finish i) ∧
      c.issueComp cfg t i = .ok (((d.finish i).addStats f).pop t, false)) ∨
    c.issueComp cfg t i = .error .undefinedComputeType := by
  unfold Core.issueComp
  rcases getComputePipeline_spec cfg c (c.heap.inst i).computeType with ⟨p, n, h⟩ | h
  · rw [h]
    have hcycle : ((({ c with systolicArrayRr := n } : Core τ ι).setTimes p i).heap.inst
        i).computeCycle = (c.heap.inst i).computeCycle := by
      simp [Core.setTimes]
    by_cases h0 : (c.heap.inst i).computeCycle = 0
    · refine .inr (.inl ⟨n, p, .skipped (((({ c with systolicArrayRr := n } : Core τ ι).setTimes p
        i).finish i).heap.inst i).opcode, _, rfl, .compZero p hop h0, ?_⟩)
      change (if _ then _ else _) = _
      rw [if_pos (hcycle.trans h0)]
      rfl
    · refine .inl ⟨n, if (((({ c with systolicArrayRr := n } : Core τ ι).setTimes p
        i).pushPipeline p i).heap.inst i).computeType ≠ 0 then .gemm else id, _,
        .comp p hop h0, ?_⟩
      change (if _ then _ else _) = _
      rw [if_neg (by rw [hcycle]; exact h0)]
      split
      · rfl
      · rfl
  · rw [h]
    exact .inr (.inr rfl)

/-! ## The ready queues -/

theorem pop_finish (hq : (c.heap.tile t).readyQueue ≠ [])
    (hnodup : (c.heap.inst i).childInst.Nodup) (hself : i ∉ (c.heap.inst i).childInst) :
    (c.finish i).pop t = (c.pop t).finish i := by
  have hheap : (c.heap.finish i).popReady t = (c.heap.popReady t).finish i :=
    CoreHeap.popReady_finish hnodup hself hq
  change { c.finish i with heap := (c.heap.finish i).popReady t } = _
  rw [hheap]
  rfl

theorem skipMatmuls_popReady (l : List ι) (h : CoreHeap τ ι) (t : τ) :
    (Core.skipMatmuls h l).popReady t = Core.skipMatmuls (h.popReady t) l := by
  induction l generalizing h with
  | nil => rfl
  | cons j l ih =>
      unfold Core.skipMatmuls at ih ⊢
      rw [List.foldl_cons, List.foldl_cons, ih]
      by_cases hj : (h.inst j).opcode = .comp ∧ (h.inst j).computeType = MATMUL
      · have hj' : ((h.popReady t).inst j).opcode = .comp ∧
            ((h.popReady t).inst j).computeType = MATMUL := hj
        rw [if_pos hj, if_pos hj']
        rfl
      · have hj' : ¬ (((h.popReady t).inst j).opcode = .comp ∧
            ((h.popReady t).inst j).computeType = MATMUL) := hj
        rw [if_neg hj, if_neg hj']

/-- The instruction may leave the ready queue before or after its effect. -/
theorem IssueEffect.pop (h : IssueEffect i c c') (hq : (c.heap.tile t).readyQueue ≠ [])
    (hnodup : (c.heap.inst i).childInst.Nodup) (hself : i ∉ (c.heap.inst i).childInst) :
    IssueEffect i (c.pop t) (c'.pop t) := by
  cases h with
  | sparseLoad hop hs =>
      rw [pop_finish (c := (c.registerTag i).setTag _ _ _) hq hnodup hself]
      exact .sparseLoad (c := c.pop t) hop hs
  | knownLoad v hop hs ha htag hv =>
      rw [pop_finish hq hnodup hself]
      exact .knownLoad (c := c.pop t) v hop hs ha htag hv
  | awaitedLoad hop hs ha htag => exact .awaitedLoad (c := c.pop t) hop hs ha htag
  | load hop hs hnew => exact .load (c := c.pop t) hop hs hnew
  | store hop => exact .store (c := c.pop t) hop
  | comp p hop hcycle =>
      have heffect := IssueEffect.comp (c := c.pop t) p hop hcycle
      cases p <;> exact heffect
  | compZero p hop hcycle =>
      have hinst : (c.setTimes p i).heap.inst i = { c.heap.inst i with
          finishCycle := ((c.setTimes p i).heap.inst i).finishCycle
          bubbleCycle := ((c.setTimes p i).heap.inst i).bubbleCycle } := by
        simp [Core.setTimes]
      rw [pop_finish (c := c.setTimes p i) hq (by rw [hinst]; exact hnodup)
        (by rw [hinst]; exact hself)]
      have heffect := IssueEffect.compZero (c := c.pop t) p hop hcycle
      cases p <;> exact heffect
  | barSparse hop htag =>
      have hchild : ((Core.skipMatmuls c.heap (c.heap.inst i).childInst).inst i).childInst =
          (c.heap.inst i).childInst :=
        congrArg InstKind.childInst ((SameData.skipMatmuls c.heap _).kind i)
      have htile := (CoreHeap.skipMatmuls_spec (c.heap.inst i).childInst c.heap).1
      rw [pop_finish (c := { c with heap := Core.skipMatmuls c.heap (c.heap.inst i).childInst })
        (by rw [htile]; exact hq) (by rw [hchild]; exact hnodup) (by rw [hchild]; exact hself)]
      have heffect := IssueEffect.barSparse (c := c.pop t) hop htag
      have hpop : ({ c with heap := Core.skipMatmuls c.heap (c.heap.inst i).childInst } :
          Core τ ι).pop t = { c.pop t with
            heap := Core.skipMatmuls (c.pop t).heap ((c.pop t).heap.inst i).childInst } := by
        unfold Core.pop
        rw [skipMatmuls_popReady]
        rfl
      rw [hpop]
      exact heffect
  | barReady v hop htag hv hs =>
      rw [pop_finish (c := c.setTag _ _ _) hq hnodup hself]
      exact .barReady (c := c.pop t) v hop htag hv hs
  | barWait hop htag => exact .barWait (c := c.pop t) hop htag

/-- A step inside a cycle. -/
def CycleStep (cfg : CoreConfig) (c c' : Core τ ι) : Prop := UnitStep cfg c c' ∨ IssueStep c c'

theorem cycle_keeps (cfg : CoreConfig) (P : TileProgram τ ι) :
    ∀ c c', CoreInv P c → CycleStep cfg c c' → CoreInv P c' := by
  rintro c c' hI (h | h)
  · exact h.inv hI
  · exact h.inv hI

/-- Issuing an instruction is a step, whatever counter it raises. -/
theorem issue_steps {d : Core τ ι} {n : ℕ} {f : CoreStats → CoreStats} (hI : CoreInv P c)
    (ht : t ∈ c.tiles) (hq : (c.heap.tile t).readyQueue.head? = some i)
    (h : IssueEffect i ({ c with systolicArrayRr := n }.log (.instIssued i)) d) :
    Relation.ReflTransGen (CycleStep cfg) c ((d.addStats f).pop t) := by
  obtain ⟨rest, hrest⟩ := List.head?_eq_some_iff.mp hq
  have hne : (c.heap.tile t).readyQueue ≠ [] := by
    rw [hrest]
    exact List.cons_ne_nil i rest
  obtain ⟨hplace, hhand⟩ := hI.placement.takeReady hrest
  have hfinish := hplace.finishable hhand
  have hpop := h.pop (t := t) hne hfinish.nodup hfinish.not_self
  refine .head (b := { c with systolicArrayRr := n }) (.inl (.arrayTurn c n)) ?_
  refine .head (b := d.pop t) (.inr ⟨t, i, ht, hq, hpop⟩) ?_
  exact .single (.inl (.stats (d.pop t) f))

/-- The first instruction of a ready queue is issued by steps; what `issueInst` leaves to its
caller is the removal from the queue. -/
theorem issueInst_outcome (hI : CoreInv P c) (ht : t ∈ c.tiles)
    (hq : (c.heap.tile t).readyQueue.head? = some i) :
    Outcome (CycleStep cfg) IssueStops c (fun r => if r.2 then r.1.pop t else r.1)
      (Core.issueInst cfg c t i) := by
  have hflag : (c.heap.inst i).finished = false := by
    obtain ⟨rest, hrest⟩ := List.head?_eq_some_iff.mp hq
    refine hI.placement.flag (.ready t) i ?_
    change i ∈ (c.heap.tile t).readyQueue
    rw [hrest]
    exact List.mem_cons_self
  unfold Core.issueInst
  dsimp only
  split
  · rename_i hop
    obtain ⟨d, f, heffect, hok⟩ := issueMovin_spec (c := c.log (.instIssued i)) hop hflag
    rw [hok]
    exact issue_steps (n := c.systolicArrayRr) hI ht hq heffect
  · rename_i hop
    exact issue_steps (n := c.systolicArrayRr) (f := id) hI ht hq
      (.store (c := c.log (.instIssued i)) hop)
  · rename_i hop
    rcases issueComp_spec (t := t) (c := c.log (.instIssued i)) cfg hop with
      ⟨n, f, d, heffect, hok⟩ | ⟨n, p, f, d, -, heffect, hok⟩ | hfault
    · rw [hok]
      exact issue_steps hI ht hq heffect
    · rw [hok]
      exact issue_steps hI ht hq heffect
    · rw [hfault]
      exact .fault ⟨nofun, trivial⟩
  · rename_i hop
    rcases issueBar_spec (c := c.log (.instIssued i)) hop hflag with
      ⟨d, heffect, hok⟩ | ⟨htag, hfault | hfault⟩
    · rw [hok]
      exact issue_steps (n := c.systolicArrayRr) (f := id) hI ht hq heffect
    · rw [hfault]
      exact .fault ⟨nofun, t, ht, i, hq, hop, htag⟩
    · rw [hfault]
      exact .fault ⟨nofun, t, ht, i, hq, hop, htag⟩

/-- An instruction that takes no cycle is finished in its tile. -/
theorem issueInst_skip (hI : CoreInv P c) (hq : (c.heap.tile t).readyQueue.head? = some i)
    (h : Core.issueInst cfg c t i = .ok (c', false)) :
    c'.tiles = c.tiles ∧
      (c'.heap.tile t).nrFinishedInsts = (c.heap.tile t).nrFinishedInsts + 1 := by
  obtain ⟨rest, hrest⟩ := List.head?_eq_some_iff.mp hq
  have hmem : i ∈ (c.heap.tile t).readyQueue := by
    rw [hrest]
    exact List.mem_cons_self
  have hflag : (c.heap.inst i).finished = false := hI.placement.flag (.ready t) i hmem
  have howner : (c.heap.inst i).owner = t :=
    (congrArg InstKind.owner (hI.placement.kind i)).trans (hI.placement.home t i hmem)
  obtain ⟨hplace, hhand⟩ := hI.placement.takeReady hrest
  have hfinish := hplace.finishable hhand
  unfold Core.issueInst at h
  dsimp only at h
  split at h
  · rename_i hop
    obtain ⟨d, f, -, hok⟩ := issueMovin_spec (c := c.log (.instIssued i)) hop hflag
    rw [hok] at h
    cases h
  · cases h
  · rename_i hop
    rcases issueComp_spec (t := t) (c := c.log (.instIssued i)) cfg hop with
      ⟨n, f, d, -, hok⟩ | ⟨n, p, f, d, hd, -, hok⟩ | hfault
    · rw [hok] at h
      cases h
    · rw [hok] at h
      cases h
      have hinst : d.heap.inst i = { c.heap.inst i with
          finishCycle := (d.heap.inst i).finishCycle
          bubbleCycle := (d.heap.inst i).bubbleCycle } := by
        rw [hd]
        simp [Core.setTimes, Core.log]
      have htile : d.heap.tile t = c.heap.tile t := by
        rw [hd]
        rfl
      have htiles : d.tiles = c.tiles := by
        rw [hd]
        rfl
      refine ⟨htiles, ?_⟩
      change (((d.heap.finish i).popReady t).tile t).nrFinishedInsts = _
      rw [CoreHeap.popReady_tile]
      change ((d.heap.finish i).tile t).nrFinishedInsts = _
      have hnodup : (d.heap.inst i).childInst.Nodup := by
        rw [hinst]
        exact hfinish.nodup
      have hself : i ∉ (d.heap.inst i).childInst := by
        rw [hinst]
        exact hfinish.not_self
      rw [CoreHeap.finish_tile hnodup hself, htile, hinst]
      simp [howner]
    · rw [hfault] at h
      cases h
  · rename_i hop
    rcases issueBar_spec (c := c.log (.instIssued i)) hop hflag with
      ⟨d, -, hok⟩ | ⟨-, hfault | hfault⟩
    · rw [hok] at h
      cases h
    · rw [hfault] at h
      cases h
    · rw [hfault] at h
      cases h

omit [DecidableEq τ] in
/-- A tile does not finish more instructions than it has. -/
theorem CoreInv.nrFinished_le (hI : CoreInv P c) (t : τ) :
    (c.heap.tile t).nrFinishedInsts ≤ (c.heap.tile t).nrInsts := by
  rw [hI.placement.nrFinished, hI.placement.nrInsts]
  exact List.countP_le_length

/-! ## A cycle -/

/-- The walk over a ready queue does not run out of fuel: an instruction without a cycle is
finished, and a tile has no more instructions than the fuel. -/
theorem scanReady_outcome {env : CycleEnv} (fuel : ℕ) (hI : CoreInv P c) (ht : t ∈ c.tiles)
    (hfuel : (c.heap.tile t).nrInsts < (c.heap.tile t).nrFinishedInsts + fuel) :
    Outcome (CycleStep cfg) IssueStops c Prod.fst (Core.scanReady cfg env t fuel c) := by
  induction fuel generalizing c with
  | zero =>
      have hle := hI.nrFinished_le t
      omega
  | succ fuel ih =>
      unfold Core.scanReady
      split
      · exact .ok rfl
      · rename_i i rest hrest
        have hq : (c.heap.tile t).readyQueue.head? = some i := by rw [hrest]; rfl
        refine Outcome.bind (cycle_keeps cfg P) hI (issueInst_outcome hI ht hq) ?_
        rintro ⟨c₁, issued⟩ hok hI₁
        cases issued with
        | true => exact .single (.inl (.stats (c₁.pop t) (.issued (c₁.heap.inst i).opcode)))
        | false =>
            obtain ⟨htiles, hcount⟩ := issueInst_skip hI hq hok
            have hI₁ : CoreInv P c₁ := hI₁
            dsimp only
            split
            · rename_i hissued
              cases hissued
            · split
              · refine ih hI₁ ?_ ?_
                · rw [htiles]
                  exact ht
                · have hnr := hI.placement.nrInsts t
                  have hnr₁ := hI₁.placement.nrInsts t
                  omega
              · exact .fault ⟨nofun, trivial⟩

/-- A walk that issues nothing keeps the tiles of the core. -/
theorem scanReady_tiles {env : CycleEnv} (fuel : ℕ) (hI : CoreInv P c) (ht : t ∈ c.tiles)
    (h : Core.scanReady cfg env t fuel c = .ok (c', false)) : c'.tiles = c.tiles := by
  induction fuel generalizing c with
  | zero => cases h
  | succ fuel ih =>
      unfold Core.scanReady at h
      split at h
      · cases h
        rfl
      · rename_i i rest hrest
        have hq : (c.heap.tile t).readyQueue.head? = some i := by rw [hrest]; rfl
        have hout : Outcome (CycleStep cfg) IssueStops c (fun r => if r.2 then r.1.pop t else r.1)
            (Core.issueInst cfg c t i) := issueInst_outcome hI ht hq
        cases hok : Core.issueInst cfg c t i with
        | error e =>
            rw [hok] at h
            cases h
        | ok r =>
            obtain ⟨c₁, issued⟩ := r
            rw [hok] at h hout
            cases issued with
            | true => cases h
            | false =>
                have hI₁ : CoreInv P c₁ := Outcome.invariant (cycle_keeps cfg P) hout hI
                obtain ⟨htiles, -⟩ := issueInst_skip hI hq hok
                change (if env.staleNext = true then Core.scanReady cfg env t fuel c₁
                  else .error .erasedIterator) = _ at h
                split at h
                · rw [ih hI₁ (by rw [htiles]; exact ht) h, htiles]
                · cases h

theorem issueLoop_outcome {env : CycleEnv} (ts : List τ) (hI : CoreInv P c)
    (hts : ∀ t ∈ ts, t ∈ c.tiles) :
    Outcome (CycleStep cfg) IssueStops c Prod.fst (Core.issueLoop cfg env ts c) := by
  induction ts generalizing c with
  | nil => exact .ok rfl
  | cons t ts ih =>
      have ht := hts t List.mem_cons_self
      unfold Core.issueLoop
      refine Outcome.bind (cycle_keeps cfg P) hI (scanReady_outcome _ hI ht (by omega)) ?_
      rintro ⟨c₁, issued⟩ hok hI₁
      cases issued with
      | true => exact .ok rfl
      | false =>
          refine ih hI₁ fun u hu => ?_
          change u ∈ c₁.tiles
          rw [scanReady_tiles _ hI ht hok]
          exact hts u (List.mem_cons_of_mem t hu)

theorem removeFinishedTile_steps (cfg : CoreConfig) (c : Core τ ι) :
    Relation.ReflTransGen (CycleStep cfg) c c.removeFinishedTile := by
  unfold Core.removeFinishedTile
  split
  · exact .refl
  · rename_i t hfind
    have hdone : (c.heap.tile t).allInstsFinished = true :=
      List.find?_some (p := fun t => (c.heap.tile t).allInstsFinished) hfind
    exact .single (.inl (.report c t (List.mem_of_find?_eq_some hfind) hdone))

section Cycle

variable {env : CycleEnv}

theorem unitCycle_outcome (hI : CoreInv P c) :
    Outcome (UnitStep cfg) StopsWith c id (c.unitCycle cfg env) := by
  unfold Core.unitCycle
  exact Outcome.bind (unit_keeps cfg P) hI (computeCycle_outcome hI)
    fun c₁ _ hI₁ => dmaCycle_outcome hI₁

theorem issueCycle_outcome (hI : CoreInv P c) :
    Outcome (CycleStep cfg) IssueStops c id (c.issueCycle cfg env) := by
  have hclock : UnitStep cfg c { c with coreCycle := c.coreCycle + 1 } := .clock c _
  have hI₁ : CoreInv P { c with coreCycle := c.coreCycle + 1 } := hclock.inv hI
  unfold Core.issueCycle
  refine .step (.inl hclock) ?_
  refine Outcome.bind (cycle_keeps cfg P) hI₁ (issueLoop_outcome _ hI₁ fun _ ht => ht) ?_
  rintro ⟨c₂, issued⟩ - -
  have hprint : ∀ c₃ : Core τ ι, Outcome (CycleStep cfg) IssueStops c₃ id
      (if cfg.corePrintInterval ≠ 0 ∧ c₃.coreCycle % cfg.corePrintInterval = 0 then
        .ok (c₃.addStats (Core.updateStats cfg)) else .ok c₃) := by
    intro c₃
    split
    · exact .single (Or.inl (UnitStep.stats c₃ (Core.updateStats cfg)))
    · exact .ok rfl
  cases issued with
  | true => exact hprint c₂
  | false => exact .steps (removeFinishedTile_steps cfg c₂) (hprint c₂.removeFinishedTile)

/-- **A cycle is a row of steps**, and the faults it may stop with are those of `StopsWith`. -/
theorem cycle_outcome (hI : CoreInv P c) :
    Outcome (CycleStep cfg) StopsWith c id (c.cycle cfg env) := by
  have hunit : Outcome (CycleStep cfg) StopsWith c id (c.unitCycle cfg env) :=
    (unitCycle_outcome hI).mono (fun _ _ => .inl) fun _ _ => id
  rw [Core.cycle_eq]
  refine Outcome.bind (cycle_keeps cfg P) hI hunit fun c₁ _ hI₁ => ?_
  exact (issueCycle_outcome hI₁).mono (fun _ _ => id) fun _ _ h => h.2

/-- Marking a tag used throws in the DMA engine only, before anything is issued. -/
theorem cycle_tagNotReady (hI : CoreInv P c) (h : c.cycle cfg env = .error .tagNotReady) :
    ∃ d, Relation.ReflTransGen (UnitStep cfg) c d ∧
      ∃ g key, 2 ^ 32 ≤ (d.dma.waiters g key).length := by
  have hunit : Outcome (UnitStep cfg) StopsWith c id (c.unitCycle cfg env) := unitCycle_outcome hI
  rw [Core.cycle_eq] at h
  cases hc : c.unitCycle cfg env with
  | error e =>
      rw [hc] at h hunit
      cases h
      exact hunit
  | ok c₁ =>
      rw [hc] at h hunit
      have hI₁ : CoreInv P c₁ := Outcome.invariant (unit_keeps cfg P) hunit hI
      have hissue : Outcome (CycleStep cfg) IssueStops c₁ id (c₁.issueCycle cfg env) :=
        issueCycle_outcome hI₁
      change c₁.issueCycle cfg env = .error .tagNotReady at h
      rw [h] at hissue
      obtain ⟨d, -, hne, -⟩ := hissue
      exact absurd rfl hne

end Cycle

end PyTorchSim.Analysis
