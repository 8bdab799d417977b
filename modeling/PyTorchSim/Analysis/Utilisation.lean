import PyTorchSim.Analysis.UnitFrames

/-!
# The utilisation of the compute units

A core counts, for each systolic array and for the vector unit, the cycles in which it was active
and those in which it was idle.  An instruction that leaves a pipeline moves its bubble from the
active cycles to the idle ones.  Where the counter of the active cycles was reset in between, it
may be less than the bubble, and then the two counters together get ahead of the clock.  The loop
of the vector unit counts one active cycle more for each instruction that leaves it, and the idle
cycles of the vector unit do not enter its total.
-/

set_option autoImplicit false

namespace PyTorchSim.Model.Core

variable {τ ι : Type} [DecidableEq τ] [DecidableEq ι]

/-- A cycle up to the report of the interval. -/
def workCycle (cfg : CoreConfig) (env : CycleEnv) (c : Core τ ι) : Except CoreFault (Core τ ι) := do
  let c ← c.computeCycle cfg
  let c ← c.dmaCycle cfg env
  let c := { c with coreCycle := c.coreCycle + 1 }
  let (c, issued) ← issueLoop cfg env c.tiles c
  return if issued then c else c.removeFinishedTile

/-- The report of an interval prints the counters and resets them. -/
def report (cfg : CoreConfig) (c : Core τ ι) : Core τ ι :=
  if cfg.corePrintInterval ≠ 0 ∧ c.coreCycle % cfg.corePrintInterval = 0 then
    c.addStats (updateStats cfg)
  else c

theorem cycle_eq_ok {cfg : CoreConfig} {env : CycleEnv} {c c' : Core τ ι} :
    c.cycle cfg env = .ok c' ↔ ∃ d, c.workCycle cfg env = .ok d ∧ d.report cfg = c' := by
  have hreport (d : Core τ ι) : (if cfg.corePrintInterval ≠ 0 ∧
      d.coreCycle % cfg.corePrintInterval = 0 then pure (d.addStats (updateStats cfg))
      else pure d : Except CoreFault (Core τ ι)) = .ok (d.report cfg) := by
    unfold report
    split <;> rfl
  have hcycle : c.cycle cfg env = (c.workCycle cfg env).map (report cfg) := by
    unfold cycle workCycle
    cases c.computeCycle cfg with
    | error e => rfl
    | ok d =>
      change (d.dmaCycle cfg env >>= _) = Except.map _ (d.dmaCycle cfg env >>= _)
      cases d.dmaCycle cfg env with
      | error e => rfl
      | ok e =>
        change (issueLoop cfg env _ { e with coreCycle := e.coreCycle + 1 } >>= _) =
          Except.map _ (issueLoop cfg env _ { e with coreCycle := e.coreCycle + 1 } >>= _)
        cases issueLoop cfg env e.tiles { e with coreCycle := e.coreCycle + 1 } with
        | error e => rfl
        | ok r => exact hreport _
  rw [hcycle]
  cases c.workCycle cfg env with
  | error e => exact ⟨nofun, fun ⟨_, h, _⟩ => nomatch h⟩
  | ok d => exact ⟨fun h => ⟨d, rfl, Except.ok.inj h⟩, fun ⟨_, h, hd⟩ => by cases h; rw [← hd]; rfl⟩

end PyTorchSim.Model.Core

namespace PyTorchSim.Analysis

open PyTorchSim.Model PyTorchSim.Library

variable {τ ι : Type}

/-! ## What the counters are ahead of the clock -/

/-- The active cycles that a unit counts for an instruction that leaves it. -/
def completionCycles : Core.Pipeline → ℕ
  | .vu => 1
  | .sa _ => 0

/-- What the instructions that leave a pipeline add to its counters: the cycle of each completion,
and the part of a bubble that is more than the active cycles. -/
def pipelineExcess (h : CoreHeap τ ι) (now step : ℕ) : List ι → ℕ → ℕ
  | [], _ => 0
  | i :: rest, active =>
    if (h.inst i).finishCycle ≤ now then
      step + ((h.inst i).bubbleCycle - (active + step)) +
        pipelineExcess h now step rest (active + step - (h.inst i).bubbleCycle)
    else 0

/-- The cycles that the counters of a unit will be ahead of the clock in the next cycle. -/
def excess (c : Core τ ι) (p : Core.Pipeline) : ℕ :=
  pipelineExcess c.heap c.coreCycle (completionCycles p) (c.pipeline p) ((usage c.stats).active p)

theorem pipelineExcess_congr {h h' : CoreHeap τ ι} (now step : ℕ) (l : List ι) (active : ℕ)
    (htimes : ∀ i, SameTimes (h.inst i) (h'.inst i)) :
    pipelineExcess h' now step l active = pipelineExcess h now step l active := by
  induction l generalizing active with
  | nil => rfl
  | cons i rest ih =>
    rw [pipelineExcess, pipelineExcess, (htimes i).finishCycle, (htimes i).bubbleCycle, ih]

/-- Some units count cycles, and nothing else changes besides the instructions that leave their
pipelines. -/
structure Counts (S : List Core.Pipeline) (k : Core.Pipeline → ℕ) (c c' : Core τ ι) : Prop where
  clock : c'.coreCycle = c.coreCycle
  times : ∀ i, SameTimes (c.heap.inst i) (c'.heap.inst i)
  others : ∀ p ∉ S, c'.pipeline p = c.pipeline p ∧
    (usage c'.stats).active p = (usage c.stats).active p ∧
    (usage c'.stats).idle p = (usage c.stats).idle p
  counted : ∀ p ∈ S, (usage c'.stats).active p + (usage c'.stats).idle p =
    (usage c.stats).active p + (usage c.stats).idle p + k p
  totalActive : (usage c'.stats).totalActive = (usage c.stats).totalActive
  totalIdle : (usage c'.stats).totalIdle = (usage c.stats).totalIdle

variable {c c' d : Core τ ι} {S S' : List Core.Pipeline} {k k' : Core.Pipeline → ℕ}
  {p : Core.Pipeline}

theorem Counts.of_sameUnits (h : SameUnits c c') : Counts [] k c c' where
  clock := h.clock
  times := h.times
  others p _ := ⟨h.pipeline p, by rw [h.usage], by rw [h.usage]⟩
  counted p hp := absurd hp List.not_mem_nil
  totalActive := by rw [h.usage]
  totalIdle := by rw [h.usage]

/-- The same units count again. -/
theorem Counts.trans (h : Counts S k c d) (h' : Counts S k' d c') :
    Counts S (fun p => k p + k' p) c c' where
  clock := h'.clock.trans h.clock
  times i := (h.times i).trans (h'.times i)
  others p hp := by
    obtain ⟨hpipe, hactive, hidle⟩ := h.others p hp
    obtain ⟨hpipe', hactive', hidle'⟩ := h'.others p hp
    exact ⟨hpipe'.trans hpipe, hactive'.trans hactive, hidle'.trans hidle⟩
  counted p hp := by
    have hfirst := h.counted p hp
    have hsecond := h'.counted p hp
    omega
  totalActive := h'.totalActive.trans h.totalActive
  totalIdle := h'.totalIdle.trans h.totalIdle

/-- Other units count as well. -/
theorem Counts.append (h : Counts S k c d) (h' : Counts S' k d c') (hdisjoint : S.Disjoint S') :
    Counts (S ++ S') k c c' where
  clock := h'.clock.trans h.clock
  times i := (h.times i).trans (h'.times i)
  others p hp := by
    rw [List.mem_append, not_or] at hp
    obtain ⟨hpipe, hactive, hidle⟩ := h.others p hp.1
    obtain ⟨hpipe', hactive', hidle'⟩ := h'.others p hp.2
    exact ⟨hpipe'.trans hpipe, hactive'.trans hactive, hidle'.trans hidle⟩
  counted p hp := by
    rcases List.mem_append.mp hp with hp | hp
    · obtain ⟨-, hactive, hidle⟩ := h'.others p fun hp' => hdisjoint hp hp'
      rw [hactive, hidle]
      exact h.counted p hp
    · obtain ⟨-, hactive, hidle⟩ := h.others p fun hp' => hdisjoint hp' hp
      rw [← hactive, ← hidle]
      exact h'.counted p hp
  totalActive := h'.totalActive.trans h.totalActive
  totalIdle := h'.totalIdle.trans h.totalIdle

theorem Counts.congr (h : Counts S k c c') (hk : ∀ p ∈ S, k p = k' p) : Counts S k' c c' :=
  { h with counted := fun p hp => by rw [← hk p hp]; exact h.counted p hp }

/-- What a unit will be ahead of the clock is not changed by other units. -/
theorem Counts.excess_eq (h : Counts S k c c') (hp : p ∉ S) : excess c' p = excess c p := by
  obtain ⟨hpipe, hactive, -⟩ := h.others p hp
  unfold excess
  rw [hpipe, hactive, h.clock]
  exact pipelineExcess_congr _ _ _ _ h.times

/-- A change of the counters of one unit. -/
theorem counts_addStats (c : Core τ ι) (p : Core.Pipeline) (f : CoreStats → CoreStats) (n : ℕ)
    (hothers : ∀ q ≠ p, (usage (f c.stats)).active q = (usage c.stats).active q ∧
      (usage (f c.stats)).idle q = (usage c.stats).idle q)
    (hcounted : (usage (f c.stats)).active p + (usage (f c.stats)).idle p =
      (usage c.stats).active p + (usage c.stats).idle p + n)
    (htotalActive : (usage (f c.stats)).totalActive = (usage c.stats).totalActive)
    (htotalIdle : (usage (f c.stats)).totalIdle = (usage c.stats).totalIdle) :
    Counts [p] (fun _ => n) c (c.addStats f) where
  clock := rfl
  times _ := .refl _
  others q hq := ⟨by cases q <;> rfl, hothers q (by simpa using hq)⟩
  counted q hq := by
    rw [List.mem_singleton.mp hq]
    exact hcounted
  totalActive := htotalActive
  totalIdle := htotalIdle

variable [DecidableEq τ] [DecidableEq ι] {cfg : CoreConfig} {env : CycleEnv}

/-! ## The loops over the pipelines -/

/-- An instruction leaves the pipeline of a unit that has counted. -/
theorem Counts.complete {i : ι} {e : Core τ ι} (h : Counts [p] k c d)
    (hfinish : d.finishInstruction i = .ok e) : Counts [p] k c (e.popPipeline p) := by
  have hunits := finishInstruction_units hfinish
  have hstats : usage (e.popPipeline p).stats = usage d.stats := by
    rw [← hunits.usage]
    cases p <;> rfl
  have hheap : (e.popPipeline p).heap = e.heap := by cases p <;> rfl
  have hclock : (e.popPipeline p).coreCycle = e.coreCycle := by cases p <;> rfl
  constructor
  · rw [hclock, hunits.clock]
    exact h.clock
  · intro j
    rw [hheap]
    exact (h.times j).trans (hunits.times j)
  · intro q hq
    obtain ⟨hpipe, hactive, hidle⟩ := h.others q hq
    rw [hstats]
    refine ⟨?_, hactive, hidle⟩
    unfold Core.popPipeline
    rw [Core.pipeline_setPipeline, if_neg (by simpa using hq), hunits.pipeline]
    exact hpipe
  · intro q hq
    rw [hstats]
    exact h.counted q hq
  · rw [hstats]
    exact h.totalActive
  · rw [hstats]
    exact h.totalIdle

/-- After a completion the loop goes on with what the unit has counted so far. -/
theorem Counts.andThen {i : ι} {e : Core τ ι} {rest : List ι} {active step n : ℕ}
    (h : Counts [p] (fun _ => n) c d) (hfinish : d.finishInstruction i = .ok e)
    (hactive : (usage d.stats).active p = active)
    (hrest : Counts [p] (fun _ => 1 + pipelineExcess (e.popPipeline p).heap
      (e.popPipeline p).coreCycle step rest ((usage (e.popPipeline p).stats).active p))
      (e.popPipeline p) c') :
    Counts [p] (fun _ => 1 + (n + pipelineExcess c.heap c.coreCycle step rest active)) c c' := by
  have hcomplete := h.complete hfinish
  have hactive' : (usage (e.popPipeline p).stats).active p = active := by
    rw [← hactive, ← (finishInstruction_units hfinish).usage]
    cases p <;> rfl
  rw [hactive', hcomplete.clock, pipelineExcess_congr _ _ _ _ hcomplete.times] at hrest
  refine (hcomplete.trans hrest).congr fun _ _ => ?_
  omega

theorem vuLoop_counts (l : List ι) (h : Core.vuLoop l c = .ok c') :
    Counts [.vu] (fun _ => 1 + pipelineExcess c.heap c.coreCycle 1 l
      ((usage c.stats).active .vu)) c c' := by
  induction l generalizing c with
  | nil =>
      cases h
      refine counts_addStats c .vu .vuIdle 1 (fun q hq => ?_) rfl rfl rfl
      cases q with
      | vu => exact absurd rfl hq
      | sa m => exact ⟨rfl, rfl⟩
  | cons i rest ih =>
      unfold Core.vuLoop at h
      dsimp only at h
      split at h
      · next hfinish =>
        have hfinish : (c.heap.inst i).finishCycle ≤ c.coreCycle := hfinish
        obtain ⟨e, he, h⟩ := bind_eq_ok.mp h
        have hcount := counts_addStats c .vu
          (fun s => (s.vuBusy).vuBubble (c.heap.inst i).bubbleCycle)
          (1 + ((c.heap.inst i).bubbleCycle - ((usage c.stats).active .vu + 1)))
          (fun q hq => by
            cases q with
            | vu => exact absurd rfl hq
            | sa m => exact ⟨rfl, rfl⟩)
          (by
            change c.stats.vuComputeCycle + 1 - _ + (c.stats.vuComputeIdleCycle + _) =
              c.stats.vuComputeCycle + c.stats.vuComputeIdleCycle +
                (1 + (_ - (c.stats.vuComputeCycle + 1)))
            omega) rfl rfl
        rw [pipelineExcess, if_pos hfinish]
        exact hcount.andThen he rfl (ih h)
      · next hfinish =>
        have hfinish : ¬(c.heap.inst i).finishCycle ≤ c.coreCycle := hfinish
        cases h
        rw [pipelineExcess, if_neg hfinish]
        refine counts_addStats c .vu .vuBusy 1 (fun q hq => ?_) ?_ rfl rfl
        · cases q with
          | vu => exact absurd rfl hq
          | sa m => exact ⟨rfl, rfl⟩
        · exact Nat.add_right_comm _ _ _

/-- The counters of one systolic array are apart from those of the others. -/
theorem addAt_of_ne {m n : ℕ} (f : ℕ → ℕ) (k : ℕ) (h : m ≠ n) : addAt f n k m = f m :=
  Function.update_of_ne h _ _

theorem saLoop_counts (n : ℕ) (l : List ι) (h : Core.saLoop n l c = .ok c') :
    Counts [.sa n] (fun _ => 1 + pipelineExcess c.heap c.coreCycle 0 l
      ((usage c.stats).active (.sa n))) c c' := by
  have hself (f : ℕ → ℕ) (k : ℕ) : addAt f n k n = f n + k := Function.update_self _ _ _
  induction l generalizing c with
  | nil =>
      cases h
      refine counts_addStats c (.sa n) (.saIdle n) 1 (fun q hq => ?_) ?_ rfl rfl
      · cases q with
        | vu => exact ⟨rfl, rfl⟩
        | sa m => exact ⟨rfl, addAt_of_ne _ _ fun h => hq (congrArg _ h)⟩
      · change c.stats.saComputeCycle n + addAt c.stats.saComputeIdleCycle n 1 n =
          c.stats.saComputeCycle n + c.stats.saComputeIdleCycle n + 1
        rw [hself, Nat.add_assoc]
  | cons i rest ih =>
      unfold Core.saLoop at h
      dsimp only at h
      split at h
      · next hfinish =>
        obtain ⟨e, he, h⟩ := bind_eq_ok.mp h
        have hcount := counts_addStats c (.sa n) (.saBubble n (c.heap.inst i).bubbleCycle)
          (0 + ((c.heap.inst i).bubbleCycle - ((usage c.stats).active (.sa n) + 0)))
          (fun q hq => by
            cases q with
            | vu => exact ⟨rfl, rfl⟩
            | sa m =>
              have hm : m ≠ n := fun h => hq (congrArg _ h)
              exact ⟨Function.update_of_ne hm _ _, addAt_of_ne _ _ hm⟩)
          (by
            change Function.update c.stats.saComputeCycle n _ n +
                addAt c.stats.saComputeIdleCycle n _ n =
              c.stats.saComputeCycle n + c.stats.saComputeIdleCycle n +
                (0 + (_ - (c.stats.saComputeCycle n + 0)))
            rw [hself, Function.update_self]
            omega) rfl rfl
        rw [pipelineExcess, if_pos hfinish]
        refine hcount.andThen he ?_ (ih h)
        exact Function.update_self _ _ _
      · next hfinish =>
        cases h
        rw [pipelineExcess, if_neg hfinish]
        refine counts_addStats c (.sa n) (.saBusy n) 1 (fun q hq => ?_) ?_ rfl rfl
        · cases q with
          | vu => exact ⟨rfl, rfl⟩
          | sa m => exact ⟨addAt_of_ne _ _ fun h => hq (congrArg _ h), rfl⟩
        · change addAt c.stats.saComputeCycle n 1 n + c.stats.saComputeIdleCycle n =
            c.stats.saComputeCycle n + c.stats.saComputeIdleCycle n + 1
          rw [hself]
          exact Nat.add_right_comm _ _ _

/-- The systolic arrays one after the other. -/
theorem saLoops_counts (l : List ℕ) (hl : l.Nodup)
    (h : l.foldlM (fun c n => Core.saLoop n (c.saComputePipeline n) c) c = .ok c') :
    Counts (l.map .sa) (fun p => 1 + excess c p) c c' := by
  induction l generalizing c with
  | nil =>
      cases h
      exact .of_sameUnits (.refl _)
  | cons n l ih =>
      rw [List.foldlM_cons] at h
      obtain ⟨d, hd, h⟩ := bind_eq_ok.mp h
      obtain ⟨hn, hl⟩ := List.nodup_cons.mp hl
      have hfirst : Counts [.sa n] (fun p => 1 + excess c p) c d :=
        (saLoop_counts n _ hd).congr fun p hp => by
          rw [List.mem_singleton.mp hp]
          rfl
      have hapart {p : Core.Pipeline} (hp : p ∈ l.map .sa) : p ∉ [Core.Pipeline.sa n] := by
        obtain ⟨m, hm, rfl⟩ := List.mem_map.mp hp
        intro heq
        cases List.mem_singleton.mp heq
        exact hn hm
      have hrest : Counts (l.map .sa) (fun p => 1 + excess c p) d c' :=
        (ih hl h).congr fun p hp => by rw [hfirst.excess_eq (hapart hp)]
      exact hfirst.append hrest fun p hp hp' => hapart hp' hp

/-- Each compute unit counts one cycle, and what its completions add. -/
theorem computeCycle_counts (h : c.computeCycle cfg = .ok c') :
    Counts (units cfg) (fun p => 1 + excess c p) c c' := by
  obtain ⟨d, hd, h⟩ := bind_eq_ok.mp h
  have hvu : Counts [.vu] (fun p => 1 + excess c p) c d :=
    (vuLoop_counts _ hd).congr fun p hp => by
      rw [List.mem_singleton.mp hp]
      rfl
  have hapart {p : Core.Pipeline} (hp : p ∈ (List.range cfg.numSystolicArrayPerCore).map
      Core.Pipeline.sa) : p ∉ [Core.Pipeline.vu] := by
    obtain ⟨m, -, rfl⟩ := List.mem_map.mp hp
    simp
  have hsa : Counts ((List.range cfg.numSystolicArrayPerCore).map .sa)
      (fun p => 1 + excess c p) d c' :=
    (saLoops_counts _ List.nodup_range h).congr fun p hp => by rw [hvu.excess_eq (hapart hp)]
  exact hvu.append hsa fun p hp hp' => hapart hp' hp

/-! ## The rest of a cycle -/

/-- The clock and the counters of the compute units stay. -/
structure SameCounts (c c' : Core τ ι) : Prop where
  clock : c'.coreCycle = c.coreCycle
  usage : usage c'.stats = usage c.stats

omit [DecidableEq τ] [DecidableEq ι] in
theorem SameCounts.trans (h : SameCounts c d) (h' : SameCounts d c') : SameCounts c c' :=
  ⟨h'.clock.trans h.clock, h'.usage.trans h.usage⟩

omit [DecidableEq τ] [DecidableEq ι] in
theorem SameUnits.sameCounts (h : SameUnits c c') : SameCounts c c' := ⟨h.clock, h.usage⟩

omit [DecidableEq τ] [DecidableEq ι] in
theorem getComputePipeline_counts {computeType : ℕ}
    (h : c.getComputePipeline cfg computeType = .ok (p, c')) : SameCounts c c' := by
  unfold Core.getComputePipeline at h
  split at h
  · cases h
    exact ⟨rfl, rfl⟩
  · split at h
    · split at h
      · cases h
      · cases h
        exact ⟨rfl, rfl⟩
    · cases h

theorem issueComp_counts {t : τ} {i : ι} {b : Bool} (h : c.issueComp cfg t i = .ok (c', b)) :
    SameCounts c c' := by
  unfold Core.issueComp at h
  obtain ⟨⟨p, d⟩, hd, h⟩ := bind_eq_ok.mp h
  have hpipeline := getComputePipeline_counts hd
  have hpush (e : Core τ ι) : SameCounts e (e.pushPipeline p i) := by cases p <;> exact ⟨rfl, rfl⟩
  have htimes : SameCounts d (d.setTimes p i) := ⟨rfl, rfl⟩
  dsimp only at h
  split at h
  · cases h
    exact hpipeline.trans ⟨rfl, rfl⟩
  · cases h
    have hpushed := (hpipeline.trans htimes).trans (hpush _)
    split
    · exact hpushed.trans ⟨rfl, rfl⟩
    · exact hpushed

theorem issueInst_counts {t : τ} {i : ι} {b : Bool} (h : c.issueInst cfg t i = .ok (c', b)) :
    SameCounts c c' := by
  by_cases hop : (c.heap.inst i).opcode = .comp
  · unfold Core.issueInst at h
    dsimp only at h
    split at h
    · next hmovin => rw [show (c.heap.inst i).opcode = .movin from hmovin] at hop; cases hop
    · next hmovout => rw [show (c.heap.inst i).opcode = .movout from hmovout] at hop; cases hop
    · have hcomp := issueComp_counts h
      exact ⟨hcomp.clock, hcomp.usage⟩
    · next hbar => rw [show (c.heap.inst i).opcode = .bar from hbar] at hop; cases hop
  · exact (issueInst_units hop h).sameCounts

theorem scanReady_counts {t : τ} (fuel : ℕ) {b : Bool}
    (h : Core.scanReady cfg env t fuel c = .ok (c', b)) : SameCounts c c' := by
  induction fuel generalizing c with
  | zero => cases h
  | succ fuel ih =>
      unfold Core.scanReady at h
      split at h
      · cases h
        exact ⟨rfl, rfl⟩
      · obtain ⟨⟨d, issued⟩, hd, h⟩ := bind_eq_ok.mp h
        have hcounts := issueInst_counts hd
        dsimp only at h
        split at h
        · cases h
          exact hcounts.trans ⟨rfl, rfl⟩
        · split at h
          · exact hcounts.trans (ih h)
          · cases h

theorem issueLoop_counts (ts : List τ) {b : Bool}
    (h : Core.issueLoop cfg env ts c = .ok (c', b)) : SameCounts c c' := by
  induction ts generalizing c with
  | nil =>
      cases h
      exact ⟨rfl, rfl⟩
  | cons t ts ih =>
      unfold Core.issueLoop at h
      obtain ⟨⟨d, issued⟩, hd, h⟩ := bind_eq_ok.mp h
      have hcounts := scanReady_counts _ hd
      dsimp only at h
      split at h
      · cases h
        exact hcounts
      · exact hcounts.trans (ih h)

/-- The counters after the compute units have worked are those that the report prints. -/
theorem workCycle_cases (h : c.workCycle cfg env = .ok c') : ∃ d, c.computeCycle cfg = .ok d ∧
    c'.coreCycle = d.coreCycle + 1 ∧ usage c'.stats = usage d.stats := by
  unfold Core.workCycle at h
  obtain ⟨d, hd, h⟩ := bind_eq_ok.mp h
  obtain ⟨e, he, h⟩ := bind_eq_ok.mp h
  obtain ⟨⟨f, issued⟩, hf, h⟩ := bind_eq_ok.mp h
  have hdma := (dmaCycle_units he).sameCounts
  have hissue := issueLoop_counts _ hf
  have hend : SameCounts f (if issued then f else f.removeFinishedTile) := by
    split
    · exact ⟨rfl, rfl⟩
    · exact (removeFinishedTile_units f).sameCounts
  cases h
  refine ⟨d, hd, ?_, ?_⟩
  · rw [hend.clock, hissue.clock, ← hdma.clock]
  · rw [hend.usage, hissue.usage, ← hdma.usage]

/-! ## The partition of time -/

/-- The counters of the interval are as far as the clock. -/
def IntervalExact (elapsed : ℕ) (c : Core τ ι) (p : Core.Pipeline) : Prop :=
  (usage c.stats).active p + (usage c.stats).idle p = elapsed

/-- The totals that `print_stats` prints are as far as the clock.
SOURCE: Core.cc:452-493 -/
def TotalExact (cfg : CoreConfig) (c : Core τ ι) (p : Core.Pipeline) : Prop :=
  (usage (Core.updateStats cfg c.stats)).totalActive p +
    (usage (Core.updateStats cfg c.stats)).totalIdle p = c.coreCycle

/-- The cycles since the counters of the interval were reset. -/
def sinceReset (cfg : CoreConfig) (cycles : ℕ) : ℕ :=
  if cfg.corePrintInterval = 0 then cycles else cycles % cfg.corePrintInterval

/-- A unit counts one cycle in a cycle, and what its completions add. -/
theorem workCycle_counted (h : c.workCycle cfg env = .ok c') (hp : p ∈ units cfg) :
    (usage c'.stats).active p + (usage c'.stats).idle p =
      (usage c.stats).active p + (usage c.stats).idle p + (1 + excess c p) := by
  obtain ⟨d, hd, -, husage⟩ := workCycle_cases h
  rw [husage]
  exact (computeCycle_counts hd).counted p hp

theorem workCycle_clock (h : c.workCycle cfg env = .ok c') : c'.coreCycle = c.coreCycle + 1 := by
  obtain ⟨d, hd, hclock, -⟩ := workCycle_cases h
  rw [hclock, (computeCycle_counts hd).clock]

/-- The totals do not change before the report. -/
theorem workCycle_totals (h : c.workCycle cfg env = .ok c') :
    (usage c'.stats).totalActive = (usage c.stats).totalActive ∧
      (usage c'.stats).totalIdle = (usage c.stats).totalIdle := by
  obtain ⟨d, hd, -, husage⟩ := workCycle_cases h
  have hcounts := computeCycle_counts hd
  rw [husage]
  exact ⟨hcounts.totalActive, hcounts.totalIdle⟩

omit [DecidableEq τ] [DecidableEq ι] in
/-- The totals of a systolic array with the counters of the interval added. -/
theorem totalExact_sa_iff (c : Core τ ι) {n : ℕ} (hn : n < cfg.numSystolicArrayPerCore) :
    TotalExact cfg c (.sa n) ↔
      (usage c.stats).totalActive (.sa n) + (usage c.stats).totalIdle (.sa n) +
        ((usage c.stats).active (.sa n) + (usage c.stats).idle (.sa n)) = c.coreCycle := by
  have hactive : (usage (Core.updateStats cfg c.stats)).totalActive (.sa n) =
      (usage c.stats).totalActive (.sa n) + (usage c.stats).active (.sa n) := if_pos hn
  have hidle : (usage (Core.updateStats cfg c.stats)).totalIdle (.sa n) =
      (usage c.stats).totalIdle (.sa n) + (usage c.stats).idle (.sa n) := if_pos hn
  unfold TotalExact
  rw [hactive, hidle, Nat.add_add_add_comm]

omit [DecidableEq τ] [DecidableEq ι] in
/-- The idle cycles of the vector unit do not enter the total. -/
theorem totalExact_vu_iff (c : Core τ ι) : TotalExact cfg c .vu ↔
    (usage c.stats).totalActive .vu + (usage c.stats).active .vu +
      (usage c.stats).totalIdle .vu = c.coreCycle := Iff.rfl

/-- The counters of a unit start again after a report. -/
theorem updateStats_reset (s : CoreStats) (hp : p ∈ units cfg) :
    (usage (Core.updateStats cfg s)).active p = 0 ∧ (usage (Core.updateStats cfg s)).idle p = 0 := by
  rcases List.mem_cons.mp hp with rfl | hp
  · exact ⟨rfl, rfl⟩
  · obtain ⟨n, hn, rfl⟩ := List.mem_map.mp hp
    exact ⟨if_pos (List.mem_range.mp hn), if_pos (List.mem_range.mp hn)⟩

omit [DecidableEq τ] [DecidableEq ι] in
/-- The report changes no total that `print_stats` will print. -/
theorem totalExact_report (c : Core τ ι) (hp : p ∈ units cfg) :
    TotalExact cfg (c.report cfg) p ↔ TotalExact cfg c p := by
  unfold Core.report
  split
  · obtain ⟨hactive, hidle⟩ := updateStats_reset c.stats hp
    rcases List.mem_cons.mp hp with rfl | hp
    · exact Iff.rfl
    · obtain ⟨n, hn, rfl⟩ := List.mem_map.mp hp
      rw [totalExact_sa_iff _ (List.mem_range.mp hn)]
      change _ + (_ + (usage (Core.updateStats cfg c.stats)).idle (.sa n)) = _ ↔ _
      rw [hidle]
      change _ + ((usage (Core.updateStats cfg c.stats)).active (.sa n) + 0) = _ ↔ _
      rw [hactive]
      exact Iff.rfl
  · exact Iff.rfl

omit [DecidableEq τ] [DecidableEq ι] in
/-- The report starts a new interval. -/
theorem intervalExact_report {n : ℕ} (hclock : c.coreCycle = n + 1) (hp : p ∈ units cfg)
    (h : IntervalExact (sinceReset cfg n + 1) c p) :
    IntervalExact (sinceReset cfg (c.report cfg).coreCycle) (c.report cfg) p := by
  have hkept : (c.report cfg).coreCycle = n + 1 := by
    rw [← hclock]
    unfold Core.report
    split <;> rfl
  rw [hkept]
  unfold sinceReset at h ⊢
  unfold Core.report
  by_cases hinterval : cfg.corePrintInterval = 0
  · rw [if_pos hinterval] at h ⊢
    rw [if_neg fun hreport => hreport.1 hinterval]
    exact h
  rw [if_neg hinterval] at h ⊢
  rw [hclock]
  by_cases hreset : (n + 1) % cfg.corePrintInterval = 0
  · obtain ⟨hactive, hidle⟩ := updateStats_reset c.stats hp
    rw [if_pos ⟨hinterval, hreset⟩, hreset]
    change _ + (usage (Core.updateStats cfg c.stats)).idle p = 0
    rw [hidle]
    exact hactive
  · rw [if_neg fun hreport => hreset hreport.2]
    have hmod : (n + 1) % cfg.corePrintInterval = n % cfg.corePrintInterval + 1 := by
      obtain ⟨k, hk⟩ := Nat.exists_eq_succ_of_ne_zero hinterval
      rw [hk, Nat.succ_eq_add_one] at hreset ⊢
      rw [Nat.succ_mod_succ_eq_zero_iff] at hreset
      have hlt : n % (k + 1) + 1 < k + 1 := by
        have hmod : n % (k + 1) < k + 1 := Nat.mod_lt n (Nat.succ_pos k)
        omega
      rw [← Nat.mod_add_mod, Nat.mod_eq_of_lt hlt]
    rw [hmod]
    exact h

/-! ## Runs -/

theorem step_cycle {s s' : CoreSystem τ ι} (h : s.step cfg (.cycle env) = .ok s') :
    ∃ d, s.core.workCycle cfg env = .ok d ∧ s'.core = d.report cfg := by
  obtain ⟨c, hc, h⟩ := bind_eq_ok.mp h
  cases h
  obtain ⟨d, hd, rfl⟩ := Core.cycle_eq_ok.mp hc
  exact ⟨d, hd, rfl⟩

omit [DecidableEq τ] [DecidableEq ι] in
theorem SameCounts.intervalExact_iff (h : SameCounts c c') (n : ℕ) :
    IntervalExact n c' p ↔ IntervalExact n c p := by
  unfold IntervalExact
  rw [h.usage]

/-- In a cycle the counters of the interval stay with the clock if nothing is added to them. -/
theorem intervalExact_work_iff (h : c.workCycle cfg env = .ok c') (hp : p ∈ units cfg) {n : ℕ}
    (hc : IntervalExact n c p) : IntervalExact (n + 1) c' p ↔ excess c p = 0 := by
  unfold IntervalExact at hc ⊢
  rw [workCycle_counted h hp, hc]
  omega

/-- The counters of the interval are with the clock in a run whose cycles add nothing to them. -/
theorem intervalExact_of_reach {P : TileProgram τ ι} {s : CoreSystem τ ι} (hp : p ∈ units cfg)
    (hreach : Reach (CoreSystem.step cfg) (fun s a => ∀ env, a = .cycle env →
      excess s.core p = 0) (.init P) s) :
    IntervalExact (sinceReset cfg s.core.coreCycle) s.core p := by
  apply hreach.invariant
  · have hzero : sinceReset cfg 0 = 0 := by
      unfold sinceReset
      split
      · rfl
      · exact Nat.zero_mod _
    change _ = sinceReset cfg 0
    rw [hzero]
    cases p <;> rfl
  · intro s a s' _ hs hexcess hstep
    by_cases ha : ∃ env, a = .cycle env
    · obtain ⟨env, rfl⟩ := ha
      obtain ⟨d, hd, hreport⟩ := step_cycle hstep
      rw [hreport]
      refine intervalExact_report (workCycle_clock hd) hp ?_
      exact (intervalExact_work_iff hd hp hs).mpr (hexcess env rfl)
    · have hcounts := (step_units (fun env h => ha ⟨env, h⟩) hstep).sameCounts
      rw [hcounts.clock, hcounts.intervalExact_iff]
      exact hs

/-- In a cycle the totals of a systolic array stay with the clock if nothing is added to them. -/
theorem totalExact_work_iff (h : c.workCycle cfg env = .ok c') {n : ℕ}
    (hn : n < cfg.numSystolicArrayPerCore) (hc : TotalExact cfg c (.sa n)) :
    TotalExact cfg c' (.sa n) ↔ excess c (.sa n) = 0 := by
  have hmem : Core.Pipeline.sa n ∈ units cfg :=
    List.mem_cons_of_mem _ (List.mem_map_of_mem (List.mem_range.mpr hn))
  obtain ⟨hactive, hidle⟩ := workCycle_totals h
  rw [totalExact_sa_iff _ hn] at hc ⊢
  rw [workCycle_counted h hmem, workCycle_clock h, hactive, hidle, ← hc]
  omega

/-- The totals of a systolic array are with the clock in a run whose cycles add nothing to them. -/
theorem totalExact_of_reach {P : TileProgram τ ι} {s : CoreSystem τ ι} {n : ℕ}
    (hn : n < cfg.numSystolicArrayPerCore)
    (hreach : Reach (CoreSystem.step cfg) (fun s a => ∀ env, a = .cycle env →
      excess s.core (.sa n) = 0) (.init P) s) : TotalExact cfg s.core (.sa n) := by
  have hmem : Core.Pipeline.sa n ∈ units cfg :=
    List.mem_cons_of_mem _ (List.mem_map_of_mem (List.mem_range.mpr hn))
  apply hreach.invariant
  · exact (totalExact_sa_iff _ hn).mpr rfl
  · intro s a s' _ hs hexcess hstep
    by_cases ha : ∃ env, a = .cycle env
    · obtain ⟨env, rfl⟩ := ha
      obtain ⟨d, hd, hreport⟩ := step_cycle hstep
      rw [hreport, totalExact_report _ hmem]
      exact (totalExact_work_iff hd hn hs).mpr (hexcess env rfl)
    · have hcounts := (step_units (fun env h => ha ⟨env, h⟩) hstep).sameCounts
      rw [totalExact_sa_iff _ hn] at hs ⊢
      rw [hcounts.usage, hcounts.clock]
      exact hs

omit [DecidableEq τ] [DecidableEq ι] in
/-- The vector unit adds something exactly if an instruction leaves it. -/
theorem excess_vu_eq_zero_iff (c : Core τ ι) : excess c .vu = 0 ↔
    ∀ i, c.vuComputePipeline.head? = some i → c.coreCycle < (c.heap.inst i).finishCycle := by
  unfold excess
  change pipelineExcess _ _ 1 c.vuComputePipeline _ = 0 ↔ _
  cases c.vuComputePipeline with
  | nil => exact ⟨fun _ _ => nofun, fun _ => rfl⟩
  | cons i rest =>
    rw [pipelineExcess, List.head?_cons]
    constructor
    · intro h j hj
      cases hj
      by_contra hle
      rw [if_pos (not_lt.mp hle)] at h
      omega
    · intro h
      exact if_neg (not_le.mpr (h i rfl))

/-- An empty vector unit counts no active cycle. -/
theorem workCycle_vu_idle (h : c.workCycle cfg env = .ok c') (hempty : c.vuComputePipeline = []) :
    (usage c'.stats).active .vu = (usage c.stats).active .vu := by
  obtain ⟨d, hd, -, husage⟩ := workCycle_cases h
  obtain ⟨e, he, hd⟩ := bind_eq_ok.mp hd
  have hsa := saLoops_counts _ List.nodup_range hd
  have hvu : Core.Pipeline.vu ∉
      (List.range cfg.numSystolicArrayPerCore).map Core.Pipeline.sa := by simp
  rw [husage, (hsa.others .vu hvu).2.1]
  unfold Core.vuCycle at he
  rw [hempty] at he
  cases he
  rfl

/-- Before the first cycle everything is zero. -/
theorem initial_of_reach {P : TileProgram τ ι} {s : CoreSystem τ ι}
    (hreach : Reach (CoreSystem.step cfg) (fun _ a => ∀ env, a ≠ .cycle env) (.init P) s) :
    s.core.coreCycle = 0 ∧ s.core.vuComputePipeline = [] ∧
      (usage s.core.stats).active .vu = 0 ∧ (usage s.core.stats).totalActive .vu = 0 ∧
      (usage s.core.stats).totalIdle .vu = 0 := by
  apply hreach.invariant
  · exact ⟨rfl, rfl, rfl, rfl, rfl⟩
  · intro s a s' _ hs ha hstep
    have hunits := step_units ha hstep
    rw [hunits.clock, hunits.usage, show s'.core.vuComputePipeline = s.core.vuComputePipeline from
      hunits.pipeline .vu]
    exact hs

/-- **Where the counters partition the time**: those of a systolic array up to the first bubble
that is more than its active cycles, those of the vector unit in an interval up to the first
instruction that leaves it, and its totals up to the first cycle. -/
theorem utilisation_iff (cfg : CoreConfig) (P : TileProgram τ ι) :
    (∀ n < cfg.numSystolicArrayPerCore, ∀ s, Reach (CoreSystem.step cfg)
        (fun s a => ∀ env, a = .cycle env → excess s.core (.sa n) = 0) (.init P) s →
      (IntervalExact (sinceReset cfg s.core.coreCycle) s.core (.sa n) ∧
        TotalExact cfg s.core (.sa n)) ∧
      ∀ env c', s.core.workCycle cfg env = .ok c' →
        (IntervalExact (sinceReset cfg s.core.coreCycle + 1) c' (.sa n) ∧
          TotalExact cfg c' (.sa n) ↔ excess s.core (.sa n) = 0)) ∧
    (∀ s, Reach (CoreSystem.step cfg) (fun s a => ∀ env, a = .cycle env →
        ∀ i, s.core.vuComputePipeline.head? = some i →
          s.core.coreCycle < (s.core.heap.inst i).finishCycle) (.init P) s →
      IntervalExact (sinceReset cfg s.core.coreCycle) s.core .vu ∧
      ∀ env c', s.core.workCycle cfg env = .ok c' →
        (IntervalExact (sinceReset cfg s.core.coreCycle + 1) c' .vu ↔
          ∀ i, s.core.vuComputePipeline.head? = some i →
            s.core.coreCycle < (s.core.heap.inst i).finishCycle)) ∧
    ∀ s, Reach (CoreSystem.step cfg) (fun _ a => ∀ env, a ≠ .cycle env) (.init P) s →
      TotalExact cfg s.core .vu ∧
      ∀ env c', s.core.workCycle cfg env = .ok c' → ¬TotalExact cfg c' .vu := by
  refine ⟨fun n hn s hreach => ?_, fun s hreach => ?_, fun s hreach => ?_⟩
  · have hmem : Core.Pipeline.sa n ∈ units cfg :=
      List.mem_cons_of_mem _ (List.mem_map_of_mem (List.mem_range.mpr hn))
    have hinterval := intervalExact_of_reach hmem hreach
    have htotal := totalExact_of_reach hn hreach
    refine ⟨⟨hinterval, htotal⟩, fun env c' hwork => ?_⟩
    rw [intervalExact_work_iff hwork hmem hinterval, totalExact_work_iff hwork hn htotal, and_self]
  · have hmem : Core.Pipeline.vu ∈ units cfg := List.mem_cons_self
    have hreach' := hreach.mono fun s a ha env henv =>
      (excess_vu_eq_zero_iff s.core).mpr (ha env henv)
    have hinterval := intervalExact_of_reach hmem hreach'
    refine ⟨hinterval, fun env c' hwork => ?_⟩
    rw [intervalExact_work_iff hwork hmem hinterval, excess_vu_eq_zero_iff]
  · obtain ⟨hclock, hempty, hactive, htotalActive, htotalIdle⟩ := initial_of_reach hreach
    constructor
    · rw [totalExact_vu_iff, hactive, htotalActive, htotalIdle, hclock]
    · intro env c' hwork htotal
      obtain ⟨htotalActive', htotalIdle'⟩ := workCycle_totals hwork
      rw [totalExact_vu_iff, workCycle_vu_idle hwork hempty, htotalActive', htotalIdle', hactive,
        htotalActive, htotalIdle, workCycle_clock hwork, hclock] at htotal
      cases htotal

/-- The instructions of a tile with a matrix multiplication that overlaps with all of its cycles,
and a short vector instruction. -/
def overlappedHeap : CoreHeap (Fin 1) (Fin 2) where
  tile := fun _ => { status := .initialized, nrInsts := 2, instructions := List.finRange 2 }
  inst := fun i =>
    if i = Fin.last 1 then
      { id := i, opcode := .comp, owner := Fin.last 0, computeType := VECTOR_UNIT,
        computeCycle := 1 }
    else
      { id := i, opcode := .comp, owner := Fin.last 0, computeType := MATMUL, computeCycle := 4,
        overlappingCycle := 4 }

theorem overlappedHeap_readyCounter : ∀ t, ∀ j ∈ (overlappedHeap.tile t).instructions,
    (overlappedHeap.tile t).instructions.countP (fun i => j ∈ (overlappedHeap.inst i).childInst) ≤
      (overlappedHeap.inst j).readyCounter := by
  decide

/-- The tile of these two instructions. -/
def overlappedMatmul : TileProgram (Fin 1) (Fin 2) where
  heap := overlappedHeap
  insts_nodup := by decide
  owner := by decide
  nrInsts := by decide
  nrFinishedInsts := by decide
  readyQueue := by decide
  finished := by decide
  nrWaitingRequest := by decide
  child_nodup := by decide
  child_mem := by decide
  readyCounter := overlappedHeap_readyCounter

/-- A core with one systolic array that reports every three cycles. -/
def reportsEveryThree : CoreConfig := { corePrintInterval := 3 }

/-- After five cycles the vector unit has counted three cycles of the last two, and two in all.
After six the systolic array has counted eight. -/
theorem not_utilisation : ∃ s s' : CoreSystem (Fin 1) (Fin 2),
    (.issue 0 :: List.replicate 5 (.cycle {})).foldlM (CoreSystem.step reportsEveryThree)
      (.init overlappedMatmul) = .ok s ∧
    (.issue 0 :: List.replicate 6 (.cycle {})).foldlM (CoreSystem.step reportsEveryThree)
      (.init overlappedMatmul) = .ok s' ∧
    ¬IntervalExact (sinceReset reportsEveryThree s.core.coreCycle) s.core .vu ∧
    ¬TotalExact reportsEveryThree s.core .vu ∧ ¬TotalExact reportsEveryThree s'.core (.sa 0) := by
  obtain ⟨s, hrun, hclock, hactive, hidle, htotal, htotalIdle⟩ : ∃ s,
      (.issue 0 :: List.replicate 5 (.cycle {})).foldlM (CoreSystem.step reportsEveryThree)
        (.init overlappedMatmul) = .ok s ∧ s.core.coreCycle = 5 ∧
      (usage s.core.stats).active .vu = 1 ∧ (usage s.core.stats).idle .vu = 2 ∧
      (usage s.core.stats).totalActive .vu = 1 ∧ (usage s.core.stats).totalIdle .vu = 0 :=
    ⟨_, rfl, rfl, rfl, rfl, rfl, rfl⟩
  obtain ⟨s', hrun', hclock', hactive', hidle'⟩ : ∃ s',
      (.issue 0 :: List.replicate 6 (.cycle {})).foldlM (CoreSystem.step reportsEveryThree)
        (.init overlappedMatmul) = .ok s' ∧ s'.core.coreCycle = 6 ∧
      (usage (Core.updateStats reportsEveryThree s'.core.stats)).totalActive (.sa 0) = 2 ∧
      (usage (Core.updateStats reportsEveryThree s'.core.stats)).totalIdle (.sa 0) = 6 :=
    ⟨_, rfl, rfl, rfl, rfl⟩
  refine ⟨s, s', hrun, hrun', ?_, ?_, ?_⟩
  · rw [IntervalExact, hactive, hidle, hclock]
    decide
  · rw [totalExact_vu_iff, hactive, htotal, htotalIdle, hclock]
    decide
  · rw [TotalExact, hactive', hidle', hclock']
    decide

end PyTorchSim.Analysis
