import PyTorchSim.Library.TimedQueue
import PyTorchSim.Analysis.Completion
import PyTorchSim.Analysis.UnitFrames

/-!
# The times of compute instructions

A compute instruction gets its finish cycle when it enters a pipeline, from that of the last
instruction in there and from the overlap that it is granted.  Each cycle first takes out what has
finished, then moves the clock and then issues, so that an instruction never finds one in front of
it that should have left already.  A pipeline is a queue whose items are due one after the other, as
long as the finish cycles fit into 64 bits.
-/

set_option autoImplicit false

namespace PyTorchSim.Analysis

open PyTorchSim.Model PyTorchSim.Library

variable {τ ι : Type} [DecidableEq τ] [DecidableEq ι] {c c' d : Core τ ι} {cfg : CoreConfig}
  {env : CycleEnv} {i : ι} {t : τ} {p : Core.Pipeline}

/-- The finish cycle of an instruction. -/
abbrev finishOf (c : Core τ ι) (i : ι) : ℕ := (c.heap.inst i).finishCycle

/-! ## What leaves the pipelines -/

/-- The loop of a compute unit over its pipeline. -/
inductive UnitLoop (p : Core.Pipeline) : List ι → Core τ ι → Core τ ι → Prop
  | empty (c : Core τ ι) (f : CoreStats → CoreStats) : UnitLoop p [] c (c.addStats f)
  | busy (i : ι) (rest : List ι) (c : Core τ ι) (f : CoreStats → CoreStats)
      (h : c.coreCycle < finishOf c i) : UnitLoop p (i :: rest) c (c.addStats f)
  | complete (i : ι) (rest : List ι) (c d c' : Core τ ι) (f : CoreStats → CoreStats)
      (h : finishOf c i ≤ c.coreCycle) (hfinish : (c.addStats f).finishInstruction i = .ok d)
      (hrest : UnitLoop p rest (d.popPipeline p) c') : UnitLoop p (i :: rest) c c'

theorem vuLoop_unitLoop (l : List ι) (h : Core.vuLoop l c = .ok c') : UnitLoop .vu l c c' := by
  induction l generalizing c with
  | nil =>
      cases h
      exact .empty c _
  | cons i rest ih =>
      unfold Core.vuLoop at h
      dsimp only at h
      split at h
      · next hfinish =>
        obtain ⟨d, hd, h⟩ := bind_eq_ok.mp h
        exact .complete i rest c d c'
          (fun s => (s.vuBusy).vuBubble (c.heap.inst i).bubbleCycle) hfinish hd (ih h)
      · next hfinish =>
        cases h
        exact .busy i rest c _ (not_le.mp hfinish)

theorem saLoop_unitLoop (n : ℕ) (l : List ι) (h : Core.saLoop n l c = .ok c') :
    UnitLoop (.sa n) l c c' := by
  induction l generalizing c with
  | nil =>
      cases h
      exact .empty c _
  | cons i rest ih =>
      unfold Core.saLoop at h
      dsimp only at h
      split at h
      · next hfinish =>
        obtain ⟨d, hd, h⟩ := bind_eq_ok.mp h
        exact .complete i rest c d c' _ hfinish hd (ih h)
      · next hfinish =>
        cases h
        exact .busy i rest c _ (not_le.mp hfinish)

/-- The finished instructions have left some pipelines, and nothing else has changed. -/
structure Drains (S : List Core.Pipeline) (c c' : Core τ ι) : Prop where
  clock : c'.coreCycle = c.coreCycle
  times : ∀ i, SameTimes (c.heap.inst i) (c'.heap.inst i)
  others : ∀ p ∉ S, c'.pipeline p = c.pipeline p
  front : ∀ p ∈ S, ∃ front, c.pipeline p = front ++ c'.pipeline p ∧
    ∀ i ∈ front, finishOf c i ≤ c.coreCycle
  head : ∀ p ∈ S, ∀ i, (c'.pipeline p).head? = some i → c.coreCycle < finishOf c i

omit [DecidableEq τ] [DecidableEq ι] in
theorem Drains.of_sameUnits (h : SameUnits c c') : Drains [] c c' :=
  ⟨h.clock, h.times, fun p _ => h.pipeline p, nofun, nofun⟩

omit [DecidableEq τ] [DecidableEq ι] in
/-- Other pipelines are drained as well. -/
theorem Drains.append {S S' : List Core.Pipeline} (h : Drains S c d) (h' : Drains S' d c')
    (hdisjoint : S.Disjoint S') : Drains (S ++ S') c c' where
  clock := h'.clock.trans h.clock
  times i := (h.times i).trans (h'.times i)
  others p hp := by
    rw [List.mem_append, not_or] at hp
    rw [h'.others p hp.2, h.others p hp.1]
  front p hp := by
    rcases List.mem_append.mp hp with hp | hp
    · rw [h'.others p fun hp' => hdisjoint hp hp']
      exact h.front p hp
    · obtain ⟨front, hfront, hdue⟩ := h'.front p hp
      rw [h.others p fun hp' => hdisjoint hp' hp] at hfront
      refine ⟨front, hfront, fun i hi => ?_⟩
      have hi := hdue i hi
      rw [h.clock] at hi
      rwa [finishOf, (h.times i).finishCycle] at hi
  head p hp i hi := by
    rcases List.mem_append.mp hp with hp | hp
    · rw [h'.others p fun hp' => hdisjoint hp hp'] at hi
      exact h.head p hp i hi
    · have hi := h'.head p hp i hi
      rw [h.clock] at hi
      rwa [finishOf, (h.times i).finishCycle] at hi

/-- A loop takes the finished instructions from the front. -/
theorem UnitLoop.drains {l : List ι} (h : UnitLoop p l c c') (hl : c.pipeline p = l) :
    Drains [p] c c' := by
  have hstats (c : Core τ ι) (f : CoreStats → CoreStats) (q : Core.Pipeline) :
      (c.addStats f).pipeline q = c.pipeline q := by cases q <;> rfl
  induction h with
  | empty c f =>
    refine ⟨rfl, fun _ => .refl _, fun q _ => hstats c f q, fun q hq => ?_, fun q hq i hi => ?_⟩
    · rw [hstats]
      exact ⟨[], rfl, nofun⟩
    · rw [List.mem_singleton.mp hq, hstats, hl] at hi
      cases hi
  | busy i rest c f hbusy =>
    refine ⟨rfl, fun _ => .refl _, fun q _ => hstats c f q, fun q hq => ?_, fun q hq j hj => ?_⟩
    · rw [hstats]
      exact ⟨[], rfl, nofun⟩
    · rw [List.mem_singleton.mp hq, hstats, hl, List.head?_cons] at hj
      cases hj
      exact hbusy
  | complete i rest c d c' f hdue hfinish _ ih =>
    have hunits := finishInstruction_units hfinish
    have hpipe (q : Core.Pipeline) : (d.popPipeline p).pipeline q =
        if q = p then rest else c.pipeline q := by
      unfold Core.popPipeline
      rw [Core.pipeline_setPipeline, hunits.pipeline, hunits.pipeline, hstats, hstats, hl]
      rfl
    have hclock : (d.popPipeline p).coreCycle = c.coreCycle := by
      rw [show (d.popPipeline p).coreCycle = d.coreCycle from by cases p <;> rfl]
      exact hunits.clock
    have htimes (j : ι) : SameTimes (c.heap.inst j) ((d.popPipeline p).heap.inst j) := by
      rw [show (d.popPipeline p).heap = d.heap from by cases p <;> rfl]
      exact hunits.times j
    obtain ⟨hclock', htimes', hothers, hfront, hhead⟩ := ih (by rw [hpipe, if_pos rfl])
    rw [hclock] at hclock' hfront hhead
    refine ⟨hclock', fun j => (htimes j).trans (htimes' j), fun q hq => ?_, fun q hq => ?_,
      fun q hq j hj => ?_⟩
    · rw [hothers q hq, hpipe, if_neg (by simpa using hq)]
    · obtain ⟨front, hq', hdues⟩ := hfront q hq
      rw [List.mem_singleton.mp hq, hpipe, if_pos rfl] at hq'
      rw [List.mem_singleton.mp hq, hl, hq']
      refine ⟨i :: front, rfl, fun j hj => ?_⟩
      rcases List.mem_cons.mp hj with rfl | hj
      · exact hdue
      · have hj := hdues j hj
        rwa [finishOf, (htimes j).finishCycle] at hj
    · have hj := hhead q hq j hj
      rwa [finishOf, (htimes j).finishCycle] at hj

theorem saLoops_drains (l : List ℕ) (hl : l.Nodup)
    (h : l.foldlM (fun c n => Core.saLoop n (c.saComputePipeline n) c) c = .ok c') :
    Drains (l.map .sa) c c' := by
  induction l generalizing c with
  | nil =>
      cases h
      exact .of_sameUnits (.refl _)
  | cons n l ih =>
      rw [List.foldlM_cons] at h
      obtain ⟨d, hd, h⟩ := bind_eq_ok.mp h
      obtain ⟨hn, hl⟩ := List.nodup_cons.mp hl
      have hfirst : Drains [.sa n] c d := (saLoop_unitLoop n _ hd).drains rfl
      refine hfirst.append (ih hl h) fun p hp hp' => ?_
      obtain ⟨m, hm, rfl⟩ := List.mem_map.mp hp'
      cases List.mem_singleton.mp hp
      exact hn hm

/-- The first half of a cycle takes out what has finished. -/
theorem unitCycle_drains (h : c.unitCycle cfg env = .ok c') : Drains (units cfg) c c' := by
  obtain ⟨e, he, h⟩ := bind_eq_ok.mp h
  obtain ⟨d, hd, he⟩ := bind_eq_ok.mp he
  have hvu : Drains [.vu] c d := (vuLoop_unitLoop _ hd).drains rfl
  have hcompute : Drains (units cfg) c e := by
    refine hvu.append (saLoops_drains _ List.nodup_range he) fun p hp hp' => ?_
    obtain ⟨m, -, rfl⟩ := List.mem_map.mp hp'
    cases List.mem_singleton.mp hp
  have hdma := hcompute.append (.of_sameUnits (dmaCycle_units h)) (List.disjoint_nil_right _)
  rwa [List.append_nil] at hdma

/-! ## What enters the pipelines -/

/-- The pipelines stay, with the finish cycles of the instructions in them. -/
structure KeepsQueues (c c' : Core τ ι) : Prop where
  clock : c'.coreCycle = c.coreCycle
  pipeline : ∀ p, c'.pipeline p = c.pipeline p
  due : ∀ p, ∀ i ∈ c.pipeline p, finishOf c' i = finishOf c i

omit [DecidableEq τ] [DecidableEq ι] in
theorem KeepsQueues.refl (c : Core τ ι) : KeepsQueues c c :=
  ⟨rfl, fun _ => rfl, fun _ _ _ => rfl⟩

omit [DecidableEq τ] [DecidableEq ι] in
theorem KeepsQueues.trans (h : KeepsQueues c d) (h' : KeepsQueues d c') : KeepsQueues c c' := by
  refine ⟨h'.clock.trans h.clock, fun p => (h'.pipeline p).trans (h.pipeline p), ?_⟩
  intro p i hi
  rw [← h.due p i hi]
  exact h'.due p i (by rwa [h.pipeline])

omit [DecidableEq τ] [DecidableEq ι] in
theorem SameUnits.keepsQueues (h : SameUnits c c') : KeepsQueues c c' :=
  ⟨h.clock, h.pipeline, fun _ i _ => (h.times i).finishCycle⟩

/-- An instruction enters a pipeline, with the times that it is given there. -/
structure EntersPipeline (c c' : Core τ ι) (p : Core.Pipeline) (i : ι) : Prop where
  clock : c'.coreCycle = c.coreCycle
  pipeline : ∀ q, c'.pipeline q = if q = p then c.pipeline p ++ [i] else c.pipeline q
  due : ∀ q, ∀ j ∈ c.pipeline q, finishOf c' j = finishOf c j
  finish : finishOf c' i = (Core.computeTimes c.coreCycle (c.heap.inst i)
    ((c.pipeline p).getLast?.map c.heap.inst)).1
  work : (c.heap.inst i).computeCycle ≠ 0
  computeCycle : (c'.heap.inst i).computeCycle = (c.heap.inst i).computeCycle
  overlappingCycle : (c'.heap.inst i).overlappingCycle = (c.heap.inst i).overlappingCycle

omit [DecidableEq τ] [DecidableEq ι] in
theorem pipeline_addStats (c : Core τ ι) (f : CoreStats → CoreStats) (q : Core.Pipeline) :
    (c.addStats f).pipeline q = c.pipeline q := by cases q <;> rfl

omit [DecidableEq τ] [DecidableEq ι] in
theorem getComputePipeline_units {computeType : ℕ}
    (h : c.getComputePipeline cfg computeType = .ok (p, c')) : SameUnits c c' := by
  unfold Core.getComputePipeline at h
  split at h
  · cases h
    exact .refl _
  · split at h
    · split at h
      · cases h
      · cases h
        exact .of_eq rfl rfl rfl (fun _ => .refl _) rfl
    · cases h

/-- A compute instruction that is nowhere else gets its times and enters a pipeline, unless it
takes no cycle. -/
theorem issueComp_enters (hnew : ∀ q, i ∉ c.pipeline q) {b : Bool}
    (h : c.issueComp cfg t i = .ok (c', b)) :
    (b = false ∧ KeepsQueues c c') ∨
      b = true ∧ ∃ d p, KeepsQueues c d ∧ d.heap = c.heap ∧ EntersPipeline d c' p i := by
  unfold Core.issueComp at h
  obtain ⟨⟨p, d⟩, hd, h⟩ := bind_eq_ok.mp h
  have hheap : d.heap = c.heap := by
    unfold Core.getComputePipeline at hd
    split_ifs at hd <;> cases hd <;> rfl
  have hkept := (getComputePipeline_units hd).keepsQueues
  have hnew' : ∀ q, i ∉ d.pipeline q := fun q hq => hnew q (by rwa [hkept.pipeline] at hq)
  have hother {q : Core.Pipeline} {j : ι} (hj : j ∈ d.pipeline q) :
      (d.setTimes p i).heap.inst j = d.heap.inst j :=
    CoreHeap.setInst_inst_of_ne _ _ fun hji => hnew' q (hji ▸ hj)
  have hself : (d.setTimes p i).heap.inst i = { d.heap.inst i with
      finishCycle := (Core.computeTimes d.coreCycle (d.heap.inst i)
        ((d.pipeline p).getLast?.map d.heap.inst)).1
      bubbleCycle := (Core.computeTimes d.coreCycle (d.heap.inst i)
        ((d.pipeline p).getLast?.map d.heap.inst)).2 } := CoreHeap.setInst_inst_self _ _ _
  have htimes : KeepsQueues d (d.setTimes p i) :=
    ⟨rfl, fun q => by cases q <;> rfl, fun q j hj => by rw [finishOf, hother hj]⟩
  dsimp only at h
  split at h
  · next hzero =>
    cases h
    refine .inl ⟨rfl, hkept.trans (htimes.trans ?_)⟩
    have hfinish := (sameUnits_finish (d.setTimes p i) i).keepsQueues
    exact ⟨hfinish.clock, hfinish.pipeline, hfinish.due⟩
  · next hwork =>
    rw [hself] at hwork
    have henters (f : CoreStats → CoreStats) :
        EntersPipeline d (((d.setTimes p i).pushPipeline p i).addStats f) p i := by
      have hheap' : (((d.setTimes p i).pushPipeline p i).addStats f).heap =
          (d.setTimes p i).heap := by cases p <;> rfl
      have hclock : (((d.setTimes p i).pushPipeline p i).addStats f).coreCycle =
          d.coreCycle := by cases p <;> rfl
      refine ⟨hclock, fun q => ?_, fun q j hj => ?_, ?_, hwork, ?_, ?_⟩
      · unfold Core.pushPipeline
        rw [pipeline_addStats, Core.pipeline_setPipeline, htimes.pipeline, htimes.pipeline]
      · rw [finishOf, hheap', hother hj]
      · rw [finishOf, hheap', hself]
      · rw [hheap', hself]
      · rw [hheap', hself]
    cases h
    refine .inr ⟨rfl, d, p, hkept, hheap, ?_⟩
    split
    · exact henters _
    · exact henters id

/-- The cycles of the instructions stay, but some may be made to take none. -/
def SamePlan (c c' : Core τ ι) : Prop :=
  ∀ i, (c'.heap.inst i).overlappingCycle = (c.heap.inst i).overlappingCycle ∧
    ((c'.heap.inst i).computeCycle = (c.heap.inst i).computeCycle ∨
      (c'.heap.inst i).computeCycle = 0)

omit [DecidableEq τ] [DecidableEq ι] in
theorem SamePlan.trans (h : SamePlan c d) (h' : SamePlan d c') : SamePlan c c' := by
  intro i
  obtain ⟨hoverlap, hwork⟩ := h i
  obtain ⟨hoverlap', hwork'⟩ := h' i
  refine ⟨hoverlap'.trans hoverlap, ?_⟩
  rcases hwork' with hkept | hzero
  · rw [hkept]
    exact hwork
  · exact .inr hzero

omit [DecidableEq τ] [DecidableEq ι] in
theorem SamePlan.of_times (h : ∀ i, SameTimes (c.heap.inst i) (c'.heap.inst i)) : SamePlan c c' :=
  fun i => ⟨(h i).overlappingCycle, (h i).computeCycle⟩

omit [DecidableEq τ] [DecidableEq ι] in
theorem SamePlan.of_heap (h : c'.heap = c.heap) : SamePlan c c' := by
  intro i
  rw [h]
  exact ⟨rfl, .inl rfl⟩

theorem issueComp_plan {b : Bool} (h : c.issueComp cfg t i = .ok (c', b)) : SamePlan c c' := by
  unfold Core.issueComp at h
  obtain ⟨⟨p, d⟩, hd, h⟩ := bind_eq_ok.mp h
  have hpipeline := SamePlan.of_times (getComputePipeline_units hd).times
  have htimes : SamePlan d (d.setTimes p i) := by
    intro j
    by_cases hj : j = i
    · subst hj
      rw [show (d.setTimes p j).heap.inst j = _ from CoreHeap.setInst_inst_self _ _ _]
      exact ⟨rfl, .inl rfl⟩
    · rw [show (d.setTimes p i).heap.inst j = _ from CoreHeap.setInst_inst_of_ne _ _ hj]
      exact ⟨rfl, .inl rfl⟩
  have hset := hpipeline.trans htimes
  dsimp only at h
  split at h
  · cases h
    exact hset.trans (.of_times (sameUnits_finish (d.setTimes p i) i).times)
  · cases h
    refine hset.trans (.of_heap ?_)
    split <;> cases p <;> rfl

theorem issueInst_plan {b : Bool} (h : c.issueInst cfg t i = .ok (c', b)) : SamePlan c c' := by
  by_cases hop : (c.heap.inst i).opcode = .comp
  · unfold Core.issueInst at h
    dsimp only at h
    split at h
    · next hmovin => cases hop.symm.trans hmovin
    · next hmovout => cases hop.symm.trans hmovout
    · have hcomp := issueComp_plan h
      exact hcomp
    · next hbar => cases hop.symm.trans hbar
  · exact .of_times (issueInst_units hop h).times

/-- An instruction in front of a ready queue is in no pipeline. -/
theorem CoreInv.ready_not_pipeline {P : TileProgram τ ι} (hI : CoreInv P c)
    (hq : (c.heap.tile t).readyQueue.head? = some i) (q : Core.Pipeline) : i ∉ c.pipeline q :=
  (hI.take hq).2.nowhere (.pipe q)

/-- What happens to the pipelines when an instruction is issued. -/
theorem issueInst_enters {P : TileProgram τ ι} (hI : CoreInv P c)
    (hq : (c.heap.tile t).readyQueue.head? = some i) {b : Bool}
    (h : c.issueInst cfg t i = .ok (c', b)) :
    KeepsQueues c c' ∨
      b = true ∧ ∃ d p, KeepsQueues c d ∧ d.heap = c.heap ∧ EntersPipeline d c' p i := by
  by_cases hop : (c.heap.inst i).opcode = .comp
  · have hnew := hI.ready_not_pipeline hq
    have hlog : KeepsQueues c (c.log (.instIssued i)) := ⟨rfl, fun q => by cases q <;> rfl,
      fun _ _ _ => rfl⟩
    have hnew' : ∀ q, i ∉ (c.log (.instIssued i)).pipeline q := fun q hq =>
      hnew q (by rwa [hlog.pipeline] at hq)
    unfold Core.issueInst at h
    dsimp only at h
    split at h
    · next hmovin => cases hop.symm.trans hmovin
    · next hmovout => cases hop.symm.trans hmovout
    · rcases issueComp_enters hnew' h with ⟨-, hkept⟩ | ⟨hb, d, p, hkept, hheap, henters⟩
      · exact .inl (hlog.trans hkept)
      · exact .inr ⟨hb, d, p, hlog.trans hkept, hheap, henters⟩
    · next hbar => cases hop.symm.trans hbar
  · exact .inl (issueInst_units hop h).keepsQueues

/-- The issue switch changes no pipeline, or one instruction enters one. -/
def Issues (c c' : Core τ ι) : Prop :=
  KeepsQueues c c' ∨ ∃ d p i, KeepsQueues c d ∧ SamePlan c d ∧ EntersPipeline d c' p i

omit [DecidableEq τ] [DecidableEq ι] in
theorem KeepsQueues.andThen (h : KeepsQueues c d) (hplan : SamePlan c d) (h' : Issues d c') :
    Issues c c' := by
  rcases h' with h' | ⟨e, p, i, h', hplan', henters⟩
  · exact .inl (h.trans h')
  · exact .inr ⟨e, p, i, h.trans h', hplan.trans hplan', henters⟩

omit [DecidableEq ι] in
/-- An instruction that is issued leaves the ready queue. -/
theorem Issues.popped (h : Issues c d) (f : CoreStats → CoreStats) (t : τ) :
    Issues c { d.addStats f with heap := (d.addStats f).heap.popReady t } := by
  rcases h with h | ⟨e, p, i, h, hplan, henters⟩
  · exact .inl ⟨h.clock, h.pipeline, h.due⟩
  · exact .inr ⟨e, p, i, h, hplan, henters.clock, henters.pipeline, henters.due, henters.finish,
      henters.work, henters.computeCycle, henters.overlappingCycle⟩

theorem scanReady_issues {P : TileProgram τ ι} (fuel : ℕ) (hI : CoreInv P c) (ht : t ∈ c.tiles)
    {b : Bool} (h : Core.scanReady cfg env t fuel c = .ok (c', b)) :
    SamePlan c c' ∧ Issues c c' ∧
      (b = false → KeepsQueues c c' ∧ CoreInv P c' ∧ c'.tiles = c.tiles) := by
  induction fuel generalizing c with
  | zero => cases h
  | succ fuel ih =>
      unfold Core.scanReady at h
      split at h
      · cases h
        exact ⟨.of_heap rfl, .inl (.refl _), fun _ => ⟨.refl _, hI, rfl⟩⟩
      · next i rest hrest =>
        have hq : (c.heap.tile t).readyQueue.head? = some i := by rw [hrest]; rfl
        obtain ⟨⟨d, issued⟩, hd, h⟩ := bind_eq_ok.mp h
        have hplan := issueInst_plan hd
        have henters := issueInst_enters hI hq hd
        dsimp only at h
        cases issued with
        | true =>
          rw [if_pos rfl] at h
          cases h
          refine ⟨hplan, ?_, nofun⟩
          refine Issues.popped ?_ _ _
          rcases henters with hkept | ⟨-, e, p, hkept, hheap, henters⟩
          · exact .inl hkept
          · exact .inr ⟨e, p, i, hkept, .of_heap hheap, henters⟩
        | false =>
          have hkept : KeepsQueues c d := henters.resolve_right nofun
          have hout : Outcome (CycleStep cfg) IssueStops c
              (fun r => if r.2 then r.1.pop t else r.1) (c.issueInst cfg t i) :=
            issueInst_outcome hI ht hq
          rw [hd] at hout
          have hI' : CoreInv P d := Outcome.invariant (cycle_keeps cfg P) hout hI
          have htiles := (issueInst_skip hI hq hd).1
          rw [if_neg Bool.false_ne_true] at h
          split at h
          · obtain ⟨hplan', hissues, hend⟩ := ih hI' (by rw [htiles]; exact ht) h
            refine ⟨hplan.trans hplan', hkept.andThen hplan hissues, fun hb => ?_⟩
            obtain ⟨hkept', hI'', htiles'⟩ := hend hb
            exact ⟨hkept.trans hkept', hI'', htiles'.trans htiles⟩
          · cases h

theorem issueLoop_issues {P : TileProgram τ ι} (ts : List τ) (hI : CoreInv P c)
    (hts : ∀ t ∈ ts, t ∈ c.tiles) {b : Bool} (h : Core.issueLoop cfg env ts c = .ok (c', b)) :
    SamePlan c c' ∧ Issues c c' := by
  induction ts generalizing c with
  | nil =>
      cases h
      exact ⟨.of_heap rfl, .inl (.refl _)⟩
  | cons t ts ih =>
      unfold Core.issueLoop at h
      obtain ⟨⟨d, issued⟩, hd, h⟩ := bind_eq_ok.mp h
      obtain ⟨hplan, hissues, hend⟩ := scanReady_issues _ hI (hts t List.mem_cons_self) hd
      dsimp only at h
      cases issued with
      | true =>
        rw [if_pos rfl] at h
        cases h
        exact ⟨hplan, hissues⟩
      | false =>
        rw [if_neg Bool.false_ne_true] at h
        obtain ⟨hkept, hI', htiles⟩ := hend rfl
        obtain ⟨hplan', hissues'⟩ := ih hI' (fun u hu => by
          rw [htiles]
          exact hts u (List.mem_cons_of_mem t hu)) h
        exact ⟨hplan.trans hplan', hkept.andThen hplan hissues'⟩

/-- The second half of a cycle moves the clock, and one instruction at most enters a pipeline. -/
theorem issueCycle_issues {P : TileProgram τ ι} (hI : CoreInv P c)
    (h : c.issueCycle cfg env = .ok c') :
    SamePlan c c' ∧ Issues { c with coreCycle := c.coreCycle + 1 } c' := by
  have hclock : UnitStep cfg c { c with coreCycle := c.coreCycle + 1 } := .clock c _
  unfold Core.issueCycle at h
  dsimp only at h
  obtain ⟨⟨d, issued⟩, hd, h⟩ := bind_eq_ok.mp h
  obtain ⟨hplan, hissues⟩ := issueLoop_issues _ (hclock.inv hI) (fun _ ht => ht) hd
  -- the report of a tile and of an interval come after the issue
  have hend : ∀ e : Core τ ι, e.coreCycle = d.coreCycle → (∀ q, e.pipeline q = d.pipeline q) →
      e.heap.inst = d.heap.inst → (if cfg.corePrintInterval ≠ 0 ∧
        e.coreCycle % cfg.corePrintInterval = 0 then pure (e.addStats (Core.updateStats cfg))
        else pure e : Except CoreFault (Core τ ι)) = .ok c' →
      SamePlan c c' ∧ Issues { c with coreCycle := c.coreCycle + 1 } c' := by
    intro e hclock hpipeline hinst h
    have hafter : c'.coreCycle = d.coreCycle ∧ (∀ q, c'.pipeline q = d.pipeline q) ∧
        c'.heap.inst = d.heap.inst := by
      split at h <;> cases h
      · exact ⟨hclock, fun q => (pipeline_addStats e _ q).trans (hpipeline q), hinst⟩
      · exact ⟨hclock, hpipeline, hinst⟩
    obtain ⟨hclock, hpipeline, hinst⟩ := hafter
    constructor
    · intro i
      rw [hinst]
      exact hplan i
    · rcases hissues with hkept | ⟨f, p, i, hkept, hplan, henters⟩
      · refine .inl ⟨hclock.trans hkept.clock, fun q => (hpipeline q).trans (hkept.pipeline q), ?_⟩
        intro q j hj
        rw [finishOf, hinst]
        exact hkept.due q j hj
      · refine .inr ⟨f, p, i, hkept, hplan, hclock.trans henters.clock,
          fun q => (hpipeline q).trans (henters.pipeline q), fun q j hj => ?_, ?_, henters.work,
          ?_, ?_⟩
        · rw [finishOf, hinst]
          exact henters.due q j hj
        · rw [finishOf, hinst]
          exact henters.finish
        · rw [hinst]
          exact henters.computeCycle
        · rw [hinst]
          exact henters.overlappingCycle
  cases issued with
  | true => exact hend d rfl (fun _ => rfl) rfl h
  | false =>
    refine hend d.removeFinishedTile (removeFinishedTile_units d).clock
      (removeFinishedTile_units d).pipeline ?_ h
    unfold Core.removeFinishedTile
    split <;> rfl

/-! ## Runs -/

/-- A core and what has entered and left its pipelines, with the cycles. -/
structure TimedCore (τ ι : Type) where
  system : CoreSystem τ ι
  entered : Core.Pipeline → List (QueueEntry ι) := fun _ => []
  left : Core.Pipeline → List (ι × ℕ) := fun _ => []

namespace TimedCore

def init (P : TileProgram τ ι) : TimedCore τ ι := { system := .init P }

/-- How an instruction enters a pipeline: `mid` is the core when the issue switch starts, and `core`
when it is done. -/
def entry (mid core : Core τ ι) (p : Core.Pipeline) (i : ι) : QueueEntry ι where
  item := i
  cycle := core.coreCycle
  work := (core.heap.inst i).computeCycle
  overlap := (core.heap.inst i).overlappingCycle
  behind := (mid.pipeline p).getLast?.map (finishOf mid)

/-- The step of a core.  What is no longer at the front after the first half of a cycle has left,
and what is at the back after the second half has entered. -/
def step (cfg : CoreConfig) (r : TimedCore τ ι) : CoreAction τ → Except CoreFault (TimedCore τ ι)
  | .cycle env => do
    let mid ← r.system.core.unitCycle cfg env
    let core ← mid.issueCycle cfg env
    return {
      system := { r.system with core }
      entered := fun p => r.entered p ++
        ((core.pipeline p).drop (mid.pipeline p).length).map (entry mid core p)
      left := fun p => r.left p ++ ((r.system.core.pipeline p).take
        ((r.system.core.pipeline p).length - (mid.pipeline p).length)).map
          (·, r.system.core.coreCycle) }
  | a => do
    let system ← r.system.step cfg a
    return { r with system }

/-- A tile is given to the core once. -/
def Legal (r : TimedCore τ ι) (a : CoreAction τ) : Prop := r.system.Legal a

end TimedCore

/-- What the generator of the tile graph promises of compute instructions.
SOURCE: tog_generator.py:225-227 -/
def CompTimes (P : TileProgram τ ι) : Prop :=
  ∀ i, (P.heap.inst i).opcode = .comp →
    (P.heap.inst i).overlappingCycle ≤ (P.heap.inst i).computeCycle ∧
      (P.heap.inst i).computeCycle < 2 ^ 31

/-- The finish cycles fit into 64 bits. -/
def FinishFits (cfg : CoreConfig) (r : TimedCore τ ι) : Prop :=
  ∀ p ∈ units cfg, ∀ e ∈ r.entered p, e.due < 2 ^ 64

/-- A number of 64 bits is converted to itself. -/
theorem u64_natCast {n : ℕ} (h : n < 2 ^ 64) : u64 n = n := by
  unfold u64
  rw [Int.emod_eq_of_lt (Int.natCast_nonneg n) (by exact_mod_cast h), Int.toNat_natCast]

/-- A number of 31 bits is an `int`. -/
theorem i32_natCast {n : ℕ} (h : n < 2 ^ 31) : i32 n = n := by
  have hlt : (n : ℤ) < 2 ^ 31 := by exact_mod_cast h
  unfold i32
  rw [Int.emod_eq_of_lt (by omega) (by omega)]
  omega

omit [DecidableEq τ] [DecidableEq ι] in
/-- The finish cycle that the core computes. -/
theorem computeTimes_due (e : QueueEntry ι) (inst : Instruction τ ι)
    (back : Option (Instruction τ ι)) (hwork : e.work = inst.computeCycle)
    (hoverlap : e.overlap = inst.overlappingCycle)
    (hbehind : e.behind = back.map Instruction.finishCycle)
    (hnow : ∀ n, e.behind = some n → e.cycle ≤ n) (hle : e.overlap ≤ e.work)
    (hlt : e.work < 2 ^ 31) (hfits : e.due < 2 ^ 64) :
    (Core.computeTimes e.cycle inst back).1 = e.due := by
  unfold QueueEntry.due QueueEntry.base QueueEntry.granted at hfits ⊢
  unfold Core.computeTimes
  cases back with
  | none =>
    rw [hbehind] at hfits ⊢
    dsimp only [Option.map_none, Option.getD_none] at hfits ⊢
    rw [← hwork, ← Int.natCast_add]
    exact u64_natCast hfits
  | some b =>
    rw [hbehind] at hfits ⊢
    have hcycle : e.cycle ≤ b.finishCycle := hnow _ hbehind
    dsimp only [Option.map_some, Option.getD_some] at hfits ⊢
    have hmin : min (b.finishCycle - e.cycle) e.overlap ≤ e.overlap := Nat.min_le_right _ _
    have hbase : b.finishCycle < 2 ^ 64 := by omega
    rw [← hwork, ← hoverlap, ← Int.ofNat_sub hcycle,
      u64_natCast (Nat.lt_of_le_of_lt (Nat.sub_le _ _) hbase)]
    generalize min (b.finishCycle - e.cycle) e.overlap = granted at hmin hfits
    have hgranted : granted ≤ b.finishCycle + e.work := by omega
    rw [i32_natCast (Nat.lt_of_le_of_lt (hmin.trans hle) hlt), ← Int.natCast_add,
      ← Int.ofNat_sub hgranted]
    exact u64_natCast hfits

/-- What holds of a core and its pipelines in every state that a run reaches. -/
structure TimedInv (cfg : CoreConfig) (P : TileProgram τ ι) (r : TimedCore τ ι) : Prop where
  core : CoreInv P r.system.core
  plan : SamePlan { heap := P.heap } r.system.core
  order : FinishFits cfg r → ∀ p ∈ units cfg, InOrder (finishOf r.system.core) (r.entered p)
    (r.left p) (r.system.core.pipeline p)

omit [DecidableEq τ] [DecidableEq ι] in
/-- After the first half of a cycle the pipelines are in order, and nothing in them is due. -/
theorem Drains.inOrder {entered : List (QueueEntry ι)} {left : List (ι × ℕ)}
    (h : Drains (units cfg) c d) (hp : p ∈ units cfg)
    (horder : InOrder (finishOf c) entered left (c.pipeline p)) :
    InOrder (finishOf d) entered
        (left ++ ((c.pipeline p).take ((c.pipeline p).length - (d.pipeline p).length)).map
          (·, c.coreCycle)) (d.pipeline p) ∧
      ∀ i ∈ d.pipeline p, d.coreCycle < finishOf d i := by
  obtain ⟨front, hfront, hdue⟩ := h.front p hp
  have htimes (i : ι) : finishOf d i = finishOf c i := (h.times i).finishCycle
  have htake : (c.pipeline p).take ((c.pipeline p).length - (d.pipeline p).length) = front := by
    rw [hfront, List.length_append, Nat.add_sub_cancel, List.take_left]
  have hdrained := (horder.drain hfront hdue).congr fun i _ => htimes i
  rw [htake]
  refine ⟨hdrained, hdrained.lt_due fun i hi => ?_⟩
  rw [h.clock, htimes]
  exact h.head p hp i hi

omit [DecidableEq τ] in
/-- After the second half of a cycle the pipelines are in order. -/
theorem Issues.inOrder {P : TileProgram τ ι} {entered : List (QueueEntry ι)}
    {left : List (ι × ℕ)} (hP : CompTimes P) (hI : CoreInv P c')
    (hplan : SamePlan { heap := P.heap } c')
    (h : Issues { c with coreCycle := c.coreCycle + 1 } c')
    (horder : InOrder (finishOf c) entered left (c.pipeline p))
    (hnow : ∀ i ∈ c.pipeline p, c.coreCycle < finishOf c i)
    (hfits : ∀ e ∈ ((c'.pipeline p).drop (c.pipeline p).length).map (TimedCore.entry c c' p),
      e.due < 2 ^ 64) :
    InOrder (finishOf c') (entered ++
        ((c'.pipeline p).drop (c.pipeline p).length).map (TimedCore.entry c c' p)) left
      (c'.pipeline p) := by
  have hsame (hpipe : c'.pipeline p = c.pipeline p)
      (hdue : ∀ i ∈ c.pipeline p, finishOf c' i = finishOf c i) :
      InOrder (finishOf c') (entered ++
          ((c'.pipeline p).drop (c.pipeline p).length).map (TimedCore.entry c c' p)) left
        (c'.pipeline p) := by
    rw [hpipe, List.drop_length, List.map_nil, List.append_nil]
    exact horder.congr hdue
  rcases h with hkept | ⟨d, q, i, hkept, -, henters⟩
  · exact hsame (hkept.pipeline p) (hkept.due p)
  · have hpipe : d.pipeline p = c.pipeline p := hkept.pipeline p
    have hclock : d.coreCycle = c.coreCycle + 1 := hkept.clock
    have hdue : ∀ j ∈ c.pipeline p, finishOf c' j = finishOf c j := fun j hj =>
      (henters.due p j (by rwa [hpipe])).trans (hkept.due p j hj)
    by_cases hpq : p = q
    · subst hpq
      have hpushed : c'.pipeline p = c.pipeline p ++ [i] := by
        rw [henters.pipeline, if_pos rfl, hpipe]
      have hentry : ((c'.pipeline p).drop (c.pipeline p).length).map (TimedCore.entry c c' p) =
          [TimedCore.entry c c' p i] := by
        rw [hpushed, List.drop_left]
        rfl
      rw [hentry] at hfits ⊢
      have hfit := hfits _ (List.mem_singleton_self _)
      -- the times of the instruction are those of the program
      have hop : (P.heap.inst i).opcode = .comp :=
        hI.placement.fits (.pipe p) i (by
          show i ∈ c'.pipeline p
          rw [hpushed]
          exact List.mem_append_right _ (List.mem_singleton_self i))
      obtain ⟨hle, hlt⟩ := hP i hop
      have hwork : (c'.heap.inst i).computeCycle = (P.heap.inst i).computeCycle :=
        (hplan i).2.resolve_right (henters.computeCycle ▸ henters.work)
      have hoverlap : (c'.heap.inst i).overlappingCycle = (P.heap.inst i).overlappingCycle :=
        (hplan i).1
      have hbehind : (TimedCore.entry c c' p i).behind =
          ((d.pipeline p).getLast?.map d.heap.inst).map Instruction.finishCycle := by
        rw [hpipe, Option.map_map]
        refine Option.map_congr fun j hj => (hkept.due p j (List.mem_of_getLast? hj)).symm
      have hcycle : (TimedCore.entry c c' p i).cycle = d.coreCycle := henters.clock
      have hnow' : ∀ j ∈ c.pipeline p, (TimedCore.entry c c' p i).cycle ≤ finishOf c j := by
        intro j hj
        rw [hcycle, hclock]
        exact hnow j hj
      rw [hpushed]
      refine InOrder.push (horder.congr hdue) (TimedCore.entry c c' p i) ?_ (fun j hj => ?_) ?_ ?_
      · exact Option.map_congr fun j hj => (hdue j (List.mem_of_getLast? hj)).symm
      · rw [hdue j hj]
        exact hnow' j hj
      · show (c'.heap.inst i).overlappingCycle ≤ (c'.heap.inst i).computeCycle
        rw [hwork, hoverlap]
        exact hle
      · show finishOf c' i = _
        rw [henters.finish, ← hcycle]
        refine computeTimes_due _ _ _ henters.computeCycle henters.overlappingCycle hbehind ?_
          ?_ ?_ hfit
        · intro n hn
          obtain ⟨j, hj, rfl⟩ := Option.map_eq_some_iff.mp hn
          exact hnow' j (List.mem_of_getLast? hj)
        · show (c'.heap.inst i).overlappingCycle ≤ (c'.heap.inst i).computeCycle
          rw [hwork, hoverlap]
          exact hle
        · show (c'.heap.inst i).computeCycle < 2 ^ 31
          rw [hwork]
          exact hlt
    · refine hsame ?_ hdue
      rw [henters.pipeline, if_neg hpq, hpipe]

/-- What is recorded beside a core has no part in what it does. -/
theorem TimedCore.step_system (cfg : CoreConfig) (r : TimedCore τ ι) (a : CoreAction τ) :
    (fun r' => r'.system) <$> r.step cfg a = r.system.step cfg a := by
  cases a with
  | cycle env =>
    dsimp only [TimedCore.step, CoreSystem.step]
    rw [Core.cycle_eq]
    cases hmid : r.system.core.unitCycle cfg env with
    | error e => rfl
    | ok mid =>
      show _ = (mid.issueCycle cfg env >>= fun core => pure { r.system with core })
      cases hcore : mid.issueCycle cfg env with
      | error e => simp only [Bind.bind, Except.bind, hcore, Functor.map, Except.map]
      | ok core => simp only [Bind.bind, Except.bind, hcore, Functor.map, Except.map]; rfl
  | _ =>
    dsimp only [TimedCore.step]
    cases h : r.system.step cfg _ <;> rfl

/-- A step keeps the invariant. -/
theorem TimedInv.step {P : TileProgram τ ι} {r r' : TimedCore τ ι} {a : CoreAction τ}
    (hP : CompTimes P) (h : TimedInv cfg P r) (ha : TimedCore.Legal r a)
    (hstep : r.step cfg a = .ok r') : TimedInv cfg P r' := by
  obtain ⟨hI, hplan, horder⟩ := h
  by_cases hcycle : ∀ env, a ≠ .cycle env
  · -- between two cycles nothing happens to the pipelines
    have hsystem : r.system.step cfg a = .ok r'.system := by
      rw [← TimedCore.step_system, hstep]
      rfl
    have hrecord : r'.entered = r.entered ∧ r'.left = r.left := by
      cases a with
      | cycle env => exact absurd rfl (hcycle env)
      | _ =>
        obtain ⟨s, -, h⟩ := bind_eq_ok.mp hstep
        cases h
        exact ⟨rfl, rfl⟩
    have hunits := step_units hcycle hsystem
    have hout : Outcome (CoreStep cfg) StopsWith r.system.core CoreSystem.core
        (r.system.step cfg a) := step_outcome hI ha
    rw [hsystem] at hout
    refine ⟨Outcome.invariant (fun _ _ hI hs => CoreStep.inv hs hI) hout hI,
      hplan.trans (.of_times hunits.times), fun hfits p hp => ?_⟩
    unfold FinishFits at hfits
    rw [hrecord.1] at hfits
    rw [hrecord.1, hrecord.2, hunits.pipeline]
    exact (horder hfits p hp).congr fun i _ => (hunits.times i).finishCycle
  · obtain ⟨env, rfl⟩ := not_forall_not.mp hcycle
    obtain ⟨mid, hmid, hrest⟩ := bind_eq_ok.mp hstep
    obtain ⟨core, hcore, hrest⟩ := bind_eq_ok.mp hrest
    cases hrest
    have hdrains := unitCycle_drains hmid
    have hout : Outcome (UnitStep cfg) StopsWith r.system.core id
        (r.system.core.unitCycle cfg env) := unitCycle_outcome hI
    rw [hmid] at hout
    have hI' : CoreInv P mid := Outcome.invariant (unit_keeps cfg P) hout hI
    have hout' : Outcome (CycleStep cfg) IssueStops mid id (mid.issueCycle cfg env) :=
      issueCycle_outcome hI'
    rw [hcore] at hout'
    have hI'' : CoreInv P core := Outcome.invariant (cycle_keeps cfg P) hout' hI'
    obtain ⟨hplan', hissues⟩ := issueCycle_issues hI' hcore
    have hplans : SamePlan { heap := P.heap } core :=
      (hplan.trans (.of_times hdrains.times)).trans hplan'
    refine ⟨hI'', hplans, fun hfits p hp => ?_⟩
    have hbefore : FinishFits cfg r := fun q hq e he => hfits q hq e (List.mem_append_left _ he)
    obtain ⟨hdrained, hnow⟩ := hdrains.inOrder hp (horder hbefore p hp)
    exact hissues.inOrder hP hI'' hplans hdrained hnow fun e he =>
      hfits p hp e (List.mem_append_right _ he)

/-- The times of the compute instructions in a pipeline are well formed. -/
structure WellTimed (cfg : CoreConfig) (r : TimedCore τ ι) (p : Core.Pipeline) : Prop where
  /-- The finish cycles do not decrease from the front to the back. -/
  sorted : ((r.system.core.pipeline p).map (finishOf r.system.core)).Pairwise (· ≤ ·)
  /-- The last instruction was not overdue when another one entered. -/
  behind : ∀ e ∈ r.entered p, ∀ n, e.behind = some n → e.cycle ≤ n
  /-- When the issue switch starts, no instruction is overdue. -/
  notOverdue : ∀ env mid, r.system.core.unitCycle cfg env = .ok mid →
    ∀ i ∈ mid.pipeline p, mid.coreCycle + 1 ≤ finishOf mid i
  /-- What has left entered first, in this order, and its cycles were over but for the overlap that
  it was granted. -/
  leaves : ∃ gone waiting, r.entered p = gone ++ waiting ∧
    waiting.map QueueEntry.item = r.system.core.pipeline p ∧
    List.Forall₂ (fun e l => l.1 = e.item ∧ e.cycle + e.work ≤ l.2 + e.granted) gone (r.left p)

/-- **The times of compute instructions are well formed** in every run in which the finish cycles
fit into 64 bits. -/
theorem wellTimed_of_reach (cfg : CoreConfig) (P : TileProgram τ ι) (hP : CompTimes P)
    (r : TimedCore τ ι) (hreach : Reach (TimedCore.step cfg) TimedCore.Legal (.init P) r)
    (hfits : FinishFits cfg r) (p : Core.Pipeline) (hp : p ∈ units cfg) : WellTimed cfg r p := by
  have hinv : TimedInv cfg P r := by
    refine hreach.invariant ⟨.init P, .of_heap rfl, fun _ p _ => ?_⟩
      fun r a r' _ h ha hstep => h.step hP ha hstep
    rw [show (TimedCore.init P).system.core.pipeline p = [] from by cases p <;> rfl]
    exact .nil _
  have horder := hinv.order hfits p hp
  refine ⟨horder.sorted, horder.behind, fun env mid hmid => ?_, horder.left_in_order⟩
  exact ((unitCycle_drains hmid).inOrder hp horder).2

/-! ## Two multiplications -/

/-- The instructions of a tile with two matrix multiplications, of which the second overlaps with
the first. -/
def twoMatmulsHeap : CoreHeap (Fin 1) (Fin 2) where
  tile := fun _ => { status := .initialized, nrInsts := 2, instructions := List.finRange 2 }
  inst := fun i =>
    if i = Fin.last 1 then
      { id := i, opcode := .comp, owner := Fin.last 0, computeType := MATMUL, computeCycle := 4,
        overlappingCycle := 2 }
    else
      { id := i, opcode := .comp, owner := Fin.last 0, computeType := MATMUL, computeCycle := 4 }

theorem twoMatmulsHeap_readyCounter : ∀ t, ∀ j ∈ (twoMatmulsHeap.tile t).instructions,
    (twoMatmulsHeap.tile t).instructions.countP (fun i => j ∈ (twoMatmulsHeap.inst i).childInst) ≤
      (twoMatmulsHeap.inst j).readyCounter := by
  decide

/-- The tile of these two instructions. -/
def twoMatmuls : TileProgram (Fin 1) (Fin 2) where
  heap := twoMatmulsHeap
  insts_nodup := by decide
  owner := by decide
  nrInsts := by decide
  nrFinishedInsts := by decide
  readyQueue := by decide
  finished := by decide
  nrWaitingRequest := by decide
  child_nodup := by decide
  child_mem := by decide
  readyCounter := twoMatmulsHeap_readyCounter

theorem twoMatmuls_compTimes : CompTimes twoMatmuls := by
  unfold CompTimes
  decide

/-- The first multiplication leaves in cycle 5, and the second one is due in cycle 7. -/
theorem wellTimed_of_reach_twoMatmuls : ∃ r : TimedCore (Fin 1) (Fin 2),
    (.issue 0 :: List.replicate 6 (.cycle {})).foldlM (TimedCore.step {})
      (.init twoMatmuls) = .ok r ∧ r.left (.sa 0) = [(0, 5)] ∧
    r.system.core.pipeline (.sa 0) = [1] ∧ (r.entered (.sa 0)).map QueueEntry.due = [5, 7] ∧
    WellTimed {} r (.sa 0) := by
  obtain ⟨r, hrun, hleft, hpipe, hvu, hsa⟩ : ∃ r : TimedCore (Fin 1) (Fin 2),
      (.issue 0 :: List.replicate 6 (.cycle {})).foldlM (TimedCore.step {})
        (.init twoMatmuls) = .ok r ∧ r.left (.sa 0) = [(0, 5)] ∧
      r.system.core.pipeline (.sa 0) = [1] ∧ r.entered .vu = [] ∧
      (r.entered (.sa 0)).map QueueEntry.due = [5, 7] :=
    ⟨_, rfl, rfl, rfl, rfl, rfl⟩
  have hfits : FinishFits {} r := by
    intro p hp e he
    rcases List.mem_cons.mp hp with rfl | hp
    · rw [hvu] at he
      cases he
    · cases List.mem_singleton.mp hp
      have hmem := List.mem_map_of_mem (f := QueueEntry.due) he
      rw [hsa] at hmem
      have hle : e.due ≤ 7 := by
        rcases List.mem_cons.mp hmem with h | h
        · omega
        · rw [List.mem_singleton.mp h]
      exact Nat.lt_of_le_of_lt hle (by decide)
  have hreach : Reach (TimedCore.step {}) TimedCore.Legal (.init twoMatmuls) r := by
    rw [List.foldlM_cons] at hrun
    obtain ⟨s, hissue, hcycles⟩ := bind_eq_ok.mp hrun
    refine Reach.of_foldlM (List.replicate 6 (.cycle {}))
      (.step (.issue 0) .init List.not_mem_nil hissue) hcycles fun s a ha => ?_
    rw [List.eq_of_mem_replicate ha]
    trivial
  exact ⟨r, hrun, hleft, hpipe, hsa, wellTimed_of_reach {} twoMatmuls twoMatmuls_compTimes r
    hreach hfits (.sa 0) (List.mem_cons_of_mem _ (List.mem_singleton_self _))⟩

/-! ## A clock that is about to wrap around -/

/-- The core with these multiplications before they are given to it. -/
def idleCore (n : ℕ) (stats : CoreStats) : Core (Fin 1) (Fin 2) :=
  { heap := twoMatmuls.heap, coreCycle := n, stats }

/-- The counters after a cycle in which nothing happens. -/
def idleStats (stats : CoreStats) : CoreStats :=
  (((idleCore 0 stats).cycle {} {}).map Core.stats).toOption.getD stats

theorem idleCore_cycle (n : ℕ) (stats : CoreStats) : ∃ mid,
    (idleCore n stats).unitCycle {} {} = .ok (idleCore n mid) ∧
      (idleCore n mid).issueCycle {} {} = .ok (idleCore (n + 1) (idleStats stats)) :=
  ⟨_, rfl, rfl⟩

/-- Nothing may happen for any number of cycles. -/
theorem idleCore_reach (n : ℕ) : Reach (TimedCore.step {}) TimedCore.Legal (.init twoMatmuls)
    { system := { core := idleCore n (idleStats^[n] {}) } } := by
  induction n with
  | zero => exact .init
  | succ n ih =>
    obtain ⟨mid, hmid, hlast⟩ := idleCore_cycle n (idleStats^[n] {})
    have hpipe (p : Core.Pipeline) (m : ℕ) (stats : CoreStats) :
        (idleCore m stats).pipeline p = [] := by cases p <;> rfl
    refine ih.step (.cycle {}) trivial ?_
    refine bind_eq_ok.mpr ⟨_, hmid, bind_eq_ok.mpr ⟨_, hlast, ?_⟩⟩
    rw [Function.iterate_succ_apply']
    simp only [hpipe]
    rfl

/-- A multiplication of four cycles is issued two cycles before the clock wraps around.  Its finish
cycle is 2, and it leaves at once. -/
theorem not_wellTimed : ∃ r : TimedCore (Fin 1) (Fin 2), CompTimes twoMatmuls ∧
    Reach (TimedCore.step {}) TimedCore.Legal (.init twoMatmuls) r ∧
    .sa 0 ∈ units {} ∧ r.system.core.coreCycle = 2 ^ 64 - 1 ∧ ¬WellTimed {} r (.sa 0) := by
  obtain ⟨r, hrun, hclock, hleft, hentered⟩ : ∃ r : TimedCore (Fin 1) (Fin 2),
      ([.issue 0, .cycle {}, .cycle {}] : List (CoreAction (Fin 1))).foldlM (TimedCore.step {})
        { system := { core := idleCore (2 ^ 64 - 3) (idleStats^[2 ^ 64 - 3] {}) } } = .ok r ∧
      r.system.core.coreCycle = 2 ^ 64 - 1 ∧ r.left (.sa 0) = [(0, 2 ^ 64 - 2)] ∧
      (r.entered (.sa 0)).head? = some ⟨0, 2 ^ 64 - 2, 4, 0, none⟩ :=
    ⟨_, rfl, rfl, rfl, rfl⟩
  refine ⟨r, twoMatmuls_compTimes, ?_, List.mem_cons_of_mem _ (List.mem_singleton_self _), hclock,
    fun h => ?_⟩
  · obtain ⟨s, hissue, hcycles⟩ := bind_eq_ok.mp hrun
    have hlegal : TimedCore.Legal
        { system := { core := idleCore (2 ^ 64 - 3) (idleStats^[2 ^ 64 - 3] {}) } }
        (.issue (0 : Fin 1)) := List.not_mem_nil
    refine Reach.of_foldlM [.cycle {}, .cycle {}] ((idleCore_reach _).step _ hlegal hissue)
      hcycles fun s a ha => ?_
    rcases List.mem_cons.mp ha with rfl | ha
    · trivial
    · rw [List.mem_singleton.mp ha]
      trivial
  · obtain ⟨gone, waiting, hsplit, -, hleaves⟩ := h.leaves
    rw [hleft] at hleaves
    cases hleaves with
    | @cons e l gone left he hgone =>
      rw [hsplit] at hentered
      cases hentered
      exact absurd (Nat.le_of_add_le_add_left he.2) (by decide)

end PyTorchSim.Analysis
