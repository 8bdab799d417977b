import PyTorchSim.Analysis.DmaLedger

/-!
# Loads and stores in transit

A load that needs data and a store go through the queues of the DMA engine: the queue of loads
or of stores, the current slot, the list of waiting instructions, the queue of finished ones.
`Carried` says that none gets lost: it is in one of these until it is retired.  It is in one
only, and there once, because the places of a core are exclusive.
-/

set_option autoImplicit false

namespace PyTorchSim.Analysis

open PyTorchSim.Model PyTorchSim.Library

variable {τ ι : Type} [DecidableEq τ] [DecidableEq ι] {P : TileProgram τ ι} {cfg : CoreConfig}
  {c c' : Core τ ι} {i : ι} {t : τ}

/-- The instruction was issued and needs the DMA engine: it is a store, or a load that took its
tag and is not sparse.  The other loads find the tag of a load that was issued before. -/
def NeedsData (P : TileProgram τ ι) (l : List (CoreEvent τ ι)) (i : ι) : Prop :=
  ((kindOf P i).opcode = .movout ∧ CoreEvent.instIssued i ∈ l) ∨
    ((kindOf P i).opcode = .movin ∧ (kindOf P i).isSparseInst = false ∧
      ∃ replaced, CoreEvent.tagRegistered i replaced ∈ l)

/-- The instruction is finished and waits for no reply; an asynchronous load has marked its
tag. -/
structure Retired (P : TileProgram τ ι) (c : Core τ ι) (i : ι) : Prop where
  finished : (c.heap.inst i).finished = true
  answered : (c.heap.inst i).nrWaitingRequest = 0
  marked : (kindOf P i).opcode = .movin → (kindOf P i).isAsyncDma = true →
    CoreEvent.dataReturned i ∈ c.events

/-- A load or store that needs the engine is in transit until it is retired. -/
structure Carried (P : TileProgram τ ι) (c : Core τ ι) : Prop where
  placed : ∀ i, NeedsData P c.events i → i ∈ c.transit ∨ Retired P c i

omit [DecidableEq τ] in
theorem needsData_append {l es : List (CoreEvent τ ι)} (h : NeedsData P (l ++ es) i) :
    NeedsData P l i ∨ NeedsData P es i := by
  rcases h with ⟨hop, hmem⟩ | ⟨hop, hs, replaced, hmem⟩
  · rcases List.mem_append.mp hmem with hmem | hmem
    · exact .inl (.inl ⟨hop, hmem⟩)
    · exact .inr (.inl ⟨hop, hmem⟩)
  · rcases List.mem_append.mp hmem with hmem | hmem
    · exact .inl (.inr ⟨hop, hs, replaced, hmem⟩)
    · exact .inr (.inr ⟨hop, hs, replaced, hmem⟩)

omit [DecidableEq τ] in
/-- An instruction is at one place of the engine at most. -/
theorem CoreInv.transit_nodup (hI : CoreInv P c) : c.transit.Nodup := by
  have hex := hI.placement.exclusive
  have hne : ∀ (p q : Place τ), p ≠ q → ∀ i, i ∈ places c.heap (elsewhere P c) p →
      ∀ j, j ∈ places c.heap (elsewhere P c) q → i ≠ j := by
    intro p q hpq i hi j hj hij
    exact hpq (hex.unique p q i hi (hij ▸ hj))
  unfold Core.transit
  refine List.nodup_append.mpr ⟨List.nodup_append.mpr ⟨List.nodup_append.mpr
    ⟨List.nodup_append.mpr ⟨hex.nodup .ld, hex.nodup .st, ?_⟩, hex.nodup .dma, ?_⟩,
    hex.nodup .waiting, ?_⟩, hex.nodup .arrived, ?_⟩
  · exact hne .ld .st nofun
  · intro i hi j hj
    rcases List.mem_append.mp hi with hi | hi
    · exact hne .ld .dma nofun i hi j hj
    · exact hne .st .dma nofun i hi j hj
  · intro i hi j hj
    rcases List.mem_append.mp hi with hi | hi
    · rcases List.mem_append.mp hi with hi | hi
      · exact hne .ld .waiting nofun i hi j hj
      · exact hne .st .waiting nofun i hi j hj
    · exact hne .dma .waiting nofun i hi j hj
  · intro i hi j hj
    rcases List.mem_append.mp hi with hi | hi
    · rcases List.mem_append.mp hi with hi | hi
      · rcases List.mem_append.mp hi with hi | hi
        · exact hne .ld .arrived nofun i hi j hj
        · exact hne .st .arrived nofun i hi j hj
      · exact hne .dma .arrived nofun i hi j hj
    · exact hne .waiting .arrived nofun i hi j hj

namespace DmaInv

variable {out : ι → ℕ} {late : ι → Prop}

omit [DecidableEq τ] in
/-- An instruction that waits for replies is in transit. -/
theorem in_transit (hD : DmaInv c out late) (hi : 0 < (c.heap.inst i).nrWaitingRequest) :
    i ∈ c.transit := by
  unfold Core.transit
  rcases hD.owner i hi with h | ⟨h, -⟩
  · simp [h]
  · simp [h]

omit [DecidableEq τ] in
/-- The replies of an instruction whose data has arrived are all there. -/
theorem arrived (hD : DmaInv c out late) (hI : CoreInv P c) (hi : i ∈ c.dmaFinishedQueue) :
    (c.heap.inst i).nrWaitingRequest = 0 := by
  by_contra hne
  have harrived : i ∈ places c.heap (elsewhere P c) .arrived := hi
  rcases hD.owner i (Nat.pos_of_ne_zero hne) with h | ⟨h, -⟩
  · have hwait : i ∈ places c.heap (elsewhere P c) .waiting := h
    cases hI.placement.exclusive.unique _ _ i harrived hwait
  · have hcur : i ∈ places c.heap (elsewhere P c) .dma := by simp [places, elsewhere, h]
    cases hI.placement.exclusive.unique _ _ i harrived hcur

end DmaInv

/-! ## What a step keeps -/

/-- The record grows by `es`, no flag is taken back, and an instruction that waits for no reply
starts to wait only in transit. -/
structure Advance (c c' : Core τ ι) (es : List (CoreEvent τ ι)) : Prop where
  events : c'.events = c.events ++ es
  flag : ∀ i, (c.heap.inst i).finished = true → (c'.heap.inst i).finished = true
  idle : ∀ i, (c.heap.inst i).nrWaitingRequest = 0 →
    (c'.heap.inst i).nrWaitingRequest = 0 ∨ i ∈ c'.transit

omit [DecidableEq τ] in
theorem Carried.advance {l : List (CoreEvent τ ι)} (h : Carried P c) (hadv : Advance c c' l)
    (hnew : ∀ i, NeedsData P l i → i ∈ c'.transit)
    (hmove : ∀ i ∈ c.transit, i ∈ c'.transit ∨ Retired P c' i) : Carried P c' := by
  refine ⟨fun i hi => ?_⟩
  rw [hadv.events] at hi
  rcases needsData_append hi with hold | hl
  · rcases h.placed i hold with htransit | hret
    · exact hmove i htransit
    · rcases hadv.idle i hret.answered with hzero | htransit
      · refine .inr ⟨hadv.flag i hret.finished, hzero, fun hop ha => ?_⟩
        rw [hadv.events]
        exact List.mem_append_left l (hret.marked hop ha)
      · exact .inl htransit
  · exact .inl (hnew i hl)

omit [DecidableEq τ] in
/-- Nothing is issued and nothing leaves the engine. -/
theorem Carried.quiet {l : List (CoreEvent τ ι)} (h : Carried P c) (hadv : Advance c c' l)
    (hl : ∀ i, ¬ NeedsData P l i) (hmove : ∀ i ∈ c.transit, i ∈ c'.transit) : Carried P c' :=
  h.advance hadv (fun i hi => absurd hi (hl i)) fun i hi => .inl (hmove i hi)

/-- The event is not part of an issue. -/
def quietEvent : CoreEvent τ ι → Bool
  | .instIssued _ => false
  | .tagRegistered _ _ => false
  | _ => true

omit [DecidableEq τ] in
theorem not_needsData {es : List (CoreEvent τ ι)} (hes : ∀ e ∈ es, quietEvent e = true) :
    ∀ i, ¬ NeedsData P es i := by
  rintro i (⟨-, h⟩ | ⟨-, -, _, h⟩)
  · cases hes _ h
  · cases hes _ h

theorem finish_flag (h : CoreHeap τ ι) (i j : ι) :
    ((h.finish i).inst j).finished = if j = i then true else (h.inst j).finished := by
  have hdec : ∀ (h : CoreHeap τ ι) (i j : ι),
      ((h.decReadyCounter i).inst j).finished = (h.inst j).finished := by
    intro h i j
    have hset : ((h.setInst i { h.inst i with
        readyCounter := (h.inst i).decremented }).inst j).finished = (h.inst j).finished := by
      by_cases hj : j = i
      · subst hj
        rw [CoreHeap.setInst_inst_self]
      · rw [CoreHeap.setInst_inst_of_ne _ _ hj]
    unfold CoreHeap.decReadyCounter
    dsimp only
    split
    · exact hset
    · exact hset
  have hfold : ∀ (l : List ι) (h : CoreHeap τ ι) (j : ι),
      ((l.foldl CoreHeap.decReadyCounter h).inst j).finished = (h.inst j).finished := by
    intro l
    induction l with
    | nil => exact fun _ _ => rfl
    | cons k l ih => exact fun h j => (ih _ j).trans (hdec h k j)
  show ((((h.inst i).childInst.foldl CoreHeap.decReadyCounter h).setInst i _).inst j).finished = _
  by_cases hj : j = i
  · subst hj
    rw [CoreHeap.setInst_inst_self, if_pos rfl]
  · rw [CoreHeap.setInst_inst_of_ne _ _ hj, if_neg hj]
    exact hfold _ h j

namespace Advance

variable {es : List (CoreEvent τ ι)}

omit [DecidableEq τ] [DecidableEq ι] in
theorem of_heap (hevents : c'.events = c.events ++ es) (hheap : c'.heap = c.heap) :
    Advance c c' es := by
  refine ⟨hevents, fun i h => ?_, fun i h => .inl ?_⟩
  · rw [hheap]
    exact h
  · rw [hheap]
    exact h

omit [DecidableEq τ] [DecidableEq ι] in
theorem of_load (hevents : c'.events = c.events ++ es)
    (hflag : ∀ i, (c.heap.inst i).finished = true → (c'.heap.inst i).finished = true)
    (hload : SameLoad c.heap c'.heap) : Advance c c' es :=
  ⟨hevents, hflag, fun i h => .inl ((hload i).2.2.trans h)⟩

theorem of_finish (hevents : c'.events = c.events ++ es) (i : ι)
    (hheap : c'.heap = c.heap.finish i) : Advance c c' es := by
  refine of_load hevents (fun j hj => ?_) ?_
  · rw [hheap, finish_flag]
    split
    · rfl
    · exact hj
  · rw [hheap]
    exact .finish c.heap i

end Advance

omit [DecidableEq τ] in
/-- Nothing is recorded and nothing leaves the engine. -/
theorem Carried.still (h : Carried P c) (hevents : c'.events = c.events)
    (hheap : c'.heap = c.heap) (hmove : ∀ i ∈ c.transit, i ∈ c'.transit) : Carried P c' := by
  have hadv : Advance c c' [] := .of_heap (by rw [hevents, List.append_nil]) hheap
  exact h.quiet hadv (not_needsData (by simp)) hmove

theorem finishAll_flag (ws : List ι) (c : Core τ ι) (h : (c.heap.inst i).finished = true) :
    ((ws.foldl Core.finish c).heap.inst i).finished = true := by
  induction ws generalizing c with
  | nil => exact h
  | cons w ws ih =>
      refine ih (c.finish w) ?_
      show ((c.heap.finish w).inst i).finished = true
      rw [finish_flag]
      split
      · rfl
      · exact h

theorem finishAll_events (ws : List ι) (c : Core τ ι) :
    (ws.foldl Core.finish c).events = c.events ++ ws.map .instFinished := by
  induction ws generalizing c with
  | nil => simp
  | cons w ws ih =>
      rw [List.foldl_cons, ih]
      simp [Core.finish, Core.log]

theorem finishAll_transit (ws : List ι) (c : Core τ ι) :
    (ws.foldl Core.finish c).transit = c.transit := by
  induction ws generalizing c with
  | nil => rfl
  | cons w ws ih => exact ih (c.finish w)

/-! ## The steps of a core -/

section Steps

variable {out : ι → ℕ} {late : ι → Prop}

omit [DecidableEq τ] [DecidableEq ι] in
theorem transit_popPipeline (c : Core τ ι) (p : Core.Pipeline) :
    (c.popPipeline p).transit = c.transit := by
  cases p <;> rfl

omit [DecidableEq τ] [DecidableEq ι] in
theorem transit_pushPipeline (c : Core τ ι) (p : Core.Pipeline) (i : ι) :
    (c.pushPipeline p i).transit = c.transit := by
  cases p <;> rfl

omit [DecidableEq τ] [DecidableEq ι] in
theorem heap_popPipeline (c : Core τ ι) (p : Core.Pipeline) :
    (c.popPipeline p).heap = c.heap := by
  cases p <;> rfl

omit [DecidableEq τ] [DecidableEq ι] in
theorem events_popPipeline (c : Core τ ι) (p : Core.Pipeline) :
    (c.popPipeline p).events = c.events := by
  cases p <;> rfl

omit [DecidableEq τ] in
/-- The current instruction is passed on inside the engine. -/
theorem transit_pass (hcur : c.dma.currentInst = some i)
    (hmem : ∀ j, j ∈ c.dmaWaitingQueue ∨ j ∈ c.dmaFinishedQueue ∨ j = i →
      j ∈ c'.dmaWaitingQueue ∨ j ∈ c'.dmaFinishedQueue)
    (hld : c'.ldInstQueue = c.ldInstQueue) (hst : c'.stInstQueue = c.stInstQueue) :
    ∀ j ∈ c.transit, j ∈ c'.transit := by
  intro j hj
  simp only [Core.transit, List.mem_append, hcur, Option.mem_toList, Option.some.injEq, hld,
    hst] at hj ⊢
  have hpassed := hmem j
  tauto

theorem UnitStep.carried (h : UnitStep cfg c c') (hI : CoreInv P c) (hD : DmaInv c out late)
    (hC : Carried P c) : Carried P c' := by
  have hnil : ∀ i, ¬ NeedsData P [] i := not_needsData (by simp)
  have hfinished : ∀ i j, ¬ NeedsData P [.instFinished i] j := fun i =>
    not_needsData (by simp [quietEvent])
  cases h with
  | stats f => exact hC.still rfl rfl fun _ => id
  | clock n => exact hC.still rfl rfl fun _ => id
  | arrayTurn n => exact hC.still rfl rfl fun _ => id
  | compute p i rest hp =>
      have hadv : Advance c ((c.finish i).popPipeline p) [.instFinished i] := by
        refine .of_finish ?_ i ?_
        · rw [events_popPipeline]
          rfl
        · rw [heap_popPipeline]
          rfl
      refine hC.quiet hadv (hfinished i) fun j hj => ?_
      rw [transit_popPipeline]
      exact hj
  | ssdNone hssd hcur =>
      have hbusy := hI.engine.busy (hI.engine.ssd hssd).1
      rw [hcur] at hbusy
      cases hbusy
  | ssdWrite i hssd hcur hw =>
      obtain ⟨hfin, hgen⟩ := hI.engine.ssd hssd
      refine hC.advance (l := [.instFinished i]) (.of_finish rfl i rfl)
        (fun j hj => absurd hj (hfinished i j)) fun j hj => ?_
      by_cases hji : j = i
      · subst hji
        refine .inr ⟨?_, ?_, fun hop => ?_⟩
        · show ((c.heap.finish j).inst j).finished = true
          rw [finish_flag, if_pos rfl]
        · exact (SameLoad.finish c.heap j j).2.2.trans (hD.fresh hI hcur hgen hfin)
        · rw [(hI.isWrite j).mp hw] at hop
          cases hop
      · left
        simp only [Core.transit, List.mem_append, hcur, Option.mem_toList,
          Option.some.injEq] at hj
        simp only [Core.transit, Core.finish, Core.log, DMA.endSsd, List.mem_append]
        have hij : ¬ i = j := fun h => hji h.symm
        tauto
  | ssdAsync i hssd hcur hr ha =>
      refine hC.quiet (l := [.instFinished i]) (.of_finish rfl i rfl)
        (hfinished i) (transit_pass hcur (fun j hj => ?_) rfl rfl)
      show j ∈ c.dmaWaitingQueue ∨ j ∈ c.dmaFinishedQueue ++ [i]
      rw [List.mem_append, List.mem_singleton]
      exact hj
  | ssdSync i hssd hcur hr ha =>
      refine hC.still rfl rfl (transit_pass hcur (fun j hj => ?_) rfl rfl)
      show j ∈ c.dmaWaitingQueue ∨ j ∈ c.dmaFinishedQueue ++ [i]
      rw [List.mem_append, List.mem_singleton]
      exact hj
  | drainWrite i rest hq hr =>
      have hmem : i ∈ c.dmaFinishedQueue := by
        rw [hq]
        exact List.mem_cons_self
      have hop : (kindOf P i).opcode ≠ .movin := by
        intro hop
        rw [(hI.isRead i).mpr hop] at hr
        cases hr
      refine hC.advance (l := []) (.of_heap (List.append_nil _).symm rfl)
        (fun j hj => absurd hj (hnil j)) fun j hj => ?_
      by_cases hji : j = i
      · subst hji
        refine .inr ⟨?_, hD.arrived hI hmem, fun h => absurd h hop⟩
        refine (hI.placement.flag .arrived j hmem).trans ?_
        show (!(decide ((kindOf P j).opcode = .movin) && !(kindOf P j).isAsyncDma)) = true
        rw [decide_eq_false hop]
        rfl
      · left
        simp only [Core.transit, List.mem_append, hq, List.mem_cons] at hj ⊢
        tauto
  | drainSync i rest hq hr ha =>
      have hmem : i ∈ c.dmaFinishedQueue := by
        rw [hq]
        exact List.mem_cons_self
      refine hC.advance (l := [.instFinished i]) (.of_finish rfl i rfl)
        (fun j hj => absurd hj (hfinished i j)) fun j hj => ?_
      by_cases hji : j = i
      · subst hji
        refine .inr ⟨?_, ?_, fun _ h => ?_⟩
        · show ((c.heap.finish j).inst j).finished = true
          rw [finish_flag, if_pos rfl]
        · exact (SameLoad.finish c.heap j j).2.2.trans (hD.arrived hI hmem)
        · rw [hI.isAsync] at ha
          rw [ha] at h
          cases h
      · left
        simp only [Core.transit, List.mem_append, hq, List.mem_cons] at hj
        simp only [Core.transit, Core.finish, Core.log, List.mem_append]
        tauto
  | drainAsync i rest ws hq hr ha hws hlen =>
      have hmem : i ∈ c.dmaFinishedQueue := by
        rw [hq]
        exact List.mem_cons_self
      have hop := (hI.isRead i).mp hr
      have hflag : (c.heap.inst i).finished = true := by
        refine (hI.placement.flag .arrived i hmem).trans ?_
        show (!(decide ((kindOf P i).opcode = .movin) && !(kindOf P i).isAsyncDma)) = true
        rw [← hI.isAsync, ha]
        simp
      refine hC.advance (l := .dataReturned i :: ws.map .instFinished)
        (.of_load ?_ (fun j hj => finishAll_flag ws _ hj) (SameEngine.finishAll ws _).load)
        (fun j hj => absurd hj (not_needsData (by simp [quietEvent]) j)) fun j hj => ?_
      · rw [finishAll_events]
        simp [Core.log, Core.setTag]
      · by_cases hji : j = i
        · subst hji
          refine .inr ⟨finishAll_flag ws _ hflag, ?_, fun _ _ => ?_⟩
          · exact ((SameEngine.finishAll ws _).load j).2.2.trans (hD.arrived hI hmem)
          · rw [finishAll_events]
            simp [Core.log]
        · left
          rw [finishAll_transit]
          simp only [Core.transit, List.mem_append, hq, List.mem_cons] at hj
          simp only [Core.transit, Core.setTag, Core.log, DMA.storeTag, List.mem_append]
          tauto
  | retireWrite i hfin hcur hw =>
      refine hC.quiet (l := [.instFinished i]) (.of_finish rfl i rfl)
        (hfinished i) (transit_pass hcur (fun j hj => ?_) rfl rfl)
      show j ∈ c.dmaWaitingQueue.insert i ∨ j ∈ c.dmaFinishedQueue
      rw [List.mem_insert_iff]
      tauto
  | retireAsync i hfin hcur hr ha =>
      refine hC.quiet (l := [.instFinished i]) (.of_finish rfl i rfl)
        (hfinished i) (transit_pass hcur (fun j hj => ?_) rfl rfl)
      show j ∈ c.dmaWaitingQueue.insert i ∨ j ∈ c.dmaFinishedQueue
      rw [List.mem_insert_iff]
      tauto
  | retireSync i hfin hcur hr ha =>
      refine hC.still rfl rfl (transit_pass hcur (fun j hj => ?_) rfl rfl)
      show j ∈ c.dmaWaitingQueue.insert i ∨ j ∈ c.dmaFinishedQueue
      rw [List.mem_insert_iff]
      tauto
  | startLoad i rest hfin hcur hq =>
      refine hC.still rfl rfl fun j hj => ?_
      simp only [Core.transit, List.mem_append, hcur, hq, List.mem_cons, Option.toList,
        List.not_mem_nil] at hj ⊢
      tauto
  | startStore i rest hfin hcur hq =>
      refine hC.still rfl rfl fun j hj => ?_
      simp only [Core.transit, List.mem_append, hcur, hq, List.mem_cons, Option.toList,
        List.not_mem_nil] at hj ⊢
      tauto
  | oracle i n hcur hgen _ => exact hC.still rfl rfl fun _ => id
  | generate i env hcur hgen _ hfin =>
      refine hC.quiet (l := []) ⟨by simp, fun j hj => ?_, fun j hj => ?_⟩ hnil
        fun _ => id
      · show ((c.heap.setInst i _).inst j).finished = true
        by_cases hji : j = i
        · subst hji
          rw [CoreHeap.setInst_inst_self]
          exact hj
        · rw [CoreHeap.setInst_inst_of_ne _ _ hji]
          exact hj
      · by_cases hji : j = i
        · right
          simp [Core.transit, hcur, hji]
        · left
          show ((c.heap.setInst i _).inst j).nrWaitingRequest = 0
          rw [CoreHeap.setInst_inst_of_ne _ _ hji]
          exact hj
  | inject n hgen _ => exact hC.still rfl rfl fun _ => id
  | report t _ _ =>
      exact hC.quiet (l := [.tileFinished t]) ⟨rfl, fun _ h => h, fun _ h => .inl h⟩
        (not_needsData (by simp [quietEvent])) fun _ => id

omit [DecidableEq τ] in
/-- The issue of an instruction is recorded. -/
theorem needsData_issue {es : List (CoreEvent τ ι)} {j : ι}
    (hes : ∀ e ∈ es, quietEvent e = true) (h : NeedsData P (.instIssued i :: es) j) :
    j = i ∧ (kindOf P i).opcode = .movout := by
  rcases h with ⟨hop, h⟩ | ⟨-, -, _, h⟩
  · rcases List.mem_cons.mp h with h | h
    · cases h
      exact ⟨rfl, hop⟩
    · cases hes _ h
  · rcases List.mem_cons.mp h with h | h
    · cases h
    · cases hes _ h

omit [DecidableEq τ] in
/-- The issue of a load that takes its tag is recorded. -/
theorem needsData_load {es : List (CoreEvent τ ι)} {j : ι} {replaced : Option (ℕ × List ι)}
    (hop : (kindOf P i).opcode = .movin) (hes : ∀ e ∈ es, quietEvent e = true)
    (h : NeedsData P (.instIssued i :: .tagRegistered i replaced :: es) j) :
    j = i ∧ (kindOf P i).isSparseInst = false := by
  rcases h with ⟨hopj, h⟩ | ⟨-, hs, _, h⟩
  · rcases List.mem_cons.mp h with h | h
    · cases h
      rw [hop] at hopj
      cases hopj
    · rcases List.mem_cons.mp h with h | h
      · cases h
      · cases hes _ h
  · rcases List.mem_cons.mp h with h | h
    · cases h
    · rcases List.mem_cons.mp h with h | h
      · cases h
        exact ⟨rfl, hs⟩
      · cases hes _ h

omit [DecidableEq τ] in
/-- An instruction that does not need the engine is issued. -/
theorem Carried.issued {l : List (CoreEvent τ ι)} (hC : Carried P c)
    (hevents : c'.events = c.events ++ .instIssued i :: l) (hl : ∀ e ∈ l, quietEvent e = true)
    (hop : (kindOf P i).opcode ≠ .movout)
    (hflag : ∀ j, (c.heap.inst j).finished = true → (c'.heap.inst j).finished = true)
    (hload : SameLoad c.heap c'.heap) (htransit : c'.transit = c.transit) : Carried P c' := by
  refine hC.quiet (l := .instIssued i :: l) (.of_load hevents hflag hload)
    (fun j hj => hop (needsData_issue hl hj).2) fun j hj => ?_
  rw [htransit]
  exact hj

theorem IssueEffect.carried (h : IssueEffect i (c.take t i) c') (hI : CoreInv P (c.take t i))
    (hC : Carried P c) : Carried P c' := by
  have hfinish : ∀ (h : CoreHeap τ ι) (j : ι), (h.inst j).finished = true →
      ((h.finish i).inst j).finished = true := by
    intro h j hj
    rw [finish_flag]
    split
    · rfl
    · exact hj
  have htaken : ∀ j, (c.heap.inst j).finished = true →
      (((c.take t i).heap.finish i).inst j).finished = true := hfinish (c.take t i).heap
  have htimes : ∀ (p : Core.Pipeline) (j : ι), (c.heap.inst j).finished = true →
      (((c.take t i).setTimes p i).heap.inst j).finished = true := by
    intro p j hj
    show (((c.take t i).heap.setInst i _).inst j).finished = true
    by_cases hji : j = i
    · subst hji
      rw [CoreHeap.setInst_inst_self]
      exact hj
    · rw [CoreHeap.setInst_inst_of_ne _ _ hji]
      exact hj
  have hne : ∀ {op : Opcode}, ((c.take t i).heap.inst i).opcode = op → op ≠ .movout →
      (kindOf P i).opcode ≠ .movout := by
    intro op hop hop'
    rw [← hI.opcode, hop]
    exact hop'
  have hquiet : ∀ e ∈ [CoreEvent.instFinished (τ := τ) i], quietEvent e = true := by
    simp [quietEvent]
  have hnil : ∀ e ∈ ([] : List (CoreEvent τ ι)), quietEvent e = true := by simp
  have hfinished : (c.take t i).events ++ [.instFinished i] =
      c.events ++ [.instIssued i, .instFinished i] := by
    have htake : (c.take t i).events = c.events ++ [.instIssued i] := rfl
    rw [htake, List.append_assoc, List.singleton_append]
  have hsame : SameLoad c.heap (c.take t i).heap := (SameEngine.take c t i).load
  obtain ⟨replaced, hregistered⟩ : ∃ replaced, ((c.take t i).registerTag i).events =
      c.events ++ [.instIssued i, .tagRegistered i replaced] := by
    refine ⟨((c.take t i).dma.tag ((c.take t i).heap.inst i).subgraphId
      ((c.take t i).heap.inst i).tagKey).map fun v => (v, (c.take t i).dma.waiters
        ((c.take t i).heap.inst i).subgraphId ((c.take t i).heap.inst i).tagKey), ?_⟩
    exact List.append_assoc c.events [_] [_]
  cases h with
  | sparseLoad hop hs =>
      have hop' := hI.opcode i
      rw [hop] at hop'
      have hs' : (kindOf P i).isSparseInst = true :=
        (congrArg InstKind.isSparseInst (hI.kind i)).symm.trans hs
      refine hC.quiet (l := [.instIssued i, .tagRegistered i replaced, .instFinished i])
        (.of_load ?_ htaken (hsame.trans (.finish _ i))) (fun j hj => ?_) fun _ => id
      · show ((c.take t i).registerTag i).events ++ [.instFinished i] = _
        rw [hregistered, List.append_assoc]
        rfl
      have hdense := (needsData_load hop'.symm hquiet hj).2
      rw [hs'] at hdense
      cases hdense
  | knownLoad v hop hs ha htag hv =>
      exact hC.issued (l := [.instFinished i]) hfinished hquiet (hne hop (by decide)) htaken
        (hsame.trans (.finish _ i)) rfl
  | awaitedLoad hop hs ha htag =>
      exact hC.issued (l := []) rfl hnil (hne hop (by decide)) (fun _ => id) hsame rfl
  | load hop hs hnew =>
      have hop' := hI.opcode i
      rw [hop] at hop'
      refine hC.advance (l := [.instIssued i, .tagRegistered i replaced])
        (.of_load hregistered (fun _ => id) hsame) (fun j hj => ?_) fun j hj => .inl ?_
      · obtain ⟨rfl, -⟩ := needsData_load hop'.symm hnil hj
        simp [Core.transit]
      · simp only [Core.transit, List.mem_append] at hj
        simp only [Core.transit, Core.registerTag, Core.take, Core.log, Core.pop,
          DMA.registerTag, List.mem_append]
        tauto
  | store hop =>
      refine hC.advance (l := [.instIssued i]) (.of_load rfl (fun _ => id) hsame)
        (fun j hj => ?_) fun j hj => .inl ?_
      · obtain ⟨rfl, -⟩ := needsData_issue hnil hj
        simp [Core.transit]
      · simp only [Core.transit, List.mem_append] at hj
        simp only [Core.transit, Core.take, Core.log, Core.pop, List.mem_append]
        tauto
  | comp p hop hcycle =>
      refine hC.issued (l := []) ?_ hnil (hne hop (by decide)) (fun j hj => ?_) ?_ ?_
      · cases p <;> rfl
      · cases p <;> exact htimes _ j hj
      · exact hsame.trans ((SameEngine.setTimes _ p i).trans (.pushPipeline _ p i)).load
      · rw [transit_pushPipeline]
        rfl
  | compZero p hop hcycle =>
      refine hC.issued (l := [.instFinished i]) hfinished hquiet (hne hop (by decide))
        (fun j hj => hfinish _ j (htimes p j hj)) ?_ rfl
      exact hsame.trans ((SameEngine.setTimes _ p i).trans (.finish _ i)).load
  | barSparse hop htag =>
      refine hC.issued (l := [.instFinished i]) hfinished hquiet (hne hop (by decide))
        (fun j hj => hfinish _ j ?_) ?_ rfl
      · exact ((SameData.skipMatmuls _ _).finished j).trans hj
      · exact (hsame.trans (.skipMatmuls _ _)).trans (.finish _ i)
  | barReady v hop htag hv hs =>
      exact hC.issued (l := [.instFinished i]) hfinished hquiet (hne hop (by decide)) htaken
        (hsame.trans (.finish _ i)) rfl
  | barWait hop htag =>
      exact hC.issued (l := []) rfl hnil (hne hop (by decide)) (fun _ => id) hsame rfl

theorem IssueStep.carried (h : IssueStep c c') (hI : CoreInv P c) (hC : Carried P c) :
    Carried P c' := by
  obtain ⟨t, i, -, hq, heffect⟩ := h
  exact heffect.carried (hI.take hq).1 hC

theorem CycleStep.carried (h : CycleStep cfg c c') (hI : CoreInv P c) (hD : DmaInv c out late)
    (hC : Carried P c) : Carried P c' := by
  rcases h with h | h
  · exact h.carried hI hD hC
  · exact h.carried hI hC

theorem Carried.issue (hC : Carried P c) (t : τ) : Carried P (c.issue t) := by
  have hinst : (c.issue t).heap.inst = c.heap.inst :=
    (CoreHeap.foldl_enqueueReady (c.heap.tile t).instructions c.heap t).1
  refine hC.quiet (l := [.tileIssued t]) ⟨rfl, fun j hj => ?_, fun j hj => .inl ?_⟩
    (not_needsData (by simp [quietEvent])) fun _ => id
  · rw [hinst]
    exact hj
  · rw [hinst]
    exact hj

omit [DecidableEq τ] in
theorem Carried.popFinishedTile (hC : Carried P c) : Carried P c.popFinishedTile.2 := by
  unfold Core.popFinishedTile
  split
  · exact hC
  · exact hC.still rfl rfl fun _ => id

omit [DecidableEq τ] in
theorem Carried.response {r : MemFetch ι} (hC : Carried P c) (hD : DmaInv c out late)
    (hout : 0 < out r.customData) : Carried P (c.pushMemoryResponse r) := by
  have hcount := hD.count r.customData
  have htransit : ∀ j ∈ c.transit, j ∈ (c.pushMemoryResponse r).transit := by
    intro j hj
    unfold Core.pushMemoryResponse
    dsimp only
    split
    · simp only [Core.transit, List.mem_append] at hj ⊢
      by_cases hjr : j = r.customData
      · simp [hjr]
      · rw [List.mem_erase_of_ne hjr]
        tauto
    · exact hj
  refine hC.quiet (l := []) ⟨?_, fun j hj => ?_, fun j hj => ?_⟩
    (not_needsData (by simp)) htransit
  · unfold Core.pushMemoryResponse
    dsimp only
    split <;> simp
  · unfold Core.pushMemoryResponse
    dsimp only
    split <;>
    · show ((c.heap.setInst r.customData _).inst j).finished = true
      by_cases hjr : j = r.customData
      · subst hjr
        rw [CoreHeap.setInst_inst_self]
        exact hj
      · rw [CoreHeap.setInst_inst_of_ne _ _ hjr]
        exact hj
  · by_cases hjr : j = r.customData
    · subst hjr
      exact .inr (htransit _ (hD.in_transit (by omega)))
    · left
      unfold Core.pushMemoryResponse
      dsimp only
      split <;>
      · show ((c.heap.setInst r.customData _).inst j).nrWaitingRequest = 0
        rw [CoreHeap.setInst_inst_of_ne _ _ hjr]
        exact hj

end Steps

end PyTorchSim.Analysis
