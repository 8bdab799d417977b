import PyTorchSim.Analysis.CoreSteps

/-!
# The steps of a core keep its invariant

The parts of `CoreInv` are followed separately: the places of the instructions, the tags in
transit, the record of events and the flags of the DMA engine.  A step changes few of them.
-/

set_option autoImplicit false

namespace PyTorchSim.Model.Core

variable {τ ι : Type}

section Record

variable (c : Core τ ι) (t : τ) (i : ι) (o : Option (ℕ × List ι))

@[simp] theorem issuedTiles_log (e : CoreEvent τ ι) : (c.log e).issuedTiles =
    c.issuedTiles ++ (match e with | .tileIssued t => [t] | _ => []) := by
  cases e <;> simp [issuedTiles, log]

@[simp] theorem reportedTiles_log (e : CoreEvent τ ι) : (c.log e).reportedTiles =
    c.reportedTiles ++ (match e with | .tileFinished t => [t] | _ => []) := by
  cases e <;> simp [reportedTiles, log]

@[simp] theorem finishCalls_log (e : CoreEvent τ ι) : (c.log e).finishCalls =
    c.finishCalls ++ (match e with | .instFinished i => [i] | _ => []) := by
  cases e <;> simp [finishCalls, log]

@[simp] theorem heap_log (e : CoreEvent τ ι) : (c.log e).heap = c.heap := rfl
@[simp] theorem dma_log (e : CoreEvent τ ι) : (c.log e).dma = c.dma := rfl
@[simp] theorem tiles_log (e : CoreEvent τ ι) : (c.log e).tiles = c.tiles := rfl

theorem finishCalls_finish [DecidableEq τ] [DecidableEq ι] :
    (c.finish i).finishCalls = c.finishCalls ++ [i] := finishCalls_log _ _

theorem issuedTiles_finish [DecidableEq τ] [DecidableEq ι] :
    (c.finish i).issuedTiles = c.issuedTiles := (issuedTiles_log _ _).trans (List.append_nil _)

theorem reportedTiles_finish [DecidableEq τ] [DecidableEq ι] :
    (c.finish i).reportedTiles = c.reportedTiles :=
  (reportedTiles_log _ _).trans (List.append_nil _)

theorem pipeline_setPipeline (p q : Pipeline) (l : List ι) :
    (c.setPipeline p l).pipeline q = if q = p then l else c.pipeline q := by
  cases p <;> cases q <;> simp [setPipeline, pipeline, Function.update_apply]

end Record

end PyTorchSim.Model.Core

namespace PyTorchSim.Analysis

open PyTorchSim.Model PyTorchSim.Library

variable {τ ι : Type} [DecidableEq τ] [DecidableEq ι] {P : TileProgram τ ι} {c c' : Core τ ι}
  {i : ι} {t : τ} {b : Bool}

/-! ## The record of events -/

omit [DecidableEq τ] in
/-- A step that reports nothing and finishes nothing keeps the record. -/
theorem LedgerInv.congr (hL : LedgerInv P c) (htiles : c'.tiles = c.tiles)
    (hissued : c'.issuedTiles = c.issuedTiles) (hreported : c'.reportedTiles = c.reportedTiles)
    (hcalls : c'.finishCalls = c.finishCalls)
    (hflag : ∀ i, (c'.heap.inst i).finished = (c.heap.inst i).finished) : LedgerInv P c' := by
  refine ⟨?_, ?_, fun t ht i hi => ?_, ?_, fun i => ?_⟩
  · rw [hissued]
    exact hL.issued_nodup
  · rw [htiles, hreported, hissued]
    exact hL.split
  · rw [hreported] at ht
    rw [hflag]
    exact hL.reported_done t ht i hi
  · rw [hcalls]
    exact hL.calls_nodup
  · rw [hcalls, hflag]
    exact hL.calls i

/-- An unfinished instruction is finished. -/
theorem LedgerInv.finish (hL : LedgerInv P c) (hf : Finishable P c.heap i)
    (hflag : (c.heap.inst i).finished = false) : LedgerInv P (c.finish i) := by
  have hnot : i ∉ c.finishCalls := by
    intro hi
    rw [hL.calls i, hflag] at hi
    cases hi
  have hkeep : ∀ j, (c.heap.inst j).finished = true →
      ((c.finish i).heap.inst j).finished = true := by
    intro j hj
    change ((c.heap.finish i).inst j).finished = true
    rw [hf.finished_eq, hj, ite_self]
  refine ⟨?_, ?_, fun t ht j hj => ?_, ?_, fun j => ?_⟩
  · rw [Core.issuedTiles_finish]
    exact hL.issued_nodup
  · rw [Core.reportedTiles_finish, Core.issuedTiles_finish]
    exact hL.split
  · rw [Core.reportedTiles_finish] at ht
    exact hkeep j (hL.reported_done t ht j hj)
  · rw [Core.finishCalls_finish]
    rw [← List.concat_eq_append]
    exact hL.calls_nodup.concat hnot
  · rw [Core.finishCalls_finish, List.mem_append, List.mem_singleton]
    change _ ↔ ((c.heap.finish i).inst j).finished = true
    rw [hf.finished_eq, hL.calls j]
    by_cases hj : j = i
    · simp [hj]
    · simp [hj]

/-! ## The tags in transit -/

omit [DecidableEq τ] in
theorem flights_perm (hperm : c'.transit.Perm c.transit) : (flights P c').Perm (flights P c) :=
  hperm.filterMap _

omit [DecidableEq τ] in
/-- A store and a synchronous load have no tag in transit. -/
theorem flights_leave (hperm : c.transit.Perm (i :: c'.transit))
    (hi : loadTag (kindOf P i) = none) : (flights P c').Perm (flights P c) := by
  have hflights : (flights P c).Perm ((i :: c'.transit).filterMap fun i => loadTag (kindOf P i)) :=
    hperm.filterMap _
  have hdrop : (i :: c'.transit).filterMap (fun i => loadTag (kindOf P i)) = flights P c' :=
    List.filterMap_cons_none hi
  rw [hdrop] at hflights
  exact hflights.symm

omit [DecidableEq τ] in
/-- An asynchronous load takes its tag along. -/
theorem flights_cons {k : ℕ × List ℤ} (hperm : c.transit.Perm (i :: c'.transit))
    (hi : loadTag (kindOf P i) = some k) : (flights P c).Perm (k :: flights P c') := by
  have hflights : (flights P c).Perm ((i :: c'.transit).filterMap fun i => loadTag (kindOf P i)) :=
    hperm.filterMap _
  have htake : (i :: c'.transit).filterMap (fun i => loadTag (kindOf P i)) = k :: flights P c' :=
    List.filterMap_cons_some hi
  rwa [htake] at hflights

omit [DecidableEq τ] in
/-- A step that registers no tag. -/
theorem TransitInv.congr (hT : TransitInv P c) (hflights : (flights P c').Perm (flights P c))
    (htag : ∀ g key, (c.dma.tag g key).isSome = true → (c'.dma.tag g key).isSome = true) :
    TransitInv P c' := by
  refine ⟨hflights.nodup_iff.mpr hT.unique, fun k hk => ?_⟩
  exact htag k.1 k.2 (hT.known k (hflights.mem_iff.mp hk))

omit [DecidableEq τ] in
/-- The waiters that count depend on the tags in transit. -/
theorem elsewhere_waiter (hflights : (flights P c').Perm (flights P c))
    (hwaiters : c'.dma.waiters = c.dma.waiters) (g : ℕ) (key : List ℤ) :
    elsewhere P c' (.waiter g key) = elsewhere P c (.waiter g key) := by
  unfold elsewhere
  simp only [hflights.mem_iff, hwaiters]

theorem elsewhere_finish (c : Core τ ι) (i : ι) :
    elsewhere P (c.finish i) = elsewhere P c := by
  funext r
  cases r <;> rfl

omit [DecidableEq τ] in
/-- The opcode of an instruction and the other fields that do not change. -/
theorem CoreInv.kind (hI : CoreInv P c) (i : ι) : (c.heap.inst i).kind = kindOf P i :=
  hI.placement.kind i

omit [DecidableEq ι] in
/-- Two ways to say that one place changes. -/
theorem perm_update {f g : Place τ → List ι} {p : Place τ} {l : List ι} (hp : (f p).Perm l)
    (hrest : ∀ r, r ≠ p → (f r).Perm (g r)) : ∀ r, (f r).Perm (Function.update g p l r) := by
  intro r
  by_cases hr : r = p
  · subst hr
    rwa [Function.update_self]
  · rw [Function.update_of_ne hr]
    exact hrest r hr

omit [DecidableEq ι] in
theorem perm_update₂ {f g : Place τ → List ι} {p q : Place τ} {l m : List ι} (hpq : q ≠ p)
    (hq : (f q).Perm m) (hp : (f p).Perm l) (hrest : ∀ r, r ≠ p → r ≠ q → (f r).Perm (g r)) :
    ∀ r, (f r).Perm (Function.update (Function.update g p l) q m r) := by
  apply perm_update hq
  intro r hr
  by_cases hrp : r = p
  · subst hrp
    rwa [Function.update_self]
  · rw [Function.update_of_ne hrp]
    exact hrest r hrp hr

/-! ## The units -/

/-- A pipeline finishes the instruction in front. -/
theorem CoreInv.compute (hI : CoreInv P c) {p : Core.Pipeline} {rest : List ι}
    (hp : c.pipeline p = i :: rest) : CoreInv P ((c.finish i).setPipeline p rest) := by
  have hmem : i ∈ elsewhere P c (.pipe p) := by
    change i ∈ c.pipeline p
    rw [hp]
    exact List.mem_cons_self
  obtain ⟨hf, hflag, hplace⟩ := hI.placement.finishOut (by simp) hmem rfl
  have hledger := hI.ledger.finish hf hflag
  have hother : ∀ r, (elsewhere P ((c.finish i).setPipeline p rest) r).Perm
      (Function.update (elsewhere P c) (.pipe p) ((elsewhere P c (.pipe p)).erase i) r) := by
    apply perm_update
    · change (((c.finish i).setPipeline p rest).pipeline p).Perm ((c.pipeline p).erase i)
      rw [Core.pipeline_setPipeline, if_pos rfl, hp, List.erase_cons_head]
    · intro r hr
      cases r with
      | pipe q =>
          change (((c.finish i).setPipeline p rest).pipeline q).Perm (c.pipeline q)
          rw [Core.pipeline_setPipeline, if_neg fun heq => hr (congrArg Place.pipe heq)]
          exact .refl _
      | _ => cases p <;> exact .refl _
  have hissued : ((c.finish i).setPipeline p rest).issuedTiles = c.issuedTiles := by
    rw [← Core.issuedTiles_finish c i]
    cases p <;> rfl
  refine ⟨?_, ?_, ?_, ?_⟩
  · rw [hissued]
    refine hplace.congr ?_ ?_ hother <;> cases p
    all_goals first | exact .refl _ | exact fun _ => rfl
  · cases p <;> exact hI.transit.congr (.refl _) fun _ _ h => h
  · cases p <;> exact hledger.congr rfl rfl rfl rfl fun _ => rfl
  · cases p <;> exact hI.engine

/-- What a move of an instruction inside the engine leaves as it was. -/
structure EngineMove (P : TileProgram τ ι) (c c' : Core τ ι) : Prop where
  flights : (flights P c').Perm (flights P c)
  tagTable : c'.dma.tagTable = c.dma.tagTable
  events : c'.events = c.events
  tiles : c'.tiles = c.tiles
  engine : EngineInv c'.dma

/-- An instruction goes from one place of the engine to another. -/
theorem CoreInv.move {p q : Place τ} (hI : CoreInv P c) (hm : EngineMove P c c')
    (hdata : SameData c.heap c'.heap)
    (hready : ∀ t, (c'.heap.tile t).readyQueue = (c.heap.tile t).readyQueue)
    (hp : ∀ t, p ≠ .ready t) (hi : i ∈ elsewhere P c p) (hq : ∀ t, q ≠ .ready t) (hpq : q ≠ p)
    (hflag : p.finishedAt (kindOf P i) = q.finishedAt (kindOf P i))
    (hfits : q.Fits (kindOf P i))
    (hother : ∀ r, (elsewhere P c' r).Perm (Function.update (Function.update (elsewhere P c) p
      ((elsewhere P c p).erase i)) q (i :: elsewhere P c q) r)) : CoreInv P c' := by
  have hplace := hI.placement.move hp hi hq hpq hflag hfits
  have hissued : c'.issuedTiles = c.issuedTiles := by
    unfold Core.issuedTiles
    rw [hm.events]
  refine ⟨?_, hI.transit.congr hm.flights fun g key h => ?_, ?_, hm.engine⟩
  · rw [hissued]
    exact hplace.congr hdata hready hother
  · unfold DMA.tag at h ⊢
    rwa [hm.tagTable]
  · refine hI.ledger.congr hm.tiles hissued ?_ ?_ hdata.finished
    · unfold Core.reportedTiles
      rw [hm.events]
    · unfold Core.finishCalls
      rw [hm.events]

/-- An instruction is finished on its way from one place of the engine to another. -/
theorem CoreInv.finishMove {p q : Place τ} (hI : CoreInv P c) (hm : EngineMove P c c')
    (hheap : c'.heap = c.heap)
    (hp : ∀ t, p ≠ .ready t) (hi : i ∈ elsewhere P c p) (hq : ∀ t, q ≠ .ready t) (hpq : q ≠ p)
    (hflag : p.finishedAt (kindOf P i) = false) (hflag' : q.finishedAt (kindOf P i) = true)
    (hfits : q.Fits (kindOf P i))
    (hother : ∀ r, (elsewhere P c' r).Perm (Function.update (Function.update (elsewhere P c) p
      ((elsewhere P c p).erase i)) q (i :: elsewhere P c q) r)) : CoreInv P (c'.finish i) := by
  have hplace := hI.placement.finishMove hp hi hq hpq hflag hflag' hfits
  obtain ⟨hf, hunfinished, -⟩ := hI.placement.finishOut hp hi hflag
  have hissued : c'.issuedTiles = c.issuedTiles := by
    unfold Core.issuedTiles
    rw [hm.events]
  have hledger : LedgerInv P c' := by
    refine hI.ledger.congr hm.tiles hissued ?_ ?_ fun _ => by rw [hheap]
    · unfold Core.reportedTiles
      rw [hm.events]
    · unfold Core.finishCalls
      rw [hm.events]
  rw [← hheap] at hplace hf hunfinished
  refine ⟨?_, hI.transit.congr hm.flights fun g key h => ?_, hledger.finish hf hunfinished,
    hm.engine⟩
  · rw [Core.issuedTiles_finish, hissued]
    exact hplace.congr (.refl _) (fun _ => rfl) hother
  · change ((c'.dma.tagTable g).bind fun m => m key).isSome = true
    rw [hm.tagTable]
    exact h

section Engine

variable (hI : CoreInv P c)
include hI

omit [DecidableEq τ] in
theorem CoreInv.opcode (i : ι) : (c.heap.inst i).opcode = (kindOf P i).opcode :=
  congrArg InstKind.opcode (hI.kind i)

omit [DecidableEq τ] in
theorem CoreInv.isAsync (i : ι) : (c.heap.inst i).isAsyncDma = (kindOf P i).isAsyncDma :=
  congrArg InstKind.isAsyncDma (hI.kind i)

omit [DecidableEq τ] in
theorem CoreInv.isWrite (i : ι) :
    (c.heap.inst i).isDmaWrite = true ↔ (kindOf P i).opcode = .movout := by
  unfold Instruction.isDmaWrite
  rw [hI.opcode, decide_eq_true_eq]

omit [DecidableEq τ] in
theorem CoreInv.isRead (i : ι) :
    (c.heap.inst i).isDmaRead = true ↔ (kindOf P i).opcode = .movin := by
  unfold Instruction.isDmaRead
  rw [hI.opcode, decide_eq_true_eq]

omit [DecidableEq τ] in
theorem CoreInv.loadTag_eq (hop : (kindOf P i).opcode = .movin)
    (ha : (kindOf P i).isAsyncDma = true) :
    loadTag (kindOf P i) = some ((c.heap.inst i).subgraphId, (c.heap.inst i).tagKey) := by
  have hg : (c.heap.inst i).subgraphId = (kindOf P i).subgraphId :=
    congrArg InstKind.subgraphId (hI.kind i)
  have hkey : (c.heap.inst i).tagKey = (kindOf P i).tagKey := congrArg InstKind.tagKey (hI.kind i)
  simp [loadTag, hop, ha, hg, hkey]

omit [DecidableEq τ] in
/-- An instruction is in one place of the engine. -/
theorem CoreInv.not_waiting (hcur : c.dma.currentInst = some i) : i ∉ c.dmaWaitingQueue := by
  intro hi
  have hcur' : i ∈ places c.heap (elsewhere P c) .dma := by simp [places, elsewhere, hcur]
  have hwait : i ∈ places c.heap (elsewhere P c) .waiting := hi
  have heq := hI.placement.exclusive.unique _ _ i hcur' hwait
  cases heq

omit [DecidableEq τ] in
theorem CoreInv.current_fits (hcur : c.dma.currentInst = some i) :
    (kindOf P i).opcode = .movin ∨ (kindOf P i).opcode = .movout :=
  hI.placement.fits .dma i (by simp [places, elsewhere, hcur])

/-- The current instruction gives up the engine for the list of waiting instructions. -/
theorem CoreInv.retire (hfin : c.dma.finished = true) (hcur : c.dma.currentInst = some i) :
    EngineMove P c { c with
      dma := { c.dma with currentInst := none }
      dmaWaitingQueue := c.dmaWaitingQueue.insert i } ∧
    ∀ r, (elsewhere P { c with
      dma := { c.dma with currentInst := none }
      dmaWaitingQueue := c.dmaWaitingQueue.insert i } r).Perm
        (Function.update (Function.update (elsewhere P c) .dma
          ((elsewhere P c .dma).erase i)) .waiting (i :: elsewhere P c .waiting) r) := by
  have hnot := hI.not_waiting hcur
  have htransit : ({ c with
      dma := { c.dma with currentInst := none }
      dmaWaitingQueue := c.dmaWaitingQueue.insert i } : Core τ ι).transit.Perm c.transit := by
    rw [List.perm_iff_count]
    intro a
    simp only [Core.transit, hcur, List.insert_of_not_mem hnot, List.count_append,
      List.count_cons, Option.toList, List.count_nil]
    omega
  refine ⟨⟨flights_perm htransit, rfl, rfl, rfl, ?_⟩, ?_⟩
  · refine ⟨fun h => ?_, hI.engine.ssd, hI.engine.once, hI.engine.accesses⟩
    rw [hfin] at h
    cases h
  · apply perm_update₂ (by simp)
    · change (c.dmaWaitingQueue.insert i).Perm (i :: c.dmaWaitingQueue)
      rw [List.insert_of_not_mem hnot]
    · simp [elsewhere, hcur]
    · intro r hr hr'
      cases r with
      | dma => exact absurd rfl hr
      | waiting => exact absurd rfl hr'
      | waiter g key => rw [elsewhere_waiter (flights_perm htransit) rfl]
      | _ => exact .refl _

theorem CoreInv.retireWrite (hfin : c.dma.finished = true) (hcur : c.dma.currentInst = some i)
    (hw : (c.heap.inst i).isDmaWrite = true) :
    CoreInv P ({ c with
      dma := { c.dma with currentInst := none }
      dmaWaitingQueue := c.dmaWaitingQueue.insert i }.finish i) := by
  obtain ⟨hm, hother⟩ := hI.retire hfin hcur
  have hop := (hI.isWrite i).mp hw
  refine hI.finishMove (p := .dma) (q := .waiting) hm rfl (by simp) ?_ (by simp) (by simp) rfl
    ?_ (Or.inr hop) hother
  · simp [elsewhere, hcur]
  · simp [Place.finishedAt, hop]

theorem CoreInv.retireAsync (hfin : c.dma.finished = true) (hcur : c.dma.currentInst = some i)
    (hr : (c.heap.inst i).isDmaRead = true) (ha : (c.heap.inst i).isAsyncDma = true) :
    CoreInv P ({ c with
      dma := { c.dma with currentInst := none }
      dmaWaitingQueue := c.dmaWaitingQueue.insert i }.finish i) := by
  obtain ⟨hm, hother⟩ := hI.retire hfin hcur
  rw [hI.isAsync] at ha
  refine hI.finishMove (p := .dma) (q := .waiting) hm rfl (by simp) ?_ (by simp) (by simp) rfl ?_
    (Or.inl ((hI.isRead i).mp hr)) hother
  · simp [elsewhere, hcur]
  · simp [Place.finishedAt, ha]

theorem CoreInv.retireSync (hfin : c.dma.finished = true) (hcur : c.dma.currentInst = some i)
    (hr : (c.heap.inst i).isDmaRead = true) (ha : (c.heap.inst i).isAsyncDma = false) :
    CoreInv P { c with
      dma := { c.dma with currentInst := none }
      dmaWaitingQueue := c.dmaWaitingQueue.insert i } := by
  obtain ⟨hm, hother⟩ := hI.retire hfin hcur
  have hop := (hI.isRead i).mp hr
  rw [hI.isAsync] at ha
  refine hI.move (p := .dma) (q := .waiting) hm (.refl _) (fun _ => rfl) (by simp) ?_
    (by simp) (by simp) ?_ (Or.inl hop) hother
  · simp [elsewhere, hcur]
  · simp [Place.finishedAt, hop, ha]

/-- The latency oracle sends the current instruction to the finished ones. -/
theorem CoreInv.ssdRead (hssd : c.dma.ssdPending = true) (hcur : c.dma.currentInst = some i) :
    EngineMove P c { c with
      dma := c.dma.endSsd, dmaFinishedQueue := c.dmaFinishedQueue ++ [i] } ∧
    ∀ r, (elsewhere P { c with
      dma := c.dma.endSsd, dmaFinishedQueue := c.dmaFinishedQueue ++ [i] } r).Perm
        (Function.update (Function.update (elsewhere P c) .dma
          ((elsewhere P c .dma).erase i)) .arrived (i :: elsewhere P c .arrived) r) := by
  have htransit : ({ c with
      dma := c.dma.endSsd
      dmaFinishedQueue := c.dmaFinishedQueue ++ [i] } : Core τ ι).transit.Perm c.transit := by
    rw [List.perm_iff_count]
    intro a
    simp only [Core.transit, DMA.endSsd, hcur, List.count_append, List.count_cons, Option.toList,
      List.count_nil]
    omega
  have hgen := (hI.engine.ssd hssd).2
  refine ⟨⟨flights_perm htransit, rfl, rfl, rfl, ?_⟩, ?_⟩
  · exact ⟨nofun, nofun, nofun,
      fun _ => hI.engine.accesses hgen⟩
  · apply perm_update₂ (by simp)
    · change (c.dmaFinishedQueue ++ [i]).Perm (i :: c.dmaFinishedQueue)
      exact List.perm_append_singleton i _
    · simp [elsewhere, hcur, DMA.endSsd]
    · intro r hr hr'
      cases r with
      | dma => exact absurd rfl hr
      | arrived => exact absurd rfl hr'
      | waiter g key => rw [elsewhere_waiter (flights_perm htransit) rfl]
      | _ => exact .refl _

theorem CoreInv.ssdAsync (hssd : c.dma.ssdPending = true) (hcur : c.dma.currentInst = some i)
    (hr : (c.heap.inst i).isDmaRead = true) (ha : (c.heap.inst i).isAsyncDma = true) :
    CoreInv P ({ c with
      dma := c.dma.endSsd, dmaFinishedQueue := c.dmaFinishedQueue ++ [i] }.finish i) := by
  obtain ⟨hm, hother⟩ := hI.ssdRead hssd hcur
  rw [hI.isAsync] at ha
  refine hI.finishMove (p := .dma) (q := .arrived) hm rfl (by simp) ?_ (by simp) (by simp) rfl ?_
    (Or.inl ((hI.isRead i).mp hr)) hother
  · simp [elsewhere, hcur]
  · simp [Place.finishedAt, ha]

theorem CoreInv.ssdSync (hssd : c.dma.ssdPending = true) (hcur : c.dma.currentInst = some i)
    (hr : (c.heap.inst i).isDmaRead = true) (ha : (c.heap.inst i).isAsyncDma = false) :
    CoreInv P { c with
      dma := c.dma.endSsd, dmaFinishedQueue := c.dmaFinishedQueue ++ [i] } := by
  obtain ⟨hm, hother⟩ := hI.ssdRead hssd hcur
  have hop := (hI.isRead i).mp hr
  rw [hI.isAsync] at ha
  refine hI.move (p := .dma) (q := .arrived) hm (.refl _) (fun _ => rfl) (by simp) ?_
    (by simp) (by simp) ?_ (Or.inl hop) hother
  · simp [elsewhere, hcur]
  · simp [Place.finishedAt, hop, ha]

/-- A load or a store enters the idle engine. -/
theorem CoreInv.startLoad {rest : List ι} (hcur : c.dma.currentInst = none)
    (hq : c.ldInstQueue = i :: rest) :
    CoreInv P { c with
      dma := { c.dma with
        currentInst := some i, ssdPending := false, ssdFinishCycle := 0, finished := false }
      ldInstQueue := rest } := by
  have htransit : ({ c with
      dma := { c.dma with
        currentInst := some i, ssdPending := false, ssdFinishCycle := 0, finished := false }
      ldInstQueue := rest } : Core τ ι).transit.Perm c.transit := by
    rw [List.perm_iff_count]
    intro a
    simp only [Core.transit, hcur, hq, List.count_append, List.count_cons, Option.toList,
      List.count_nil]
    omega
  have hmem : i ∈ elsewhere P c .ld := by simp [elsewhere, hq]
  have hop : (kindOf P i).opcode = .movin := hI.placement.fits .ld i hmem
  refine hI.move (p := .ld) (q := .dma) ⟨flights_perm htransit, rfl, rfl, rfl, ?_⟩ (.refl _) (fun _ => rfl)
    (by simp) hmem (by simp) (by simp) rfl (Or.inl hop) ?_
  · exact ⟨fun _ => rfl, nofun, fun _ => rfl, hI.engine.accesses⟩
  · apply perm_update₂ (by simp)
    · simp [elsewhere, hcur]
    · simp [elsewhere, hq]
    · intro r hr hr'
      cases r with
      | ld => exact absurd rfl hr
      | dma => exact absurd rfl hr'
      | waiter g key => rw [elsewhere_waiter (flights_perm htransit) rfl]
      | _ => exact .refl _

theorem CoreInv.startStore {rest : List ι} (hcur : c.dma.currentInst = none)
    (hq : c.stInstQueue = i :: rest) :
    CoreInv P { c with
      dma := { c.dma with
        currentInst := some i, ssdPending := false, ssdFinishCycle := 0, finished := false }
      stInstQueue := rest } := by
  have htransit : ({ c with
      dma := { c.dma with
        currentInst := some i, ssdPending := false, ssdFinishCycle := 0, finished := false }
      stInstQueue := rest } : Core τ ι).transit.Perm c.transit := by
    rw [List.perm_iff_count]
    intro a
    simp only [Core.transit, hcur, hq, List.count_append, List.count_cons, Option.toList,
      List.count_nil]
    omega
  have hmem : i ∈ elsewhere P c .st := by simp [elsewhere, hq]
  have hop : (kindOf P i).opcode = .movout := hI.placement.fits .st i hmem
  refine hI.move (p := .st) (q := .dma) ⟨flights_perm htransit, rfl, rfl, rfl, ?_⟩ (.refl _) (fun _ => rfl)
    (by simp) hmem (by simp) (by simp) rfl (Or.inr hop) ?_
  · exact ⟨fun _ => rfl, nofun, fun _ => rfl, hI.engine.accesses⟩
  · apply perm_update₂ (by simp)
    · simp [elsewhere, hcur]
    · simp [elsewhere, hq]
    · intro r hr hr'
      cases r with
      | st => exact absurd rfl hr
      | dma => exact absurd rfl hr'
      | waiter g key => rw [elsewhere_waiter (flights_perm htransit) rfl]
      | _ => exact .refl _

/-- A store that leaves the engine through the latency oracle is finished. -/
theorem CoreInv.ssdWrite (hssd : c.dma.ssdPending = true) (hcur : c.dma.currentInst = some i)
    (hw : (c.heap.inst i).isDmaWrite = true) :
    CoreInv P ({ c with dma := c.dma.endSsd }.finish i) := by
  have hop := (hI.isWrite i).mp hw
  have hperm : c.transit.Perm (i :: ({ c with dma := c.dma.endSsd } : Core τ ι).transit) := by
    rw [List.perm_iff_count]
    intro a
    simp only [Core.transit, DMA.endSsd, hcur, List.count_append, List.count_cons, Option.toList,
      List.count_nil]
    omega
  have hflights := flights_leave (P := P) hperm (by simp [loadTag, hop])
  have hmem : i ∈ elsewhere P c .dma := by simp [elsewhere, hcur]
  obtain ⟨hf, hflag, hplace⟩ := hI.placement.finishOut (by simp) hmem rfl
  have hgen := (hI.engine.ssd hssd).2
  have hledger : LedgerInv P ({ c with dma := c.dma.endSsd } : Core τ ι) :=
    hI.ledger.congr rfl rfl rfl rfl fun _ => rfl
  refine ⟨?_, hI.transit.congr hflights fun _ _ h => h, hledger.finish hf hflag,
    nofun, nofun, nofun, fun _ => hI.engine.accesses hgen⟩
  rw [Core.issuedTiles_finish]
  refine hplace.congr (.refl _) (fun _ => rfl) (perm_update ?_ fun r hr => ?_)
  · simp [elsewhere, hcur, Core.finish, Core.log, DMA.endSsd]
  · cases r with
    | dma => exact absurd rfl hr
    | waiter g key => rw [elsewhere_finish, elsewhere_waiter hflights rfl]
    | _ => exact .refl _

/-- A synchronous load is finished when its data has arrived. -/
theorem CoreInv.drainSync {rest : List ι} (hq : c.dmaFinishedQueue = i :: rest)
    (hr : (c.heap.inst i).isDmaRead = true) (ha : (c.heap.inst i).isAsyncDma = false) :
    CoreInv P ({ c with dmaFinishedQueue := rest }.finish i) := by
  have hop := (hI.isRead i).mp hr
  rw [hI.isAsync] at ha
  have hperm : c.transit.Perm (i :: ({ c with dmaFinishedQueue := rest } : Core τ ι).transit) := by
    rw [List.perm_iff_count]
    intro a
    simp only [Core.transit, hq, List.count_append, List.count_cons]
    omega
  have hflights := flights_leave (P := P) hperm (by simp [loadTag, ha])
  have hmem : i ∈ elsewhere P c .arrived := by simp [elsewhere, hq]
  have hat : Place.finishedAt .arrived (kindOf P i) = false := by
    simp [Place.finishedAt, hop, ha]
  obtain ⟨hf, hflag, hplace⟩ := hI.placement.finishOut (by simp) hmem hat
  have hledger : LedgerInv P ({ c with dmaFinishedQueue := rest } : Core τ ι) :=
    hI.ledger.congr rfl rfl rfl rfl fun _ => rfl
  refine ⟨?_, hI.transit.congr hflights fun _ _ h => h, hledger.finish hf hflag, hI.engine⟩
  rw [Core.issuedTiles_finish]
  refine hplace.congr (.refl _) (fun _ => rfl) (perm_update ?_ fun r hr => ?_)
  · simp [elsewhere, hq, Core.finish, Core.log]
  · cases r with
    | arrived => exact absurd rfl hr
    | waiter g key => rw [elsewhere_finish, elsewhere_waiter hflights rfl]
    | _ => exact .refl _

omit [DecidableEq τ] in
/-- A store leaves the list of finished ones. -/
theorem CoreInv.drainWrite {rest : List ι} (hq : c.dmaFinishedQueue = i :: rest)
    (hr : (c.heap.inst i).isDmaRead = false) :
    CoreInv P { c with dmaFinishedQueue := rest } := by
  have hop : (kindOf P i).opcode ≠ .movin := by
    intro hop
    rw [(hI.isRead i).mpr hop] at hr
    cases hr
  have hperm : c.transit.Perm (i :: ({ c with dmaFinishedQueue := rest } : Core τ ι).transit) := by
    rw [List.perm_iff_count]
    intro a
    simp only [Core.transit, hq, List.count_append, List.count_cons]
    omega
  have hflights := flights_leave (P := P) hperm (by simp [loadTag, hop])
  refine ⟨?_, hI.transit.congr hflights fun _ _ h => h,
    hI.ledger.congr rfl rfl rfl rfl fun _ => rfl, hI.engine⟩
  refine hI.placement.shrink (.refl _) fun r => ?_
  cases r with
  | arrived =>
      change rest.Subperm c.dmaFinishedQueue
      rw [hq]
      exact (List.sublist_cons_self i rest).subperm
  | waiter g key =>
      change (elsewhere P _ (.waiter g key)).Subperm (elsewhere P c (.waiter g key))
      rw [elsewhere_waiter hflights rfl]
  | _ => exact .refl _

end Engine

/-! ## The waiters of a tag -/

/-- An instruction in hand is finished. -/
theorem CoreInv.finishHand (hI : CoreInv P c)
    (hi : InHand P c.issuedTiles c.heap (elsewhere P c) i false) :
    CoreInv P (c.finish i) ∧ ∀ j b, j ≠ i → InHand P c.issuedTiles c.heap (elsewhere P c) j b →
      InHand P (c.finish i).issuedTiles (c.finish i).heap (elsewhere P (c.finish i)) j b := by
  obtain ⟨hplace, -, hrest⟩ := hI.placement.finish hi
  rw [Core.issuedTiles_finish, elsewhere_finish]
  refine ⟨⟨?_, hI.transit.congr (.refl _) fun _ _ h => h,
    hI.ledger.finish (hI.placement.finishable hi) hi.flag, hI.engine⟩, hrest⟩
  rw [Core.issuedTiles_finish, elsewhere_finish]
  exact hplace

/-- Instructions in hand are finished one after the other. -/
theorem CoreInv.finishAll {ws : List ι} (hI : CoreInv P c) (hws : ws.Nodup)
    (hhand : ∀ w ∈ ws, InHand P c.issuedTiles c.heap (elsewhere P c) w false) :
    CoreInv P (ws.foldl Core.finish c) := by
  induction ws generalizing c with
  | nil => exact hI
  | cons w ws ih =>
      obtain ⟨hw, hws⟩ := List.nodup_cons.mp hws
      obtain ⟨hfin, hkeep⟩ := hI.finishHand (hhand w List.mem_cons_self)
      refine ih hfin hws fun v hv => hkeep v false ?_ (hhand v (List.mem_cons_of_mem w hv))
      exact fun heq => hw (heq ▸ hv)

omit [DecidableEq ι] in
theorem DMA.tag_storeTag (d : DMA ι) (g : ℕ) (key : List ℤ) (v : ℕ) (g' : ℕ) (key' : List ℤ) :
    (d.storeTag g key v).tag g' key' =
      if g' = g ∧ key' = key then some v else d.tag g' key' := by
  unfold DMA.tag DMA.storeTag
  by_cases hg : g' = g
  · subst hg
    by_cases hkey : key' = key
    · subst hkey
      simp
    · cases d.tagTable g' <;> simp [hkey]
  · simp [hg]

omit [DecidableEq τ] in
/-- The data of an asynchronous load has arrived: the waiters of its tag are in hand. -/
theorem CoreInv.arrive (hI : CoreInv P c) {rest : List ι} (v : ℕ)
    (hq : c.dmaFinishedQueue = i :: rest) (hr : (c.heap.inst i).isDmaRead = true)
    (ha : (c.heap.inst i).isAsyncDma = true) :
    let g := (c.heap.inst i).subgraphId
    let key := (c.heap.inst i).tagKey
    let c₁ := { c.setTag g key v with dmaFinishedQueue := rest }.log (.dataReturned i)
    CoreInv P c₁ ∧ (c.dma.waiters g key).Nodup ∧ ∀ w ∈ c.dma.waiters g key,
      InHand P c₁.issuedTiles c₁.heap (elsewhere P c₁) w false := by
  intro g key c₁
  have hop := (hI.isRead i).mp hr
  rw [hI.isAsync] at ha
  have htag : loadTag (kindOf P i) = some (g, key) := hI.loadTag_eq hop ha
  have hperm : c.transit.Perm (i :: c₁.transit) := by
    rw [List.perm_iff_count]
    intro a
    simp only [Core.transit, hq, List.count_append, List.count_cons]
    change _ = (c.ldInstQueue.count a + c.stInstQueue.count a + c.dma.currentInst.toList.count a +
      c.dmaWaitingQueue.count a + rest.count a) + _
    omega
  have hflights := flights_cons hperm htag
  obtain ⟨hgone, hunique⟩ := List.nodup_cons.mp (hflights.nodup_iff.mp hI.transit.unique)
  have hin : (g, key) ∈ flights P c := hflights.mem_iff.mpr List.mem_cons_self
  have hissued : c₁.issuedTiles = c.issuedTiles :=
    (Core.issuedTiles_log _ _).trans (List.append_nil _)
  have hsub : ∀ r, (places c₁.heap (elsewhere P c₁) r).Subperm
      (places c.heap (elsewhere P c) r) := by
    intro r
    cases r with
    | arrived =>
        change rest.Subperm c.dmaFinishedQueue
        rw [hq]
        exact (List.sublist_cons_self i rest).subperm
    | waiter g' key' =>
        change (if (g', key') ∈ flights P c₁ then c.dma.waiters g' key' else []).Subperm
          (if (g', key') ∈ flights P c then c.dma.waiters g' key' else [])
        by_cases hk : (g', key') ∈ flights P c₁
        · rw [if_pos hk, if_pos (hflights.mem_iff.mpr (List.mem_cons_of_mem _ hk))]
        · rw [if_neg hk]
          exact List.nil_subperm
    | _ => exact .refl _
  have hwaiters : places c.heap (elsewhere P c) (.waiter g key) = c.dma.waiters g key :=
    if_pos hin
  have hcleared : places c₁.heap (elsewhere P c₁) (.waiter g key) = [] := if_neg hgone
  have hengine : EngineInv c₁.dma :=
    ⟨hI.engine.busy, hI.engine.ssd, hI.engine.once, hI.engine.accesses⟩
  refine ⟨⟨?_, ⟨hunique, fun k hk => ?_⟩, ?_, hengine⟩, ?_, fun w hw => ?_⟩
  · rw [hissued]
    exact hI.placement.shrink (.refl _) hsub
  · change ((c.dma.storeTag g key v).tag k.1 k.2).isSome = true
    rw [DMA.tag_storeTag]
    by_cases hk' : k.1 = g ∧ k.2 = key
    · rw [if_pos hk']
      rfl
    · rw [if_neg hk']
      exact hI.transit.known k (hflights.mem_iff.mpr (List.mem_cons_of_mem _ hk))
  · exact hI.ledger.congr rfl hissued ((Core.reportedTiles_log _ _).trans (List.append_nil _))
      ((Core.finishCalls_log _ _).trans (List.append_nil _)) fun _ => rfl
  · rw [← hwaiters]
    exact hI.placement.exclusive.nodup _
  · rw [hissued]
    rw [← hwaiters] at hw
    refine hI.placement.inHand (.refl _) hsub hw ?_
    change w ∉ places c₁.heap (elsewhere P c₁) (.waiter g key)
    rw [hcleared]
    exact List.not_mem_nil

/-- An asynchronous load whose data has arrived finishes the waiters of its tag. -/
theorem CoreInv.drainAsync (hI : CoreInv P c) {rest ws : List ι} (v : ℕ)
    (hq : c.dmaFinishedQueue = i :: rest) (hr : (c.heap.inst i).isDmaRead = true)
    (ha : (c.heap.inst i).isAsyncDma = true)
    (hws : c.dma.waiters (c.heap.inst i).subgraphId (c.heap.inst i).tagKey = ws) :
    CoreInv P (ws.foldl Core.finish
      ({ c.setTag (c.heap.inst i).subgraphId (c.heap.inst i).tagKey v with
        dmaFinishedQueue := rest }.log (.dataReturned i))) := by
  obtain ⟨hI₁, hnodup, hhand⟩ := hI.arrive v hq hr ha
  rw [hws] at hnodup hhand
  exact hI₁.finishAll hnodup hhand

/-! ## The steps that move no instruction -/

omit [DecidableEq τ] in
/-- What a step keeps that moves no instruction. -/
theorem CoreInv.frame (hI : CoreInv P c) (hdata : SameData c.heap c'.heap)
    (hready : ∀ t, (c'.heap.tile t).readyQueue = (c.heap.tile t).readyQueue)
    (hother : elsewhere P c' = elsewhere P c) (hflights : flights P c' = flights P c)
    (htagTable : c'.dma.tagTable = c.dma.tagTable) (hevents : c'.events = c.events)
    (htiles : c'.tiles = c.tiles) (hengine : EngineInv c'.dma) : CoreInv P c' := by
  have hissued : c'.issuedTiles = c.issuedTiles := by
    unfold Core.issuedTiles
    rw [hevents]
  refine ⟨?_, hI.transit.congr (by rw [hflights]) fun g key h => ?_, ?_, hengine⟩
  · rw [hissued, hother]
    exact hI.placement.congr hdata hready fun _ => .refl _
  · unfold DMA.tag at h ⊢
    rwa [htagTable]
  · refine hI.ledger.congr htiles hissued ?_ ?_ hdata.finished
    · unfold Core.reportedTiles
      rw [hevents]
    · unfold Core.finishCalls
      rw [hevents]

omit [DecidableEq τ] [DecidableEq ι] in
/-- The latency oracle takes over the current instruction. -/
theorem EngineInv.oracle {d : DMA ι} (h : EngineInv d) (hcur : d.currentInst = some i)
    (hgen : d.generatedOnce = false) (n : ℕ) :
    EngineInv { d with ssdPending := true, ssdFinishCycle := n, finished := false } :=
  ⟨fun _ => by rw [hcur]; rfl, fun _ => ⟨rfl, hgen⟩, fun _ => rfl, h.accesses⟩

omit [DecidableEq τ] [DecidableEq ι] in
/-- Requests go to the core's queue; the last ones end the work on the instruction. -/
theorem EngineInv.inject {d : DMA ι} (h : EngineInv d) (hgen : d.generatedOnce = true)
    (hssd : d.ssdPending = false) (n : ℕ) :
    EngineInv { d with
      pendingAccesses := d.pendingAccesses.drop n
      finished := if (d.pendingAccesses.drop n).isEmpty then true else d.finished
      generatedOnce :=
        if (d.pendingAccesses.drop n).isEmpty then false else d.generatedOnce } := by
  have hfin := h.once hgen
  by_cases hempty : (d.pendingAccesses.drop n).isEmpty = true
  · simp only [hempty, if_true]
    refine ⟨nofun, fun hp => ?_, nofun, fun _ => List.isEmpty_iff.mp hempty⟩
    rw [hssd] at hp
    cases hp
  · simp only [if_neg hempty]
    exact ⟨h.busy, h.ssd, h.once, fun hg => by rw [hgen] at hg; cases hg⟩

/-- The first tile whose instructions are all finished is reported. -/
theorem CoreInv.report (hI : CoreInv P c) (ht : t ∈ c.tiles)
    (hall : (c.heap.tile t).allInstsFinished = true) :
    CoreInv P ({ c with
      heap := c.heap.setTile t { c.heap.tile t with status := .finish }
      finishedTiles := c.finishedTiles ++ [t]
      tiles := c.tiles.erase t }.log (.tileFinished t)) := by
  have hfields : ∀ u, (c.heap.setTile t { c.heap.tile t with status := .finish }).tile u =
      { c.heap.tile u with status := if u = t then .finish else (c.heap.tile u).status } := by
    intro u
    by_cases hu : u = t
    · subst hu
      simp
    · simp [CoreHeap.setTile_tile_of_ne _ _ hu, hu]
  have hdata : SameData c.heap (c.heap.setTile t { c.heap.tile t with status := .finish }) := by
    refine ⟨fun _ => rfl, fun _ => rfl, fun _ => rfl, fun u => ?_, fun u => ?_, fun u => ?_⟩ <;>
      rw [hfields u]
  have hdone : ∀ i ∈ instsOf P t, (c.heap.inst i).finished = true := by
    have hcount := hI.placement.nrFinished t
    have hlength := hI.placement.nrInsts t
    have heq : (c.heap.tile t).nrInsts = (c.heap.tile t).nrFinishedInsts := of_decide_eq_true hall
    rw [hlength, hcount] at heq
    exact List.countP_eq_length.mp heq.symm
  have hissued : ({ c with
      heap := c.heap.setTile t { c.heap.tile t with status := .finish }
      finishedTiles := c.finishedTiles ++ [t]
      tiles := c.tiles.erase t }.log (.tileFinished t)).issuedTiles = c.issuedTiles :=
    (Core.issuedTiles_log _ _).trans (List.append_nil _)
  have hreported : ({ c with
      heap := c.heap.setTile t { c.heap.tile t with status := .finish }
      finishedTiles := c.finishedTiles ++ [t]
      tiles := c.tiles.erase t }.log (.tileFinished t)).reportedTiles = c.reportedTiles ++ [t] :=
    Core.reportedTiles_log _ _
  have hcalls : ({ c with
      heap := c.heap.setTile t { c.heap.tile t with status := .finish }
      finishedTiles := c.finishedTiles ++ [t]
      tiles := c.tiles.erase t }.log (.tileFinished t)).finishCalls = c.finishCalls :=
    (Core.finishCalls_log _ _).trans (List.append_nil _)
  have hother : ∀ r, (elsewhere P ({ c with
      heap := c.heap.setTile t { c.heap.tile t with status := .finish }
      finishedTiles := c.finishedTiles ++ [t]
      tiles := c.tiles.erase t }.log (.tileFinished t)) r).Perm (elsewhere P c r) := by
    intro r
    cases r <;> exact .refl _
  refine ⟨?_, hI.transit.congr (.refl _) fun _ _ h => h, ?_, hI.engine⟩
  · rw [hissued]
    refine hI.placement.congr hdata (fun u => ?_) hother
    have hqueue := congrArg Tile.readyQueue (hfields u)
    exact hqueue
  · refine ⟨?_, ?_, fun u hu i hi => ?_, ?_, fun i => ?_⟩
    · rw [hissued]
      exact hI.ledger.issued_nodup
    · rw [hissued, hreported]
      refine List.Perm.trans ?_ hI.ledger.split
      rw [List.perm_iff_count]
      intro a
      have herase := List.perm_iff_count.mp (List.perm_cons_erase ht) a
      simp only [List.count_append, List.count_cons, List.count_nil] at herase ⊢
      change (c.tiles.erase t).count a + _ = _
      omega
    · rw [hreported, List.mem_append, List.mem_singleton] at hu
      rcases hu with hu | rfl
      · exact hI.ledger.reported_done u hu i hi
      · exact hdone i hi
    · rw [hcalls]
      exact hI.ledger.calls_nodup
    · rw [hcalls]
      exact hI.ledger.calls i

/-- **The units keep the invariant.** -/
theorem UnitStep.inv {cfg : CoreConfig} (h : UnitStep cfg c c') (hI : CoreInv P c) :
    CoreInv P c' := by
  cases h with
  | stats f =>
      refine hI.frame (.refl _) (fun _ => rfl) ?_ rfl rfl rfl rfl hI.engine
      funext r
      cases r <;> rfl
  | clock n =>
      refine hI.frame (.refl _) (fun _ => rfl) ?_ rfl rfl rfl rfl hI.engine
      funext r
      cases r <;> rfl
  | arrayTurn n =>
      refine hI.frame (.refl _) (fun _ => rfl) ?_ rfl rfl rfl rfl hI.engine
      funext r
      cases r <;> rfl
  | compute p i rest hp =>
      have hpop : (c.finish i).popPipeline p = (c.finish i).setPipeline p rest := by
        have htail : ((c.finish i).pipeline p).tail = rest := by
          change (c.pipeline p).tail = rest
          rw [hp]
          rfl
        unfold Core.popPipeline
        rw [htail]
      rw [hpop]
      exact hI.compute hp
  | ssdNone hssd hcur =>
      have hbusy := hI.engine.busy (hI.engine.ssd hssd).1
      rw [hcur] at hbusy
      cases hbusy
  | ssdWrite i hssd hcur hw => exact hI.ssdWrite hssd hcur hw
  | ssdAsync i hssd hcur hr ha => exact hI.ssdAsync hssd hcur hr ha
  | ssdSync i hssd hcur hr ha => exact hI.ssdSync hssd hcur hr ha
  | drainWrite i rest hq hr => exact hI.drainWrite hq hr
  | drainSync i rest hq hr ha => exact hI.drainSync hq hr ha
  | drainAsync i rest ws hq hr ha hws hlen => exact hI.drainAsync _ hq hr ha hws
  | retireWrite i hfin hcur hw => exact hI.retireWrite hfin hcur hw
  | retireAsync i hfin hcur hr ha => exact hI.retireAsync hfin hcur hr ha
  | retireSync i hfin hcur hr ha => exact hI.retireSync hfin hcur hr ha
  | startLoad i rest hfin hcur hq => exact hI.startLoad hcur hq
  | startStore i rest hfin hcur hq => exact hI.startStore hcur hq
  | oracle i n hcur hgen _ =>
      refine hI.frame (.refl _) (fun _ => rfl) ?_ rfl rfl rfl rfl (hI.engine.oracle hcur hgen n)
      funext r
      cases r <;> rfl
  | generate i env hcur hgen hssd hfin =>
      refine hI.frame (.setInst rfl rfl rfl) (fun _ => rfl) ?_ rfl rfl rfl rfl
        ⟨hI.engine.busy, fun hp => ?_, fun _ => hfin, nofun⟩
      · funext r
        cases r <;> rfl
      · rw [hssd] at hp
        cases hp
  | inject n hgen hssd =>
      refine hI.frame (.refl _) (fun _ => rfl) ?_ rfl rfl rfl rfl (hI.engine.inject hgen hssd n)
      funext r
      cases r <;> rfl
  | report t ht hall => exact hI.report ht hall

/-! ## The issue switch -/

/-- An instruction of a core is in hand. -/
abbrev Hand (P : TileProgram τ ι) (c : Core τ ι) (i : ι) (b : Bool) : Prop :=
  InHand P c.issuedTiles c.heap (elsewhere P c) i b

/-- The instruction in front of a ready queue is taken. -/
theorem CoreInv.take (hI : CoreInv P c) (hq : (c.heap.tile t).readyQueue.head? = some i) :
    CoreInv P (c.take t i) ∧ Hand P (c.take t i) i false := by
  obtain ⟨rest, hrest⟩ := List.head?_eq_some_iff.mp hq
  obtain ⟨hplace, hhand⟩ := hI.placement.takeReady hrest
  have hissued : (c.take t i).issuedTiles = c.issuedTiles :=
    (Core.issuedTiles_log _ _).trans (List.append_nil _)
  have hother : elsewhere P (c.take t i) = elsewhere P c := by
    funext r
    cases r <;> rfl
  refine ⟨⟨?_, hI.transit.congr (.refl _) fun _ _ h => h, ?_, hI.engine⟩, ?_⟩
  · rw [hissued, hother]
    exact hplace
  · exact hI.ledger.congr rfl hissued ((Core.reportedTiles_log _ _).trans (List.append_nil _))
      ((Core.finishCalls_log _ _).trans (List.append_nil _)) fun _ => rfl
  · rw [Hand, hissued, hother]
    exact hhand

omit [DecidableEq τ] in
/-- The fields of instructions that have nothing to do with their order change. -/
theorem CoreInv.setHeap (hI : CoreInv P c) {h : CoreHeap τ ι} (hdata : SameData c.heap h)
    (htile : h.tile = c.heap.tile) :
    CoreInv P { c with heap := h } ∧ ∀ i b, Hand P c i b → Hand P { c with heap := h } i b := by
  have hother : elsewhere P { c with heap := h } = elsewhere P c := by
    funext r
    cases r <;> rfl
  have hsub : ∀ r, (places h (elsewhere P { c with heap := h }) r).Subperm
      (places c.heap (elsewhere P c) r) := by
    intro r
    rw [hother]
    cases r with
    | ready t =>
        change ((h.tile t).readyQueue).Subperm ((c.heap.tile t).readyQueue)
        rw [htile]
    | _ => exact .refl _
  exact ⟨⟨hI.placement.shrink hdata hsub, hI.transit.congr (.refl _) fun _ _ h => h,
    hI.ledger.congr rfl rfl rfl rfl hdata.finished, hI.engine⟩,
    fun i b hi => hi.shrink hdata hsub⟩

omit [DecidableEq τ] in
theorem CoreInv.setTimes (hI : CoreInv P c) (p : Core.Pipeline) (i : ι) :
    CoreInv P (c.setTimes p i) ∧ ∀ j b, Hand P c j b → Hand P (c.setTimes p i) j b :=
  hI.setHeap (.setInst rfl rfl rfl) rfl

omit [DecidableEq τ] in
/-- The tag table changes, and waiters may be dropped. -/
theorem CoreInv.setDma (hI : CoreInv P c) {d : DMA ι} (hcur : d.currentInst = c.dma.currentInst)
    (htag : ∀ g key, (c.dma.tag g key).isSome = true → (d.tag g key).isSome = true)
    (hwaiters : ∀ g key, (d.waiters g key).Subperm (c.dma.waiters g key)) (hengine : EngineInv d) :
    CoreInv P { c with dma := d } ∧ ∀ i b, Hand P c i b → Hand P { c with dma := d } i b := by
  have hflights : flights P { c with dma := d } = flights P c := by
    unfold flights Core.transit
    rw [← hcur]
  have hsub : ∀ r, (places c.heap (elsewhere P { c with dma := d }) r).Subperm
      (places c.heap (elsewhere P c) r) := by
    intro r
    cases r with
    | dma =>
        change d.currentInst.toList.Subperm c.dma.currentInst.toList
        rw [hcur]
    | waiter g key =>
        change (if (g, key) ∈ flights P { c with dma := d } then d.waiters g key else []).Subperm
          (if (g, key) ∈ flights P c then c.dma.waiters g key else [])
        rw [hflights]
        by_cases hk : (g, key) ∈ flights P c
        · rw [if_pos hk, if_pos hk]
          exact hwaiters g key
        · rw [if_neg hk, if_neg hk]
    | _ => exact .refl _
  exact ⟨⟨hI.placement.shrink (.refl _) hsub, hI.transit.congr (by rw [hflights]) htag,
    hI.ledger.congr rfl rfl rfl rfl fun _ => rfl, hengine⟩,
    fun i b hi => hi.shrink (.refl _) hsub⟩

omit [DecidableEq τ] in
/-- The word of a tag is stored. -/
theorem CoreInv.setTag (hI : CoreInv P c) (g : ℕ) (key : List ℤ) (v : ℕ) :
    CoreInv P (c.setTag g key v) ∧ ∀ i b, Hand P c i b → Hand P (c.setTag g key v) i b := by
  refine hI.setDma rfl (fun g' key' h => ?_) (fun _ _ => .refl _)
    ⟨hI.engine.busy, hI.engine.ssd, hI.engine.once, hI.engine.accesses⟩
  rw [DMA.tag_storeTag]
  split
  · rfl
  · exact h

omit [DecidableEq ι] in
/-- The list of waiters of a tag is replaced. -/
theorem update_waiters (w : ℕ → List ℤ → List ι) (g : ℕ) (key : List ℤ) (l : List ι) (g' : ℕ)
    (key' : List ℤ) :
    Function.update w g (Function.update (w g) key l) g' key' =
      if g' = g ∧ key' = key then l else w g' key' := by
  by_cases hg : g' = g
  · subst hg
    by_cases hkey : key' = key
    · subst hkey
      simp
    · simp [hkey]
  · simp [hg]

omit [DecidableEq τ] in
/-- An event that is no completion and no report is recorded. -/
theorem CoreInv.log (hI : CoreInv P c) {e : CoreEvent τ ι}
    (hissued : (c.log e).issuedTiles = c.issuedTiles)
    (hreported : (c.log e).reportedTiles = c.reportedTiles)
    (hcalls : (c.log e).finishCalls = c.finishCalls) :
    CoreInv P (c.log e) ∧ ∀ i b, Hand P c i b → Hand P (c.log e) i b := by
  have hother : elsewhere P (c.log e) = elsewhere P c := by
    funext r
    cases r <;> rfl
  refine ⟨⟨?_, hI.transit.congr (.refl _) fun _ _ h => h,
    hI.ledger.congr rfl hissued hreported hcalls fun _ => rfl, hI.engine⟩, fun i b hi => ?_⟩
  · rw [hissued, hother]
    exact hI.placement
  · rw [Hand, hissued, hother]
    exact hi

omit [DecidableEq τ] in
/-- A tag is registered. -/
theorem CoreInv.registerTag (hI : CoreInv P c) (i : ι) :
    CoreInv P (c.registerTag i) ∧ ∀ j b, Hand P c j b → Hand P (c.registerTag i) j b := by
  have hwaiters : ∀ g' key', ((c.dma.registerTag (c.heap.inst i).subgraphId
      (c.heap.inst i).tagKey).waiters g' key').Subperm (c.dma.waiters g' key') := by
    intro g' key'
    change (Function.update c.dma.waiters _ (Function.update (c.dma.waiters _) _ []) g' key').Subperm
      _
    rw [update_waiters]
    split
    · exact List.nil_subperm
    · exact .refl _
  have htag : ∀ g' key', (c.dma.tag g' key').isSome = true →
      ((c.dma.registerTag (c.heap.inst i).subgraphId (c.heap.inst i).tagKey).tag g' key').isSome =
        true := by
    intro g' key' h
    change ((c.dma.storeTag _ _ 0).tag g' key').isSome = true
    rw [DMA.tag_storeTag]
    split
    · rfl
    · exact h
  obtain ⟨hI₁, hhand₁⟩ := hI.setDma
    (d := c.dma.registerTag (c.heap.inst i).subgraphId (c.heap.inst i).tagKey) rfl htag hwaiters
    ⟨hI.engine.busy, hI.engine.ssd, hI.engine.once, hI.engine.accesses⟩
  obtain ⟨hI₂, hhand₂⟩ := hI₁.log (e := .tagRegistered i ((c.dma.tag (c.heap.inst i).subgraphId
    (c.heap.inst i).tagKey).map fun v => (v, c.dma.waiters (c.heap.inst i).subgraphId
      (c.heap.inst i).tagKey)))
    ((Core.issuedTiles_log _ _).trans (List.append_nil _))
    ((Core.reportedTiles_log _ _).trans (List.append_nil _))
    ((Core.finishCalls_log _ _).trans (List.append_nil _))
  exact ⟨hI₂, fun j b hj => hhand₂ j b (hhand₁ j b hj)⟩

omit [DecidableEq τ] in
/-- An instruction in hand enters a place of the engine or a list of waiters. -/
theorem CoreInv.putIn (hI : CoreInv P c) {p : Place τ} (hi : Hand P c i b)
    (hp : ∀ t, p ≠ .ready t) (hflag : b = p.finishedAt (kindOf P i)) (hfits : p.Fits (kindOf P i))
    (hheap : c'.heap = c.heap) (hevents : c'.events = c.events) (htiles : c'.tiles = c.tiles)
    (htransit : TransitInv P c') (hengine : EngineInv c'.dma)
    (hp' : (elsewhere P c' p).Perm (i :: elsewhere P c p))
    (hrest : ∀ r, r ≠ p → (elsewhere P c' r).Perm (elsewhere P c r)) : CoreInv P c' := by
  have hissued : c'.issuedTiles = c.issuedTiles := by
    unfold Core.issuedTiles
    rw [hevents]
  refine ⟨?_, htransit, ?_, hengine⟩
  · rw [hissued, hheap]
    exact hI.placement.enter hi hp hflag hfits hp' hrest
  · refine hI.ledger.congr htiles hissued ?_ ?_ fun _ => by rw [hheap]
    · unfold Core.reportedTiles
      rw [hevents]
    · unfold Core.finishCalls
      rw [hevents]

omit [DecidableEq τ] in
/-- An instruction in hand waits for its tag. -/
theorem CoreInv.addWaiter (hI : CoreInv P c) (hi : Hand P c i false)
    (hop : (kindOf P i).opcode = .movin ∨ (kindOf P i).opcode = .bar) :
    CoreInv P (c.addWaiter i) := by
  have hwaiters : ∀ g' key', (c.addWaiter i).dma.waiters g' key' =
      if g' = (c.heap.inst i).subgraphId ∧ key' = (c.heap.inst i).tagKey then
        c.dma.waiters (c.heap.inst i).subgraphId (c.heap.inst i).tagKey ++ [i]
      else c.dma.waiters g' key' := update_waiters _ _ _ _
  have htransit : TransitInv P (c.addWaiter i) := hI.transit.congr (.refl _) fun _ _ h => h
  have hengine : EngineInv (c.addWaiter i).dma :=
    ⟨hI.engine.busy, hI.engine.ssd, hI.engine.once, hI.engine.accesses⟩
  by_cases hk : ((c.heap.inst i).subgraphId, (c.heap.inst i).tagKey) ∈ flights P c
  · refine hI.putIn (p := .waiter (c.heap.inst i).subgraphId (c.heap.inst i).tagKey) hi (by simp)
      rfl hop rfl rfl rfl htransit hengine ?_ fun r hr => ?_
    · have hnew : elsewhere P (c.addWaiter i) (.waiter (c.heap.inst i).subgraphId
          (c.heap.inst i).tagKey) = (c.addWaiter i).dma.waiters _ _ := if_pos hk
      have hold : elsewhere P c (.waiter (c.heap.inst i).subgraphId
          (c.heap.inst i).tagKey) = c.dma.waiters _ _ := if_pos hk
      rw [hnew, hold, hwaiters, if_pos ⟨rfl, rfl⟩]
      exact List.perm_append_singleton i _
    · cases r with
      | waiter g' key' =>
          have hne : ¬ (g' = (c.heap.inst i).subgraphId ∧ key' = (c.heap.inst i).tagKey) := by
            rintro ⟨rfl, rfl⟩
            exact hr rfl
          change (if (g', key') ∈ flights P c then (c.addWaiter i).dma.waiters g' key' else []).Perm
            _
          rw [hwaiters, if_neg hne]
          exact .refl _
      | _ => exact .refl _
  · -- no load of the tag is in transit, so the waiters of the tag do not count
    have hother : ∀ r, (elsewhere P (c.addWaiter i) r).Perm (elsewhere P c r) := by
      intro r
      cases r with
      | waiter g' key' =>
          change (if (g', key') ∈ flights P c then (c.addWaiter i).dma.waiters g' key' else []).Perm
            (if (g', key') ∈ flights P c then c.dma.waiters g' key' else [])
          by_cases hk' : (g', key') ∈ flights P c
          · have hne : ¬ (g' = (c.heap.inst i).subgraphId ∧ key' = (c.heap.inst i).tagKey) := by
              rintro ⟨rfl, rfl⟩
              exact hk hk'
            rw [hwaiters, if_neg hne]
          · rw [if_neg hk', if_neg hk']
      | _ => exact .refl _
    exact ⟨hI.placement.congr (.refl _) (fun _ => rfl) hother, htransit,
      hI.ledger.congr rfl rfl rfl rfl fun _ => rfl, hengine⟩

omit [DecidableEq τ] in
/-- A load registers its tag and is queued. -/
theorem CoreInv.load (hI : CoreInv P c) (hi : Hand P c i false)
    (hop : (kindOf P i).opcode = .movin)
    (hnew : (kindOf P i).isAsyncDma = true →
      c.dma.tag (c.heap.inst i).subgraphId (c.heap.inst i).tagKey = none) :
    CoreInv P { c.registerTag i with ldInstQueue := c.ldInstQueue ++ [i] } := by
  obtain ⟨hI₁, hhand⟩ := hI.registerTag i
  have hi₁ := hhand i false hi
  have hperm : ({ c.registerTag i with ldInstQueue := c.ldInstQueue ++ [i] } :
      Core τ ι).transit.Perm (i :: (c.registerTag i).transit) := by
    rw [List.perm_iff_count]
    intro a
    simp only [Core.transit, List.count_append, List.count_cons, List.count_nil]
    change _ = (c.ldInstQueue.count a + c.stInstQueue.count a + c.dma.currentInst.toList.count a +
      c.dmaWaitingQueue.count a + c.dmaFinishedQueue.count a) + _
    change (c.ldInstQueue.count a + (0 + _) + c.stInstQueue.count a +
      c.dma.currentInst.toList.count a + c.dmaWaitingQueue.count a +
        c.dmaFinishedQueue.count a) = _
    omega
  suffices hmain : TransitInv P { c.registerTag i with ldInstQueue := c.ldInstQueue ++ [i] } ∧
      ∀ g key, elsewhere P { c.registerTag i with ldInstQueue := c.ldInstQueue ++ [i] }
        (.waiter g key) = elsewhere P (c.registerTag i) (.waiter g key) by
    refine hI₁.putIn (p := .ld) hi₁ (by simp) rfl hop rfl rfl rfl hmain.1 hI₁.engine ?_
      fun r hr => ?_
    · change (c.ldInstQueue ++ [i]).Perm (i :: c.ldInstQueue)
      exact List.perm_append_singleton i _
    · cases r with
      | ld => exact absurd rfl hr
      | waiter g key => rw [hmain.2 g key]
      | _ => exact .refl _
  cases ha : (kindOf P i).isAsyncDma with
  | false =>
      have hflights := (flights_leave (P := P) hperm (by simp [loadTag, ha])).symm
      exact ⟨hI₁.transit.congr hflights fun _ _ h => h,
        fun g key => elsewhere_waiter hflights rfl g key⟩
  | true =>
      have hflights := flights_cons hperm (hI.loadTag_eq hop ha)
      have hgone : ((c.heap.inst i).subgraphId, (c.heap.inst i).tagKey) ∉
          flights P (c.registerTag i) := by
        intro hk
        have hknown := hI.transit.known _ hk
        rw [hnew ha] at hknown
        cases hknown
      have hword : (c.registerTag i).dma.tag (c.heap.inst i).subgraphId
          (c.heap.inst i).tagKey = some 0 := by
        change (c.dma.storeTag _ _ 0).tag _ _ = some 0
        rw [DMA.tag_storeTag, if_pos ⟨rfl, rfl⟩]
      have hempty : (c.registerTag i).dma.waiters (c.heap.inst i).subgraphId
          (c.heap.inst i).tagKey = [] := by
        change Function.update c.dma.waiters _ (Function.update (c.dma.waiters _) _ []) _ _ = _
        rw [update_waiters, if_pos ⟨rfl, rfl⟩]
      refine ⟨⟨?_, fun k hk => ?_⟩, fun g key => ?_⟩
      · exact hflights.nodup_iff.mpr (List.nodup_cons.mpr ⟨hgone, hI₁.transit.unique⟩)
      · rcases List.mem_cons.mp (hflights.mem_iff.mp hk) with rfl | hk
        · change ((c.registerTag i).dma.tag _ _).isSome = true
          rw [hword]
          rfl
        · exact hI₁.transit.known k hk
      · have hcases : elsewhere P { c.registerTag i with ldInstQueue := c.ldInstQueue ++ [i] }
            (.waiter g key) = if (g, key) ∈ ((c.heap.inst i).subgraphId, (c.heap.inst i).tagKey) ::
              flights P (c.registerTag i) then (c.registerTag i).dma.waiters g key else [] := by
          unfold elsewhere
          simp only [hflights.mem_iff]
        have hold : elsewhere P (c.registerTag i) (.waiter g key) =
            if (g, key) ∈ flights P (c.registerTag i) then (c.registerTag i).dma.waiters g key
            else [] := rfl
        rw [hcases, hold]
        by_cases heq : (g, key) = ((c.heap.inst i).subgraphId, (c.heap.inst i).tagKey)
        · obtain ⟨rfl, rfl⟩ := Prod.mk.inj heq
          rw [if_pos List.mem_cons_self, if_neg hgone, hempty]
        · simp only [List.mem_cons, heq, false_or]

omit [DecidableEq τ] in
/-- A store is queued. -/
theorem CoreInv.store (hI : CoreInv P c) (hi : Hand P c i false)
    (hop : (kindOf P i).opcode = .movout) :
    CoreInv P { c with stInstQueue := c.stInstQueue ++ [i] } := by
  have hperm : ({ c with stInstQueue := c.stInstQueue ++ [i] } : Core τ ι).transit.Perm
      (i :: c.transit) := by
    rw [List.perm_iff_count]
    intro a
    simp only [Core.transit, List.count_append, List.count_cons, List.count_nil]
    omega
  have hflights := (flights_leave (P := P) hperm (by simp [loadTag, hop])).symm
  refine hI.putIn (p := .st) hi (by simp) rfl hop rfl rfl rfl
    (hI.transit.congr hflights fun _ _ h => h) hI.engine ?_ fun r hr => ?_
  · change (c.stInstQueue ++ [i]).Perm (i :: c.stInstQueue)
    exact List.perm_append_singleton i _
  · cases r with
    | st => exact absurd rfl hr
    | waiter g key => rw [elsewhere_waiter hflights rfl]
    | _ => exact .refl _

omit [DecidableEq τ] in
/-- A compute instruction enters a pipeline. -/
theorem CoreInv.push (hI : CoreInv P c) (hi : Hand P c i false)
    (hop : (kindOf P i).opcode = .comp) (p : Core.Pipeline) : CoreInv P (c.pushPipeline p i) := by
  have hpipe : ∀ q, (c.pushPipeline p i).pipeline q =
      if q = p then c.pipeline p ++ [i] else c.pipeline q := by
    intro q
    exact Core.pipeline_setPipeline _ _ _ _
  refine hI.putIn (p := .pipe p) hi (by simp) rfl hop ?_ ?_ ?_ ?_ ?_ ?_ fun r hr => ?_
  · cases p <;> rfl
  · cases p <;> rfl
  · cases p <;> rfl
  · cases p <;> exact hI.transit.congr (.refl _) fun _ _ h => h
  · cases p <;> exact hI.engine
  · change ((c.pushPipeline p i).pipeline p).Perm (i :: c.pipeline p)
    rw [hpipe, if_pos rfl]
    exact List.perm_append_singleton i _
  · cases r with
    | pipe q =>
        change ((c.pushPipeline p i).pipeline q).Perm (c.pipeline q)
        rw [hpipe, if_neg fun heq => hr (congrArg Place.pipe heq)]
    | _ => cases p <;> exact .refl _

/-- **The issue switch keeps the invariant.** -/
theorem IssueEffect.inv (h : IssueEffect i c c') (hI : CoreInv P c) (hi : Hand P c i false) :
    CoreInv P c' := by
  have hop := hI.opcode i
  cases h with
  | sparseLoad hopc hs =>
      obtain ⟨hI₁, hhand₁⟩ := hI.registerTag i
      obtain ⟨hI₂, hhand₂⟩ := hI₁.setTag (c.heap.inst i).subgraphId (c.heap.inst i).tagKey sparseTag
      exact (hI₂.finishHand (hhand₂ _ _ (hhand₁ _ _ hi))).1
  | knownLoad v hopc hs ha htag hv => exact (hI.finishHand hi).1
  | awaitedLoad hopc hs ha htag => exact hI.addWaiter hi (.inl (hop.symm.trans hopc))
  | load hopc hs hnew =>
      exact hI.load hi (hop.symm.trans hopc) fun ha => hnew ((hI.isAsync i).trans ha)
  | store hopc => exact hI.store hi (hop.symm.trans hopc)
  | comp p hopc hcycle =>
      obtain ⟨hI₁, hhand⟩ := hI.setTimes p i
      exact hI₁.push (hhand i false hi) (hop.symm.trans hopc) p
  | compZero p hopc hcycle =>
      obtain ⟨hI₁, hhand⟩ := hI.setTimes p i
      exact (hI₁.finishHand (hhand i false hi)).1
  | barSparse hopc htag =>
      obtain ⟨hI₁, hhand⟩ := hI.setHeap (.skipMatmuls c.heap (c.heap.inst i).childInst)
        (CoreHeap.skipMatmuls_spec _ _).1
      exact (hI₁.finishHand (hhand i false hi)).1
  | barReady v hopc htag hv hs =>
      obtain ⟨hI₁, hhand⟩ := hI.setTag (c.heap.inst i).subgraphId (c.heap.inst i).tagKey
        ((v + 1) % 2 ^ 32)
      exact (hI₁.finishHand (hhand i false hi)).1
  | barWait hopc htag => exact hI.addWaiter hi (.inr (hop.symm.trans hopc))

theorem IssueStep.inv (h : IssueStep c c') (hI : CoreInv P c) : CoreInv P c' := by
  obtain ⟨t, i, -, hq, heffect⟩ := h
  obtain ⟨hI₁, hhand⟩ := hI.take hq
  exact heffect.inv hI₁ hhand

/-! ## Between the cycles -/

/-- A new tile is given to the core. -/
theorem CoreInv.issue (hI : CoreInv P c) (ht : t ∉ c.issuedTiles) : CoreInv P (c.issue t) := by
  obtain ⟨hinst, htile⟩ := CoreHeap.foldl_enqueueReady (c.heap.tile t).instructions c.heap t
  rw [hI.placement.insts t] at hinst htile
  have hheap : (c.issue t).heap = (instsOf P t).foldl
      (fun h i => if (h.inst i).isReady then h.enqueueReady t i else h) c.heap := by
    rw [← hI.placement.insts t]
    rfl
  have hissued : (c.issue t).issuedTiles = c.issuedTiles ++ [t] := Core.issuedTiles_log _ _
  have hreported : (c.issue t).reportedTiles = c.reportedTiles :=
    (Core.reportedTiles_log _ _).trans (List.append_nil _)
  have hcalls : (c.issue t).finishCalls = c.finishCalls :=
    (Core.finishCalls_log _ _).trans (List.append_nil _)
  have hother : elsewhere P (c.issue t) = elsewhere P c := by
    funext r
    cases r <;> rfl
  refine ⟨?_, hI.transit.congr (.refl _) fun _ _ h => h, ⟨?_, ?_, fun u hu i hi => ?_, ?_,
    fun i => ?_⟩, hI.engine⟩
  · rw [hissued, hother, hheap]
    exact hI.placement.issue ht hinst htile
  · rw [hissued, ← List.concat_eq_append]
    exact hI.ledger.issued_nodup.concat ht
  · rw [hissued, hreported]
    have hsplit := hI.ledger.split
    rw [List.perm_iff_count] at hsplit ⊢
    intro a
    have ha := hsplit a
    simp only [List.count_append] at ha ⊢
    change (c.tiles ++ [t]).count a + _ = _
    rw [List.count_append]
    omega
  · rw [hreported] at hu
    rw [hheap, hinst]
    exact hI.ledger.reported_done u hu i hi
  · rw [hcalls]
    exact hI.ledger.calls_nodup
  · rw [hcalls, hheap, hinst]
    exact hI.ledger.calls i

/-- The answer to a request of an instruction arrives. -/
theorem CoreInv.response (hI : CoreInv P c) (r : MemFetch ι) :
    CoreInv P (c.pushMemoryResponse r) := by
  have hcount : ∀ n stats, CoreInv P { c with
      heap := c.heap.setInst r.customData { c.heap.inst r.customData with nrWaitingRequest := n }
      stats := stats } := by
    intro n stats
    refine hI.frame (.setInst rfl rfl rfl) (fun _ => rfl) ?_ rfl rfl rfl rfl hI.engine
    funext q
    cases q <;> rfl
  unfold Core.pushMemoryResponse
  by_cases h : (c.heap.inst r.customData).decWaitingRequest = 0 ∧
      r.customData ∈ c.dmaWaitingQueue
  · simp only [if_pos h]
    have hmem : r.customData ∈ elsewhere P c .waiting := h.2
    have hperm : ∀ d : Core τ ι, d.ldInstQueue = c.ldInstQueue → d.stInstQueue = c.stInstQueue →
        d.dma = c.dma → d.dmaFinishedQueue = c.dmaFinishedQueue ++ [r.customData] →
        d.dmaWaitingQueue = c.dmaWaitingQueue.erase r.customData →
        (flights P d).Perm (flights P c) := by
      intro d hld hst hdma hfinished hwaiting
      have herase := List.perm_iff_count.mp (List.perm_cons_erase h.2)
      apply flights_perm
      rw [List.perm_iff_count]
      intro a
      have ha := herase a
      simp only [Core.transit, hld, hst, hdma, hfinished, hwaiting, List.count_append,
        List.count_cons, List.count_nil] at ha ⊢
      omega
    refine (hcount _ c.stats).move (p := .waiting) (q := .arrived)
      ⟨hperm _ rfl rfl rfl rfl rfl, rfl, rfl, rfl, hI.engine⟩ (.refl _) (fun _ => rfl)
      (by simp) hmem (by simp) (by simp) rfl
      (hI.placement.fits .waiting _ hmem) (perm_update₂ (by simp) ?_ ?_ fun q hq hq' => ?_)
    · exact List.perm_append_singleton _ _
    · exact .refl _
    · cases q with
      | waiting => exact absurd rfl hq
      | arrived => exact absurd rfl hq'
      | waiter g key =>
          apply List.Perm.of_eq
          apply elsewhere_waiter
          · exact hperm _ rfl rfl rfl rfl rfl
          · rfl
      | _ => exact .refl _
  · simp only [if_neg h]
    exact hcount _ _

theorem OuterStep.inv (h : OuterStep c c') (hI : CoreInv P c) : CoreInv P c' := by
  cases h with
  | issue t ht => exact hI.issue ht
  | popFinishedTile =>
      unfold Core.popFinishedTile
      split
      · exact hI
      · refine hI.frame (.refl _) (fun _ => rfl) ?_ rfl rfl rfl rfl hI.engine
        funext r
        cases r <;> rfl
  | popMemoryRequest r rest hq =>
      refine hI.frame (.refl _) (fun _ => rfl) ?_ rfl rfl rfl rfl hI.engine
      funext r
      cases r <;> rfl
  | pushMemoryResponse r => exact hI.response r

/-- **Every step of a core keeps the invariant.** -/
theorem CoreStep.inv {cfg : CoreConfig} (h : CoreStep cfg c c') (hI : CoreInv P c) :
    CoreInv P c' := by
  rcases h with h | h | h
  · exact h.inv hI
  · exact h.inv hI
  · exact h.inv hI

omit [DecidableEq τ] in
/-- A core that has been given no tile. -/
theorem CoreInv.init (P : TileProgram τ ι) : CoreInv P ({ heap := P.heap } : Core τ ι) := by
  have hempty : places P.heap (elsewhere P ({ heap := P.heap } : Core τ ι)) = fun _ => [] := by
    funext r
    cases r with
    | ready t => exact P.readyQueue t
    | pipe p => cases p <;> rfl
    | waiter g key =>
        change (if (g, key) ∈ ([] : List (ℕ × List ℤ)) then [] else []) = []
        exact if_neg List.not_mem_nil
    | _ => rfl
  have hnone : ∀ {α : Prop} (r : Place τ) (i : ι),
      i ∈ places P.heap (elsewhere P ({ heap := P.heap } : Core τ ι)) r → α := by
    intro α r i hi
    rw [hempty] at hi
    exact absurd hi List.not_mem_nil
  refine ⟨⟨fun _ => rfl, fun _ => rfl, P.nrInsts, fun t => ?_, ?_, fun r i hi => hnone r i hi,
    fun t i hi => hnone (.ready t) i hi, fun r i hi => hnone r i hi, fun r i hi => hnone r i hi,
    fun r i hi => hnone r i hi, fun t j hj => ?_, fun i hi => ?_, fun i _ => P.finished i⟩, ?_, ?_, ?_⟩
  · rw [P.nrFinishedInsts t, eq_comm, List.countP_eq_zero]
    intro i _
    change ¬ (P.heap.inst i).finished = true
    rw [P.finished i]
    exact Bool.false_ne_true
  · rw [hempty]
    exact Exclusive.empty
  · refine le_trans (List.countP_mono_left fun i _ hi => ?_) (P.readyCounter t j hj)
    simp only [Bool.and_eq_true] at hi
    exact hi.2
  · rw [P.finished i] at hi
    cases hi
  · exact ⟨List.nodup_nil, fun _ hk => absurd hk List.not_mem_nil⟩
  · refine ⟨List.nodup_nil, .refl _, fun _ ht => absurd ht List.not_mem_nil, List.nodup_nil,
      fun i => ?_⟩
    change i ∈ [] ↔ (P.heap.inst i).finished = true
    rw [P.finished i]
    simp
  · exact ⟨nofun, nofun, nofun, fun _ => rfl⟩

end PyTorchSim.Analysis
