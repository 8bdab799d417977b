import PyTorchSim.Analysis.Completion
import PyTorchSim.Model.CorePath

/-!
# The ledger of the DMA engine

`nrWaitingRequest` of an instruction counts its requests from the moment the engine makes them:
those that the engine still holds, those in the request queue, and those that left the core and
are not answered.  `DmaInv` says this for a core whose requests outside are given by two
functions: `out` counts them, and `late` says that the caches have not taken one of them.

The engine passes an instruction on one cycle after it made the last request of it.  Until then
`late`, or a request in the queue, keeps the count of the instruction positive.
-/

set_option autoImplicit false

namespace PyTorchSim.Analysis

open PyTorchSim.Model PyTorchSim.Library

variable {τ ι : Type} [DecidableEq τ] [DecidableEq ι] {P : TileProgram τ ι} {cfg : CoreConfig}
  {c c' : Core τ ι} {i : ι} {t : τ}

/-! ## The requests of an instruction -/

theorem length_elementIndices (l : List ℕ) :
    (Instruction.elementIndices l).length = l.prod := by
  induction l with
  | nil => rfl
  | cons n ns ih =>
      unfold Instruction.elementIndices
      rw [List.length_flatMap, List.prod_cons]
      simp [ih]

theorem padLeft4_pos {l : List ℕ} (hl : ∀ n ∈ l, 0 < n) :
    ∀ n ∈ Instruction.padLeft4 1 l, 0 < n := by
  intro n hn
  rcases List.mem_append.mp hn with hn | hn
  · rw [List.eq_of_mem_replicate hn]
    exact Nat.one_pos
  · exact hl n hn

omit [DecidableEq τ] [DecidableEq ι] in
/-- A tile with an element has a request. -/
theorem memFetches_ne_nil {env : CycleEnv} {inst : Instruction τ ι}
    (hsizes : ∀ n ∈ inst.tileSize, 0 < n) : Core.memFetches cfg env i inst ≠ [] := by
  have hprod : 0 < (Instruction.padLeft4 1 inst.tileSize).prod := by
    exact List.prod_pos_iff_forall_pos_nat.mpr (padLeft4_pos hsizes)
  have hlen := length_elementIndices (Instruction.padLeft4 1 inst.tileSize)
  unfold Core.memFetches
  rw [ne_eq, List.map_eq_nil_iff, ← List.length_eq_zero_iff]
  unfold Instruction.getDramAddress
  rw [List.length_insertionSort, List.length_eq_zero_iff, List.dedup_eq_nil]
  split
  · rw [List.map_eq_nil_iff, ← List.length_eq_zero_iff]
    omega
  · rename_i vs hvs
    split at hvs
    · obtain ⟨-, hcount⟩ := Option.filter_eq_some_iff.mp hvs
      rw [decide_eq_true_eq] at hcount
      rw [← List.length_eq_zero_iff, List.length_zipWith]
      omega
    · cases hvs

omit [DecidableEq τ] [DecidableEq ι] in
theorem customData_memFetches {env : CycleEnv} {inst : Instruction τ ι} :
    ∀ r ∈ Core.memFetches cfg env i inst, r.customData = i := by
  intro r hr
  obtain ⟨addr, -, rfl⟩ := List.mem_map.mp hr
  rfl

omit [DecidableEq τ] in
/-- All requests that the engine makes at once are of one instruction. -/
theorem countP_memFetches {env : CycleEnv} {inst : Instruction τ ι} (j : ι) :
    (Core.memFetches cfg env i inst).countP (·.customData = j) =
      if j = i then (Core.memFetches cfg env i inst).length else 0 := by
  split
  · rename_i hj
    refine List.countP_eq_length.mpr fun r hr => ?_
    rw [customData_memFetches r hr, hj]
    exact decide_eq_true rfl
  · rename_i hj
    refine List.countP_eq_zero.mpr fun r hr => ?_
    rw [customData_memFetches r hr, decide_eq_true_eq]
    exact fun h => hj h.symm

/-- The requests of an instruction that did not leave the core. -/
def unsent (c : Core τ ι) (i : ι) : ℕ :=
  c.dma.pendingAccesses.countP (·.customData = i) + c.requestQueue.countP (·.customData = i)

/-- The ledger of the DMA engine. -/
structure DmaInv (c : Core τ ι) (out : ι → ℕ) (late : ι → Prop) : Prop where
  count : ∀ i, (c.heap.inst i).nrWaitingRequest = unsent c i + out i
  outside : ∀ i, late i → 0 < out i
  waiting : ∀ i ∈ c.dmaWaitingQueue, 0 < (c.heap.inst i).nrWaitingRequest
  owner : ∀ i, 0 < (c.heap.inst i).nrWaitingRequest → i ∈ c.dmaWaitingQueue ∨
    (c.dma.currentInst = some i ∧ (c.dma.generatedOnce = true ∨ c.dma.finished = true))
  pending : c.dma.generatedOnce = true → c.dma.pendingAccesses ≠ []
  current : ∀ r ∈ c.dma.pendingAccesses, c.dma.currentInst = some r.customData
  last : ∀ i, c.dma.finished = true → c.dma.currentInst = some i →
    (∃ r ∈ c.requestQueue, r.customData = i) ∨ late i
  sizes : ∀ i, (c.heap.inst i).opcode = .movin ∨ (c.heap.inst i).opcode = .movout →
    ∀ n ∈ (c.heap.inst i).tileSize, 0 < n

/-- Two heaps whose instructions have the same requests to make and to wait for. -/
def SameLoad (h h' : CoreHeap τ ι) : Prop :=
  ∀ i, (h'.inst i).opcode = (h.inst i).opcode ∧ (h'.inst i).tileSize = (h.inst i).tileSize ∧
    (h'.inst i).nrWaitingRequest = (h.inst i).nrWaitingRequest

namespace SameLoad

omit [DecidableEq τ] [DecidableEq ι] in
theorem refl (h : CoreHeap τ ι) : SameLoad h h := fun _ => ⟨rfl, rfl, rfl⟩

omit [DecidableEq τ] [DecidableEq ι] in
theorem trans {h h' h'' : CoreHeap τ ι} (h₁ : SameLoad h h') (h₂ : SameLoad h' h'') :
    SameLoad h h'' := fun i =>
  ⟨(h₂ i).1.trans (h₁ i).1, (h₂ i).2.1.trans (h₁ i).2.1, (h₂ i).2.2.trans (h₁ i).2.2⟩

omit [DecidableEq τ] in
theorem setInst {h : CoreHeap τ ι} {v : Instruction τ ι} (hop : v.opcode = (h.inst i).opcode)
    (hsize : v.tileSize = (h.inst i).tileSize)
    (hcount : v.nrWaitingRequest = (h.inst i).nrWaitingRequest) :
    SameLoad h (h.setInst i v) := by
  intro j
  by_cases hj : j = i
  · subst hj
    rw [CoreHeap.setInst_inst_self]
    exact ⟨hop, hsize, hcount⟩
  · rw [CoreHeap.setInst_inst_of_ne _ _ hj]
    exact ⟨rfl, rfl, rfl⟩

theorem decReadyCounter (h : CoreHeap τ ι) (i : ι) : SameLoad h (h.decReadyCounter i) := by
  have hset : SameLoad h
      (h.setInst i { h.inst i with readyCounter := (h.inst i).decremented }) :=
    setInst rfl rfl rfl
  unfold CoreHeap.decReadyCounter
  dsimp only
  split
  · exact hset
  · exact hset

theorem finish (h : CoreHeap τ ι) (i : ι) : SameLoad h (h.finish i) := by
  have hfold : ∀ (l : List ι) (h : CoreHeap τ ι),
      SameLoad h (l.foldl CoreHeap.decReadyCounter h) := by
    intro l
    induction l with
    | nil => exact refl
    | cons j l ih => exact fun h => (decReadyCounter h j).trans (ih _)
  exact (hfold (h.inst i).childInst h).trans (setInst rfl rfl rfl)

omit [DecidableEq τ] in
theorem skipMatmuls (h : CoreHeap τ ι) (l : List ι) : SameLoad h (Core.skipMatmuls h l) := by
  intro j
  obtain ⟨n, hn⟩ := (CoreHeap.skipMatmuls_spec l h).2 j
  rw [hn]
  exact ⟨rfl, rfl, rfl⟩

end SameLoad

/-- The engine, its requests and the list of waiting instructions stay as they are. -/
structure SameEngine (c c' : Core τ ι) : Prop where
  load : SameLoad c.heap c'.heap
  currentInst : c'.dma.currentInst = c.dma.currentInst
  generatedOnce : c'.dma.generatedOnce = c.dma.generatedOnce
  finished : c'.dma.finished = c.dma.finished
  pendingAccesses : c'.dma.pendingAccesses = c.dma.pendingAccesses
  requestQueue : c'.requestQueue = c.requestQueue
  waiting : c'.dmaWaitingQueue = c.dmaWaitingQueue

namespace SameEngine

omit [DecidableEq τ] [DecidableEq ι] in
theorem trans {c'' : Core τ ι} (h : SameEngine c c') (h' : SameEngine c' c'') :
    SameEngine c c'' :=
  ⟨h.load.trans h'.load, h'.currentInst.trans h.currentInst,
    h'.generatedOnce.trans h.generatedOnce, h'.finished.trans h.finished,
    h'.pendingAccesses.trans h.pendingAccesses, h'.requestQueue.trans h.requestQueue,
    h'.waiting.trans h.waiting⟩

theorem finish (c : Core τ ι) (i : ι) : SameEngine c (c.finish i) :=
  ⟨.finish c.heap i, rfl, rfl, rfl, rfl, rfl, rfl⟩

theorem finishAll (ws : List ι) (c : Core τ ι) : SameEngine c (ws.foldl Core.finish c) := by
  induction ws generalizing c with
  | nil => exact ⟨.refl _, rfl, rfl, rfl, rfl, rfl, rfl⟩
  | cons w ws ih => exact (finish c w).trans (ih _)

omit [DecidableEq τ] [DecidableEq ι] in
theorem setTag (c : Core τ ι) (g : ℕ) (key : List ℤ) (v : ℕ) : SameEngine c (c.setTag g key v) :=
  ⟨.refl _, rfl, rfl, rfl, rfl, rfl, rfl⟩

omit [DecidableEq τ] [DecidableEq ι] in
theorem registerTag (c : Core τ ι) (i : ι) : SameEngine c (c.registerTag i) :=
  ⟨.refl _, rfl, rfl, rfl, rfl, rfl, rfl⟩

omit [DecidableEq τ] in
theorem setTimes (c : Core τ ι) (p : Core.Pipeline) (i : ι) : SameEngine c (c.setTimes p i) :=
  ⟨.setInst rfl rfl rfl, rfl, rfl, rfl, rfl, rfl, rfl⟩

omit [DecidableEq τ] [DecidableEq ι] in
theorem pushPipeline (c : Core τ ι) (p : Core.Pipeline) (i : ι) :
    SameEngine c (c.pushPipeline p i) := by
  cases p <;> exact ⟨.refl _, rfl, rfl, rfl, rfl, rfl, rfl⟩

omit [DecidableEq τ] [DecidableEq ι] in
theorem popPipeline (c : Core τ ι) (p : Core.Pipeline) : SameEngine c (c.popPipeline p) := by
  cases p <;> exact ⟨.refl _, rfl, rfl, rfl, rfl, rfl, rfl⟩

omit [DecidableEq ι] in
theorem take (c : Core τ ι) (t : τ) (i : ι) : SameEngine c (c.take t i) :=
  ⟨fun _ => ⟨rfl, rfl, rfl⟩, rfl, rfl, rfl, rfl, rfl, rfl⟩

end SameEngine

/-- The counts of the requests, and the instructions that wait for them. -/
structure DmaLoad (c : Core τ ι) (out : ι → ℕ) : Prop where
  count : ∀ i, (c.heap.inst i).nrWaitingRequest = unsent c i + out i
  owner : ∀ i, 0 < (c.heap.inst i).nrWaitingRequest → i ∈ c.dmaWaitingQueue ∨
    (c.dma.currentInst = some i ∧ (c.dma.generatedOnce = true ∨ c.dma.finished = true))
  current : ∀ r ∈ c.dma.pendingAccesses, c.dma.currentInst = some r.customData

namespace DmaLoad

variable {out : ι → ℕ}

omit [DecidableEq τ] in
theorem congr (hL : DmaLoad c out) (h : SameEngine c c') : DmaLoad c' out := by
  have hunsent : ∀ i, unsent c' i = unsent c i := by
    intro i
    unfold unsent
    rw [h.pendingAccesses, h.requestQueue]
  refine ⟨fun i => ?_, fun i hi => ?_, fun r hr => ?_⟩
  · rw [(h.load i).2.2, hunsent]
    exact hL.count i
  · rw [(h.load i).2.2] at hi
    rw [h.waiting, h.currentInst, h.generatedOnce, h.finished]
    exact hL.owner i hi
  · rw [h.pendingAccesses] at hr
    rw [h.currentInst]
    exact hL.current r hr

omit [DecidableEq τ] in
/-- A core that has been given no tile. -/
theorem init : DmaLoad ({ heap := P.heap } : Core τ ι) fun _ => 0 :=
  ⟨P.nrWaitingRequest, fun i hi => absurd hi (by rw [P.nrWaitingRequest]; exact Nat.lt_irrefl 0),
    fun _ h => absurd h List.not_mem_nil⟩

omit [DecidableEq τ] in
/-- An instruction that has not made its requests waits for none. -/
theorem fresh (hL : DmaLoad c out) (hI : CoreInv P c) (hcur : c.dma.currentInst = some i)
    (hgen : c.dma.generatedOnce = false) (hfin : c.dma.finished = false) :
    (c.heap.inst i).nrWaitingRequest = 0 := by
  by_contra hne
  rcases hL.owner i (Nat.pos_of_ne_zero hne) with hwait | ⟨-, hgen' | hfin'⟩
  · exact hI.not_waiting hcur hwait
  · rw [hgen] at hgen'
    cases hgen'
  · rw [hfin] at hfin'
    cases hfin'

omit [DecidableEq τ] in
/-- The current instruction leaves the engine before it has made a request. -/
theorem leave (hL : DmaLoad c out) (hI : CoreInv P c) (hssd : c.dma.ssdPending = true)
    (hload : SameLoad c.heap c'.heap) (hdma : c'.dma = c.dma.endSsd)
    (hqueue : c'.requestQueue = c.requestQueue)
    (hwait : c'.dmaWaitingQueue = c.dmaWaitingQueue) : DmaLoad c' out := by
  obtain ⟨hfin, hgen⟩ := hI.engine.ssd hssd
  have hnone := hI.engine.accesses hgen
  have hunsent : ∀ i, unsent c' i = unsent c i := by
    intro i
    unfold unsent
    rw [hdma, hqueue]
    rfl
  refine ⟨fun i => ?_, fun i hi => ?_, fun r hr => ?_⟩
  · rw [(hload i).2.2, hunsent]
    exact hL.count i
  · rw [(hload i).2.2] at hi
    rw [hwait]
    rcases hL.owner i hi with h | ⟨-, h | h⟩
    · exact .inl h
    · rw [hgen] at h
      cases h
    · rw [hfin] at h
      cases h
  · rw [hdma] at hr
    change r ∈ c.dma.pendingAccesses at hr
    rw [hnone] at hr
    cases hr

omit [DecidableEq τ] in
/-- An engine that has passed on its instruction has no requests to make. -/
theorem settled_engine (hI : CoreInv P c) (hfin : c.dma.finished = true) :
    c.dma.generatedOnce = false ∧ c.dma.pendingAccesses = [] := by
  have hgen : c.dma.generatedOnce = false := by
    by_contra hgen
    rw [Bool.not_eq_false] at hgen
    rw [hI.engine.once hgen] at hfin
    cases hfin
  exact ⟨hgen, hI.engine.accesses hgen⟩

omit [DecidableEq τ] in
/-- The current instruction, all of whose requests are made, joins the waiting ones. -/
theorem retire (hL : DmaLoad c out) (hI : CoreInv P c) (hfin : c.dma.finished = true)
    (hcur : c.dma.currentInst = some i) (hload : SameLoad c.heap c'.heap)
    (hdma : c'.dma = { c.dma with currentInst := none })
    (hqueue : c'.requestQueue = c.requestQueue)
    (hwait : c'.dmaWaitingQueue = c.dmaWaitingQueue.insert i) : DmaLoad c' out := by
  obtain ⟨-, hnone⟩ := settled_engine hI hfin
  have hunsent : ∀ i, unsent c' i = unsent c i := by
    intro i
    unfold unsent
    rw [hdma, hqueue]
  refine ⟨fun j => ?_, fun j hj => ?_, fun r hr => ?_⟩
  · rw [(hload j).2.2, hunsent]
    exact hL.count j
  · rw [(hload j).2.2] at hj
    rw [hwait, List.mem_insert_iff]
    rcases hL.owner j hj with h | ⟨h, -⟩
    · exact .inl (.inr h)
    · rw [hcur] at h
      exact .inl (.inl (Option.some.inj h).symm)
  · rw [hdma] at hr
    change r ∈ c.dma.pendingAccesses at hr
    rw [hnone] at hr
    cases hr

omit [DecidableEq τ] in
/-- The engine takes an instruction. -/
theorem start (hL : DmaLoad c out) (hI : CoreInv P c) (hfin : c.dma.finished = true)
    (hcur : c.dma.currentInst = none) (hheap : c'.heap = c.heap)
    (hdma : c'.dma = { c.dma with
      currentInst := some i, ssdPending := false, ssdFinishCycle := 0, finished := false })
    (hqueue : c'.requestQueue = c.requestQueue)
    (hwait : c'.dmaWaitingQueue = c.dmaWaitingQueue) : DmaLoad c' out := by
  obtain ⟨-, hnone⟩ := settled_engine hI hfin
  have hunsent : ∀ i, unsent c' i = unsent c i := by
    intro i
    unfold unsent
    rw [hdma, hqueue]
  refine ⟨fun j => ?_, fun j hj => ?_, fun r hr => ?_⟩
  · rw [hheap, hunsent]
    exact hL.count j
  · rw [hheap] at hj
    rw [hwait]
    rcases hL.owner j hj with h | ⟨h, -⟩
    · exact .inl h
    · rw [hcur] at h
      cases h
  · rw [hdma] at hr
    change r ∈ c.dma.pendingAccesses at hr
    rw [hnone] at hr
    cases hr

omit [DecidableEq τ] in
/-- The engine makes the requests of its instruction. -/
theorem generate {env : CycleEnv} (hL : DmaLoad c out) (hI : CoreInv P c)
    (hcur : c.dma.currentInst = some i) (hgen : c.dma.generatedOnce = false) :
    DmaLoad { c with
        heap := c.heap.setInst i { c.heap.inst i with
          tileSize := Instruction.padLeft4 1 (c.heap.inst i).tileSize
          tileStride := Instruction.padLeft4 0 (c.heap.inst i).tileStride
          nrWaitingRequest := (c.heap.inst i).nrWaitingRequest +
            (Core.memFetches cfg env i (c.heap.inst i)).length }
        dma := { c.dma with
          pendingAccesses := c.dma.pendingAccesses ++ Core.memFetches cfg env i (c.heap.inst i)
          generatedOnce := true } } out := by
  have hnone := hI.engine.accesses hgen
  refine ⟨fun j => ?_, fun j hj => ?_, fun r hr => ?_⟩
  · have hcount := hL.count j
    unfold unsent at hcount ⊢
    dsimp only
    rw [List.countP_append, countP_memFetches]
    by_cases hj : j = i
    · subst hj
      rw [CoreHeap.setInst_inst_self, if_pos rfl]
      dsimp only
      omega
    · rw [CoreHeap.setInst_inst_of_ne _ _ hj, if_neg hj]
      omega
  · by_cases hji : j = i
    · subst hji
      exact .inr ⟨hcur, .inl rfl⟩
    · change 0 < ((c.heap.setInst i _).inst j).nrWaitingRequest at hj
      rw [CoreHeap.setInst_inst_of_ne _ _ hji] at hj
      rcases hL.owner j hj with h | ⟨h, -⟩
      · exact .inl h
      · rw [hcur] at h
        exact absurd (Option.some.inj h).symm hji
  · change r ∈ c.dma.pendingAccesses ++ _ at hr
    rw [hnone, List.nil_append] at hr
    rw [customData_memFetches r hr]
    exact hcur

omit [DecidableEq τ] in
/-- The engine puts requests in the queue. -/
theorem inject (hL : DmaLoad c out) (n : ℕ) :
    DmaLoad { c with
        dma := { c.dma with
          pendingAccesses := c.dma.pendingAccesses.drop n
          finished := if (c.dma.pendingAccesses.drop n).isEmpty then true else c.dma.finished
          generatedOnce :=
            if (c.dma.pendingAccesses.drop n).isEmpty then false else c.dma.generatedOnce }
        requestQueue := c.requestQueue ++ c.dma.pendingAccesses.take n } out := by
  refine ⟨fun j => ?_, fun j hj => ?_, fun r hr => hL.current r (List.mem_of_mem_drop hr)⟩
  · have hcount := hL.count j
    have hsplit : c.dma.pendingAccesses.countP (·.customData = j) =
        (c.dma.pendingAccesses.take n).countP (·.customData = j) +
          (c.dma.pendingAccesses.drop n).countP (·.customData = j) := by
      rw [← List.countP_append, List.take_append_drop]
    unfold unsent at hcount ⊢
    dsimp only
    rw [List.countP_append]
    omega
  · rcases hL.owner j hj with h | ⟨h, hstage⟩
    · exact .inl h
    · refine .inr ⟨h, ?_⟩
      dsimp only
      split
      · exact .inr rfl
      · exact hstage

end DmaLoad

namespace DmaInv

variable {out : ι → ℕ} {late late' : ι → Prop}

omit [DecidableEq τ] in
/-- The counts of a ledger. -/
theorem load (hD : DmaInv c out late) : DmaLoad c out := ⟨hD.count, hD.owner, hD.current⟩

omit [DecidableEq τ] in
/-- The ledger does not depend on what is outside the engine. -/
theorem congr (hD : DmaInv c out late) (h : SameEngine c c') : DmaInv c' out late := by
  obtain ⟨hcount, howner, hcurrent⟩ := hD.load.congr h
  refine ⟨hcount, hD.outside, fun i hi => ?_, howner, fun hgen => ?_, hcurrent,
    fun i hfin hcur => ?_, fun i hop => ?_⟩
  · rw [h.waiting] at hi
    rw [(h.load i).2.2]
    exact hD.waiting i hi
  · rw [h.generatedOnce] at hgen
    rw [h.pendingAccesses]
    exact hD.pending hgen
  · rw [h.finished] at hfin
    rw [h.currentInst] at hcur
    rw [h.requestQueue]
    exact hD.last i hfin hcur
  · rw [(h.load i).1] at hop
    rw [(h.load i).2.1]
    exact hD.sizes i hop

omit [DecidableEq τ] in
/-- A core that has been given no tile. -/
theorem init (hP : ∀ i, (P.heap.inst i).opcode = .movin ∨ (P.heap.inst i).opcode = .movout →
    ∀ n ∈ (P.heap.inst i).tileSize, 0 < n) :
    DmaInv ({ heap := P.heap } : Core τ ι) (fun _ => 0) fun _ => False :=
  ⟨DmaLoad.init.count, fun _ => False.elim, fun _ h => absurd h List.not_mem_nil,
    DmaLoad.init.owner, nofun, DmaLoad.init.current, nofun, hP⟩

omit [DecidableEq τ] in
/-- An instruction that has not made its requests waits for none. -/
theorem fresh (hD : DmaInv c out late) (hI : CoreInv P c) (hcur : c.dma.currentInst = some i)
    (hgen : c.dma.generatedOnce = false) (hfin : c.dma.finished = false) :
    (c.heap.inst i).nrWaitingRequest = 0 := hD.load.fresh hI hcur hgen hfin

omit [DecidableEq τ] in
/-- The current instruction leaves the engine before it has made a request. -/
theorem leave (hD : DmaInv c out late) (hI : CoreInv P c) (hssd : c.dma.ssdPending = true)
    (hload : SameLoad c.heap c'.heap) (hdma : c'.dma = c.dma.endSsd)
    (hqueue : c'.requestQueue = c.requestQueue)
    (hwait : c'.dmaWaitingQueue = c.dmaWaitingQueue) : DmaInv c' out late := by
  obtain ⟨hcount, howner, hcurrent⟩ := hD.load.leave hI hssd hload hdma hqueue hwait
  refine ⟨hcount, hD.outside, fun i hi => ?_, howner, fun hgen' => ?_, hcurrent,
    fun i hfin' hcur' => ?_, fun i hop => ?_⟩
  · rw [hwait] at hi
    rw [(hload i).2.2]
    exact hD.waiting i hi
  · rw [hdma] at hgen'
    cases hgen'
  · rw [hdma] at hcur'
    cases hcur'
  · rw [(hload i).1] at hop
    rw [(hload i).2.1]
    exact hD.sizes i hop

omit [DecidableEq τ] in
/-- The current instruction, all of whose requests are made, joins the waiting ones. -/
theorem retire (hD : DmaInv c out late) (hI : CoreInv P c) (hfin : c.dma.finished = true)
    (hcur : c.dma.currentInst = some i) (hload : SameLoad c.heap c'.heap)
    (hdma : c'.dma = { c.dma with currentInst := none })
    (hqueue : c'.requestQueue = c.requestQueue)
    (hwait : c'.dmaWaitingQueue = c.dmaWaitingQueue.insert i) : DmaInv c' out late := by
  obtain ⟨hgen, -⟩ := DmaLoad.settled_engine hI hfin
  obtain ⟨hcount, howner, hcurrent⟩ := hD.load.retire hI hfin hcur hload hdma hqueue hwait
  have hpos : 0 < (c.heap.inst i).nrWaitingRequest := by
    rw [hD.count i]
    rcases hD.last i hfin hcur with ⟨r, hr, hri⟩ | hlate
    · have hqueued : 0 < c.requestQueue.countP (·.customData = i) :=
        List.countP_pos_iff.mpr ⟨r, hr, decide_eq_true hri⟩
      unfold unsent
      omega
    · have hout := hD.outside i hlate
      omega
  refine ⟨hcount, hD.outside, fun j hj => ?_, howner, fun hgen' => ?_, hcurrent,
    fun j hfin' hcur' => ?_, fun j hop => ?_⟩
  · rw [hwait, List.mem_insert_iff] at hj
    rw [(hload j).2.2]
    rcases hj with rfl | hj
    · exact hpos
    · exact hD.waiting j hj
  · rw [hdma] at hgen'
    change c.dma.generatedOnce = true at hgen'
    rw [hgen] at hgen'
    cases hgen'
  · rw [hdma] at hcur'
    cases hcur'
  · rw [(hload j).1] at hop
    rw [(hload j).2.1]
    exact hD.sizes j hop

omit [DecidableEq τ] in
/-- The engine takes an instruction. -/
theorem start (hD : DmaInv c out late) (hI : CoreInv P c) (hfin : c.dma.finished = true)
    (hcur : c.dma.currentInst = none) (hheap : c'.heap = c.heap)
    (hdma : c'.dma = { c.dma with
      currentInst := some i, ssdPending := false, ssdFinishCycle := 0, finished := false })
    (hqueue : c'.requestQueue = c.requestQueue)
    (hwait : c'.dmaWaitingQueue = c.dmaWaitingQueue) : DmaInv c' out late := by
  obtain ⟨hgen, -⟩ := DmaLoad.settled_engine hI hfin
  obtain ⟨hcount, howner, hcurrent⟩ := hD.load.start hI hfin hcur hheap hdma hqueue hwait
  refine ⟨hcount, hD.outside, fun j hj => ?_, howner, fun hgen' => ?_, hcurrent,
    fun j hfin' hcur' => ?_, fun j hop => ?_⟩
  · rw [hwait] at hj
    rw [hheap]
    exact hD.waiting j hj
  · rw [hdma] at hgen'
    change c.dma.generatedOnce = true at hgen'
    rw [hgen] at hgen'
    cases hgen'
  · rw [hdma] at hfin'
    cases hfin'
  · rw [hheap] at hop ⊢
    exact hD.sizes j hop

omit [DecidableEq τ] in
/-- The engine makes the requests of its instruction. -/
theorem generate {env : CycleEnv} (hD : DmaInv c out late) (hI : CoreInv P c)
    (hcur : c.dma.currentInst = some i) (hgen : c.dma.generatedOnce = false)
    (hfin : c.dma.finished = false) :
    DmaInv { c with
        heap := c.heap.setInst i { c.heap.inst i with
          tileSize := Instruction.padLeft4 1 (c.heap.inst i).tileSize
          tileStride := Instruction.padLeft4 0 (c.heap.inst i).tileStride
          nrWaitingRequest := (c.heap.inst i).nrWaitingRequest +
            (Core.memFetches cfg env i (c.heap.inst i)).length }
        dma := { c.dma with
          pendingAccesses := c.dma.pendingAccesses ++ Core.memFetches cfg env i (c.heap.inst i)
          generatedOnce := true } } out late := by
  have hop : (c.heap.inst i).opcode = .movin ∨ (c.heap.inst i).opcode = .movout := by
    rw [hI.opcode]
    exact hI.current_fits hcur
  have hfetches : Core.memFetches cfg env i (c.heap.inst i) ≠ [] :=
    memFetches_ne_nil (hD.sizes i hop)
  refine ⟨(hD.load.generate hI hcur hgen).count, hD.outside, fun j hj => ?_,
    (hD.load.generate hI hcur hgen).owner, fun _ => ?_, (hD.load.generate hI hcur hgen).current,
    fun j hfin' _ => ?_, fun j hopj => ?_⟩
  · have hj' : j ≠ i := by
      rintro rfl
      exact hI.not_waiting hcur hj
    change 0 < ((c.heap.setInst i _).inst j).nrWaitingRequest
    rw [CoreHeap.setInst_inst_of_ne _ _ hj']
    exact hD.waiting j hj
  · exact List.append_ne_nil_of_right_ne_nil _ hfetches
  · change c.dma.finished = true at hfin'
    rw [hfin] at hfin'
    cases hfin'
  · change ((c.heap.setInst i _).inst j).opcode = _ ∨ ((c.heap.setInst i _).inst j).opcode = _
      at hopj
    change ∀ n ∈ ((c.heap.setInst i _).inst j).tileSize, 0 < n
    by_cases hj : j = i
    · subst hj
      rw [CoreHeap.setInst_inst_self]
      exact padLeft4_pos (hD.sizes j hop)
    · rw [CoreHeap.setInst_inst_of_ne _ _ hj] at hopj ⊢
      exact hD.sizes j hopj

omit [DecidableEq τ] in
/-- The engine puts requests in the queue. -/
theorem inject (hD : DmaInv c out late) (hI : CoreInv P c) (hgen : c.dma.generatedOnce = true)
    (n : ℕ) :
    DmaInv { c with
        dma := { c.dma with
          pendingAccesses := c.dma.pendingAccesses.drop n
          finished := if (c.dma.pendingAccesses.drop n).isEmpty then true else c.dma.finished
          generatedOnce :=
            if (c.dma.pendingAccesses.drop n).isEmpty then false else c.dma.generatedOnce }
        requestQueue := c.requestQueue ++ c.dma.pendingAccesses.take n } out late := by
  have hload := hD.load.inject n
  refine ⟨hload.count, hD.outside, hD.waiting, hload.owner, fun hgen' => ?_, hload.current,
    fun j hfin' hcur => ?_, hD.sizes⟩
  · dsimp only at hgen' ⊢
    split at hgen'
    · cases hgen'
    · rename_i hrest
      intro hnil
      rw [hnil] at hrest
      exact hrest rfl
  · -- the last requests of the instruction are now in the queue
    dsimp only at hfin' hcur ⊢
    split at hfin'
    · rename_i hrest
      have htake : c.dma.pendingAccesses.take n = c.dma.pendingAccesses := by
        have hdrop := List.take_append_drop n c.dma.pendingAccesses
        rwa [List.isEmpty_iff.mp hrest, List.append_nil] at hdrop
      obtain ⟨r, hr⟩ := List.exists_mem_of_ne_nil _ (hD.pending hgen)
      have hri := hD.current r hr
      rw [hcur] at hri
      refine .inl ⟨r, ?_, (Option.some.inj hri).symm⟩
      rw [htake]
      exact List.mem_append_right _ hr
    · rw [hI.engine.once hgen] at hfin'
      cases hfin'

omit [DecidableEq τ] in
/-- When the engine holds no instruction all of whose requests are made, it does not matter
which requests the caches have taken. -/
theorem settled (hD : DmaInv c out late)
    (hfin : c.dma.finished = true → c.dma.currentInst = none) :
    DmaInv c out fun _ => False := by
  refine ⟨hD.count, fun _ => False.elim, hD.waiting, hD.owner, hD.pending, hD.current,
    fun i hfin' hcur => ?_, hD.sizes⟩
  rw [hfin hfin'] at hcur
  cases hcur

omit [DecidableEq τ] in
theorem setLate (hD : DmaInv c out fun _ => False) (hlate : ∀ i, late i → 0 < out i) :
    DmaInv c out late := by
  refine ⟨hD.count, hlate, hD.waiting, hD.owner, hD.pending, hD.current,
    fun i hfin hcur => ?_, hD.sizes⟩
  rcases hD.last i hfin hcur with h | h
  · exact .inl h
  · exact h.elim

end DmaInv

/-! ## The steps of a cycle -/

section Cycle

variable {out : ι → ℕ} {late : ι → Prop}

theorem UnitStep.load (h : UnitStep cfg c c') (hI : CoreInv P c) (hL : DmaLoad c out) :
    DmaLoad c' out := by
  cases h with
  | stats f => exact hL.congr ⟨.refl _, rfl, rfl, rfl, rfl, rfl, rfl⟩
  | clock n => exact hL.congr ⟨.refl _, rfl, rfl, rfl, rfl, rfl, rfl⟩
  | arrayTurn n => exact hL.congr ⟨.refl _, rfl, rfl, rfl, rfl, rfl, rfl⟩
  | compute p i rest hp => exact hL.congr ((SameEngine.finish c i).trans (.popPipeline _ p))
  | ssdNone hssd _ => exact hL.leave hI hssd (.refl _) rfl rfl rfl
  | ssdWrite i hssd _ _ => exact hL.leave hI hssd (.finish c.heap i) rfl rfl rfl
  | ssdAsync i hssd _ _ _ => exact hL.leave hI hssd (.finish c.heap i) rfl rfl rfl
  | ssdSync i hssd _ _ _ => exact hL.leave hI hssd (.refl _) rfl rfl rfl
  | drainWrite i rest _ _ => exact hL.congr ⟨.refl _, rfl, rfl, rfl, rfl, rfl, rfl⟩
  | drainSync i rest _ _ _ => exact hL.congr ⟨.finish c.heap i, rfl, rfl, rfl, rfl, rfl, rfl⟩
  | drainAsync i rest ws _ _ _ _ _ =>
      have hword : DmaLoad ({ c.setTag (c.heap.inst i).subgraphId (c.heap.inst i).tagKey
          ((1 + ws.length) % 2 ^ 32) with dmaFinishedQueue := rest }.log (.dataReturned i)) out :=
        hL.congr ⟨.refl _, rfl, rfl, rfl, rfl, rfl, rfl⟩
      exact hword.congr (.finishAll ws _)
  | retireWrite i hfin hcur _ => exact hL.retire hI hfin hcur (.finish c.heap i) rfl rfl rfl
  | retireAsync i hfin hcur _ _ => exact hL.retire hI hfin hcur (.finish c.heap i) rfl rfl rfl
  | retireSync i hfin hcur _ _ => exact hL.retire hI hfin hcur (.refl _) rfl rfl rfl
  | startLoad i rest hfin hcur _ => exact hL.start hI hfin hcur rfl rfl rfl rfl
  | startStore i rest hfin hcur _ => exact hL.start hI hfin hcur rfl rfl rfl rfl
  | oracle i n hcur hgen hfin => exact hL.congr ⟨.refl _, rfl, rfl, hfin.symm, rfl, rfl, rfl⟩
  | generate i env hcur hgen _ hfin => exact hL.generate hI hcur hgen
  | inject n hgen _ => exact hL.inject n
  | report t _ _ => exact hL.congr ⟨fun _ => ⟨rfl, rfl, rfl⟩, rfl, rfl, rfl, rfl, rfl, rfl⟩

theorem UnitStep.dma (h : UnitStep cfg c c') (hI : CoreInv P c) (hD : DmaInv c out late) :
    DmaInv c' out late := by
  cases h with
  | stats f => exact hD.congr ⟨.refl _, rfl, rfl, rfl, rfl, rfl, rfl⟩
  | clock n => exact hD.congr ⟨.refl _, rfl, rfl, rfl, rfl, rfl, rfl⟩
  | arrayTurn n => exact hD.congr ⟨.refl _, rfl, rfl, rfl, rfl, rfl, rfl⟩
  | compute p i rest hp => exact hD.congr ((SameEngine.finish c i).trans (.popPipeline _ p))
  | ssdNone hssd _ => exact hD.leave hI hssd (.refl _) rfl rfl rfl
  | ssdWrite i hssd _ _ => exact hD.leave hI hssd (.finish c.heap i) rfl rfl rfl
  | ssdAsync i hssd _ _ _ => exact hD.leave hI hssd (.finish c.heap i) rfl rfl rfl
  | ssdSync i hssd _ _ _ => exact hD.leave hI hssd (.refl _) rfl rfl rfl
  | drainWrite i rest _ _ => exact hD.congr ⟨.refl _, rfl, rfl, rfl, rfl, rfl, rfl⟩
  | drainSync i rest _ _ _ => exact hD.congr ⟨.finish c.heap i, rfl, rfl, rfl, rfl, rfl, rfl⟩
  | drainAsync i rest ws _ _ _ _ _ =>
      have hword : DmaInv ({ c.setTag (c.heap.inst i).subgraphId (c.heap.inst i).tagKey
          ((1 + ws.length) % 2 ^ 32) with dmaFinishedQueue := rest }.log (.dataReturned i))
          out late := hD.congr ⟨.refl _, rfl, rfl, rfl, rfl, rfl, rfl⟩
      exact hword.congr (.finishAll ws _)
  | retireWrite i hfin hcur _ => exact hD.retire hI hfin hcur (.finish c.heap i) rfl rfl rfl
  | retireAsync i hfin hcur _ _ => exact hD.retire hI hfin hcur (.finish c.heap i) rfl rfl rfl
  | retireSync i hfin hcur _ _ => exact hD.retire hI hfin hcur (.refl _) rfl rfl rfl
  | startLoad i rest hfin hcur _ => exact hD.start hI hfin hcur rfl rfl rfl rfl
  | startStore i rest hfin hcur _ => exact hD.start hI hfin hcur rfl rfl rfl rfl
  | oracle i n hcur hgen hfin => exact hD.congr ⟨.refl _, rfl, rfl, hfin.symm, rfl, rfl, rfl⟩
  | generate i env hcur hgen _ hfin => exact hD.generate hI hcur hgen hfin
  | inject n hgen _ => exact hD.inject hI hgen n
  | report t _ _ => exact hD.congr ⟨fun _ => ⟨rfl, rfl, rfl⟩, rfl, rfl, rfl, rfl, rfl, rfl⟩

theorem IssueEffect.sameEngine (h : IssueEffect i c c') : SameEngine c c' := by
  cases h with
  | sparseLoad _ _ =>
      exact ((SameEngine.registerTag c i).trans (.setTag _ _ _ _)).trans (.finish _ i)
  | knownLoad v _ _ _ _ _ => exact .finish c i
  | awaitedLoad _ _ _ _ => exact ⟨.refl _, rfl, rfl, rfl, rfl, rfl, rfl⟩
  | load _ _ _ => exact ⟨.refl _, rfl, rfl, rfl, rfl, rfl, rfl⟩
  | store _ => exact ⟨.refl _, rfl, rfl, rfl, rfl, rfl, rfl⟩
  | comp p _ _ => exact (SameEngine.setTimes c p i).trans (.pushPipeline _ p i)
  | compZero p _ _ => exact (SameEngine.setTimes c p i).trans (.finish _ i)
  | barSparse _ _ =>
      have hskip : SameEngine c { c with
          heap := Core.skipMatmuls c.heap (c.heap.inst i).childInst } :=
        ⟨.skipMatmuls _ _, rfl, rfl, rfl, rfl, rfl, rfl⟩
      exact hskip.trans (.finish _ i)
  | barReady v _ _ _ _ => exact (SameEngine.setTag c _ _ _).trans (.finish _ i)
  | barWait _ _ => exact ⟨.refl _, rfl, rfl, rfl, rfl, rfl, rfl⟩

theorem IssueStep.sameEngine (h : IssueStep c c') : SameEngine c c' := by
  obtain ⟨t, i, -, -, heffect⟩ := h
  exact (SameEngine.take c t i).trans heffect.sameEngine

theorem CycleStep.load (h : CycleStep cfg c c') (hI : CoreInv P c) (hL : DmaLoad c out) :
    DmaLoad c' out := by
  rcases h with h | h
  · exact h.load hI hL
  · exact hL.congr h.sameEngine

/-- The counts over a cycle of the core. -/
theorem cycle_load {env : CycleEnv} (hI : CoreInv P c) (hL : DmaLoad c out)
    (h : c.cycle cfg env = .ok c') : CoreInv P c' ∧ DmaLoad c' out := by
  have hout : Outcome (CycleStep cfg) StopsWith c id (c.cycle cfg env) := cycle_outcome hI
  rw [h] at hout
  exact Outcome.invariant (I := fun c => CoreInv P c ∧ DmaLoad c out)
    (fun d e hd hstep => ⟨cycle_keeps cfg P d e hd.1 hstep, hstep.load hd.1 hd.2⟩) hout ⟨hI, hL⟩

theorem CycleStep.dma (h : CycleStep cfg c c') (hI : CoreInv P c) (hD : DmaInv c out late) :
    DmaInv c' out late := by
  rcases h with h | h
  · exact h.dma hI hD
  · exact hD.congr h.sameEngine

theorem dma_run (h : Relation.ReflTransGen (UnitStep cfg) c c') (hI : CoreInv P c)
    (hD : DmaInv c out late) : DmaInv c' out late :=
  (Outcome.invariant (I := fun c => CoreInv P c ∧ DmaInv c out late)
    (fun _ _ hs hstep => ⟨hstep.inv hs.1, hstep.dma hs.1 hs.2⟩) h ⟨hI, hD⟩).2

/-- After its turn to take an instruction, an engine that has no requests to make has no
instruction. -/
theorem nextDma_settles {busy : Bool} (h : c.nextDma = .ok (c', busy)) :
    c'.dma.finished = true → c'.dma.currentInst = none := by
  cases busy with
  | true =>
      intro hfin
      rw [nextDma_busy h] at hfin
      cases hfin
  | false =>
      intro _
      unfold Core.nextDma at h
      split at h
      · obtain ⟨c₁, hretire, hissue⟩ := bind_eq_ok.mp h
        have hdma := retireCurrent_dma hretire
        unfold Core.issueDma at hissue
        split at hissue
        · obtain ⟨_, _, hissue⟩ := bind_eq_ok.mp hissue
          cases hissue
        · obtain ⟨_, _, hissue⟩ := bind_eq_ok.mp hissue
          cases hissue
        · cases hissue
          show c₁.dma.currentInst = none
          rw [hdma]
      · cases h

/-- **The DMA engine passes on an instruction before the caches have their turn**: whatever
the caches took of its requests before the cycle, after it the ledger does not need to know
what they have not taken. -/
theorem dmaCycle_ledger {env : CycleEnv} (hI : CoreInv P c) (hD : DmaInv c out late)
    (h : c.dmaCycle cfg env = .ok c') : DmaInv c' out fun _ => False := by
  unfold Core.dmaCycle at h
  obtain ⟨c₁, hssd, h⟩ := bind_eq_ok.mp h
  obtain ⟨c₂, hdrain, h⟩ := bind_eq_ok.mp h
  obtain ⟨⟨c₃, busy⟩, hnext, h⟩ := bind_eq_ok.mp h
  have h₁ : Outcome (UnitStep cfg) StopsWith c id c.ssdCycle := ssdCycle_outcome hI
  rw [hssd] at h₁
  have hI₁ : CoreInv P c₁ := Outcome.invariant (unit_keeps cfg P) h₁ hI
  have h₂ : Outcome (UnitStep cfg) StopsWith c₁ id (Core.drainLoop c₁.dmaFinishedQueue c₁) :=
    drainLoop_outcome _ hI₁ rfl
  rw [hdrain] at h₂
  have hI₂ : CoreInv P c₂ := Outcome.invariant (unit_keeps cfg P) h₂ hI₁
  have h₃ : Outcome (UnitStep cfg) StopsWith c₂ Prod.fst c₂.nextDma := nextDma_outcome hI₂
  rw [hnext] at h₃
  have hI₃ : CoreInv P c₃ := Outcome.invariant (unit_keeps cfg P) h₃ hI₂
  have hD₃ : DmaInv c₃ out late := dma_run h₃ hI₂ (dma_run h₂ hI₁ (dma_run h₁ hI hD))
  have hsettled : DmaInv c₃ out fun _ => False := hD₃.settled (nextDma_settles hnext)
  cases busy with
  | false =>
      cases h
      exact hsettled
  | true =>
      obtain ⟨c₄, hgenerate, h⟩ := bind_eq_ok.mp h
      have h₄ : Outcome (UnitStep cfg) StopsWith c₃ id (c₃.generateMemfetch cfg env) :=
        generateMemfetch_outcome hI₃ (nextDma_busy hnext)
      rw [hgenerate] at h₄
      cases h
      exact (dma_run h₄ hI₃ hsettled).congr ⟨.refl _, rfl, rfl, rfl, rfl, rfl, rfl⟩

/-- The ledger over a cycle of the core. -/
theorem cycle_ledger {env : CycleEnv} (hI : CoreInv P c) (hD : DmaInv c out late)
    (h : c.cycle cfg env = .ok c') : DmaInv c' out fun _ => False := by
  rw [Core.cycle_eq] at h
  obtain ⟨c₂, hunit, hissue⟩ := bind_eq_ok.mp h
  unfold Core.unitCycle at hunit
  obtain ⟨c₁, hcompute, hdma⟩ := bind_eq_ok.mp hunit
  have h₁ : Outcome (UnitStep cfg) StopsWith c id (c.computeCycle cfg) := computeCycle_outcome hI
  rw [hcompute] at h₁
  have hI₁ : CoreInv P c₁ := Outcome.invariant (unit_keeps cfg P) h₁ hI
  have hD₂ : DmaInv c₂ out fun _ => False := dmaCycle_ledger hI₁ (dma_run h₁ hI hD) hdma
  have h₂ : Outcome (UnitStep cfg) StopsWith c₁ id (c₁.dmaCycle cfg env) := dmaCycle_outcome hI₁
  rw [hdma] at h₂
  have hI₂ : CoreInv P c₂ := Outcome.invariant (unit_keeps cfg P) h₂ hI₁
  have h₃ : Outcome (CycleStep cfg) IssueStops c₂ id (c₂.issueCycle cfg env) :=
    issueCycle_outcome hI₂
  rw [hissue] at h₃
  exact (Outcome.invariant (I := fun c => CoreInv P c ∧ DmaInv c out fun _ => False)
    (fun c c' hs hstep => ⟨cycle_keeps cfg P c c' hs.1 hstep, hstep.dma hs.1 hs.2⟩) h₃
    ⟨hI₂, hD₂⟩).2

end Cycle

/-! ## Between two cycles -/

/-- What a reply changes: the count of its instruction, and the list of waiting ones. -/
structure CountsReply (c : Core τ ι) (r : MemFetch ι) (c' : Core τ ι) : Prop where
  nr : ∀ i, (c'.heap.inst i).nrWaitingRequest =
    (c.heap.inst i).nrWaitingRequest - if r.customData = i then 1 else 0
  same : ∀ i, (c'.heap.inst i).opcode = (c.heap.inst i).opcode ∧
    (c'.heap.inst i).tileSize = (c.heap.inst i).tileSize
  dma : c'.dma = c.dma
  queue : c'.requestQueue = c.requestQueue
  waiting : ∀ i, i ∈ c'.dmaWaitingQueue ↔ i ∈ c.dmaWaitingQueue ∧
    (i = r.customData → (c.heap.inst r.customData).nrWaitingRequest - 1 ≠ 0)

omit [DecidableEq τ] in
theorem pushMemoryResponse_counts {r : MemFetch ι} (hI : CoreInv P c)
    (hpos : 0 < (c.heap.inst r.customData).nrWaitingRequest) :
    CountsReply c r (c.pushMemoryResponse r) := by
  have hdec : (c.heap.inst r.customData).decWaitingRequest =
      (c.heap.inst r.customData).nrWaitingRequest - 1 := by
    unfold Instruction.decWaitingRequest
    exact if_neg (by omega)
  have hheap : ∀ d : Core τ ι, d.heap = c.heap.setInst r.customData { c.heap.inst r.customData with
        nrWaitingRequest := (c.heap.inst r.customData).nrWaitingRequest - 1 } →
      d.dma = c.dma → d.requestQueue = c.requestQueue →
      (∀ i, i ∈ d.dmaWaitingQueue ↔ i ∈ c.dmaWaitingQueue ∧
        (i = r.customData → (c.heap.inst r.customData).nrWaitingRequest - 1 ≠ 0)) →
      CountsReply c r d := by
    intro d hheap hdma hqueue hwaiting
    refine ⟨fun i => ?_, fun i => ?_, hdma, hqueue, hwaiting⟩
    · rw [hheap]
      by_cases hi : i = r.customData
      · subst hi
        rw [CoreHeap.setInst_inst_self, if_pos rfl]
      · rw [CoreHeap.setInst_inst_of_ne _ _ hi, if_neg fun h => hi h.symm]
        rfl
    · rw [hheap]
      by_cases hi : i = r.customData
      · subst hi
        rw [CoreHeap.setInst_inst_self]
        exact ⟨rfl, rfl⟩
      · rw [CoreHeap.setInst_inst_of_ne _ _ hi]
        exact ⟨rfl, rfl⟩
  unfold Core.pushMemoryResponse
  dsimp only
  rw [hdec]
  split
  · rename_i hzero
    refine hheap _ rfl rfl rfl fun i => ?_
    have hnodup : c.dmaWaitingQueue.Nodup := hI.placement.exclusive.nodup .waiting
    rw [show i ∈ c.dmaWaitingQueue.erase r.customData ↔ _ from hnodup.mem_erase_iff]
    constructor
    · rintro ⟨hne, hi⟩
      exact ⟨hi, fun h => absurd h hne⟩
    · rintro ⟨hi, hne⟩
      exact ⟨fun h => hne h hzero.1, hi⟩
  · rename_i hnot
    refine hheap _ rfl rfl rfl fun i => ⟨fun hi => ⟨hi, ?_⟩, fun hi => hi.1⟩
    rintro rfl hzero
    exact hnot ⟨hzero, hi⟩

namespace DmaLoad

variable {out : ι → ℕ}

theorem issue (hL : DmaLoad c out) (t : τ) : DmaLoad (c.issue t) out := by
  have hinst : (c.issue t).heap.inst = c.heap.inst :=
    (CoreHeap.foldl_enqueueReady (c.heap.tile t).instructions c.heap t).1
  refine hL.congr ⟨fun i => ?_, rfl, rfl, rfl, rfl, rfl, rfl⟩
  rw [hinst]
  exact ⟨rfl, rfl, rfl⟩

omit [DecidableEq τ] in
theorem popFinishedTile (hL : DmaLoad c out) : DmaLoad c.popFinishedTile.2 out := by
  unfold Core.popFinishedTile
  split
  · exact hL
  · exact hL.congr ⟨.refl _, rfl, rfl, rfl, rfl, rfl, rfl⟩

omit [DecidableEq τ] in
/-- A request leaves the core. -/
theorem popRequest {r : MemFetch ι} {rest : List (MemFetch ι)} (hL : DmaLoad c out)
    (hq : c.requestQueue = r :: rest) :
    DmaLoad { c with requestQueue := rest }
      (fun i => out i + if r.customData = i then 1 else 0) := by
  refine ⟨fun i => ?_, hL.owner, hL.current⟩
  have hcount := hL.count i
  unfold unsent at hcount ⊢
  rw [hq, List.countP_cons] at hcount
  simp only [decide_eq_true_eq] at hcount
  show (c.heap.inst i).nrWaitingRequest = _
  dsimp only
  omega

omit [DecidableEq τ] in
/-- A reply. -/
theorem response {c' : Core τ ι} {r : MemFetch ι} (hL : DmaLoad c out) (h : CountsReply c r c')
    (hout : 0 < out r.customData) :
    DmaLoad c' fun i => out i - if r.customData = i then 1 else 0 := by
  have hunsent : ∀ i, unsent c' i = unsent c i := by
    intro i
    unfold unsent
    rw [h.dma, h.queue]
  refine ⟨fun i => ?_, fun i hi => ?_, ?_⟩
  · have hi := hL.count i
    rw [h.nr, hunsent]
    by_cases hri : r.customData = i
    · rw [if_pos hri]
      rw [← hri] at hi ⊢
      omega
    · rw [if_neg hri]
      omega
  · rw [h.nr] at hi
    rw [h.dma, h.waiting]
    rcases hL.owner i (by omega) with hwait | hcur
    · refine .inl ⟨hwait, fun hri => ?_⟩
      rw [hri, if_pos rfl] at hi
      omega
    · exact .inr hcur
  · rw [h.dma]
    exact hL.current

end DmaLoad

namespace DmaInv

variable {out : ι → ℕ} {late : ι → Prop}

theorem issue (hD : DmaInv c out late) (t : τ) : DmaInv (c.issue t) out late := by
  have hinst : (c.issue t).heap.inst = c.heap.inst :=
    (CoreHeap.foldl_enqueueReady (c.heap.tile t).instructions c.heap t).1
  refine hD.congr ⟨fun i => ?_, rfl, rfl, rfl, rfl, rfl, rfl⟩
  rw [hinst]
  exact ⟨rfl, rfl, rfl⟩

omit [DecidableEq τ] in
theorem popFinishedTile (hD : DmaInv c out late) : DmaInv c.popFinishedTile.2 out late := by
  unfold Core.popFinishedTile
  split
  · exact hD
  · exact hD.congr ⟨.refl _, rfl, rfl, rfl, rfl, rfl, rfl⟩

omit [DecidableEq τ] in
/-- A request leaves the core. -/
theorem popRequest {r : MemFetch ι} {rest : List (MemFetch ι)} (hD : DmaInv c out late)
    (hq : c.requestQueue = r :: rest) :
    DmaInv { c with requestQueue := rest }
      (fun i => out i + if r.customData = i then 1 else 0)
      (fun i => late i ∨ r.customData = i) := by
  refine ⟨(hD.load.popRequest hq).count, fun i hi => ?_, hD.waiting, hD.owner, hD.pending,
    hD.current, fun i hfin hcur => ?_, hD.sizes⟩
  · rcases hi with hi | hi
    · have hout := hD.outside i hi
      omega
    · rw [if_pos hi]
      omega
  · rcases hD.last i hfin hcur with ⟨r', hr', hri⟩ | hlate
    · rw [hq] at hr'
      rcases List.mem_cons.mp hr' with rfl | hr'
      · exact .inr (.inr hri)
      · exact .inl ⟨r', hr', hri⟩
    · exact .inr (.inl hlate)

omit [DecidableEq τ] in
/-- The reply that brings the count of an instruction to zero finds it in the list of waiting
instructions: of an instruction that the engine still holds, another request is on its way. -/
theorem response_found {r : MemFetch ι} (hD : DmaInv c out late) (hout : 0 < out r.customData)
    (hlate : late r.customData → 1 < out r.customData)
    (hzero : (c.heap.inst r.customData).decWaitingRequest = 0) :
    r.customData ∈ c.dmaWaitingQueue := by
  have hcount := hD.count r.customData
  have hone : (c.heap.inst r.customData).nrWaitingRequest = 1 := by
    unfold Instruction.decWaitingRequest at hzero
    split at hzero
    · cases hzero
    · omega
  have hunsent : unsent c r.customData = 0 := by omega
  unfold unsent at hunsent
  rcases hD.owner r.customData (by omega) with h | ⟨hcur, hgen | hfin⟩
  · exact h
  · exfalso
    obtain ⟨r', hr'⟩ := List.exists_mem_of_ne_nil _ (hD.pending hgen)
    have hr'' := hD.current r' hr'
    rw [hcur] at hr''
    have hpos : 0 < c.dma.pendingAccesses.countP (·.customData = r.customData) :=
      List.countP_pos_iff.mpr ⟨r', hr', decide_eq_true (Option.some.inj hr'').symm⟩
    omega
  · exfalso
    rcases hD.last r.customData hfin hcur with ⟨r', hr', hri⟩ | h
    · have hpos : 0 < c.requestQueue.countP (·.customData = r.customData) :=
        List.countP_pos_iff.mpr ⟨r', hr', decide_eq_true hri⟩
      omega
    · have htwo := hlate h
      omega

omit [DecidableEq τ] in
/-- The reply to a request that the caches took. -/
theorem response {r : MemFetch ι} (hD : DmaInv c out late) (hI : CoreInv P c)
    (hout : 0 < out r.customData) (hlate : late r.customData → 1 < out r.customData) :
    DmaInv (c.pushMemoryResponse r) (fun i => out i - if r.customData = i then 1 else 0) late := by
  have hcount := hD.count r.customData
  have hreply := pushMemoryResponse_counts (r := r) hI (by omega)
  have hload := hD.load.response hreply hout
  refine ⟨hload.count, fun i hi => ?_, fun i hi => ?_, hload.owner, ?_, hload.current, fun i => ?_,
    fun i hop => ?_⟩
  · have hpos := hD.outside i hi
    split
    · rename_i h
      rw [← h] at hi ⊢
      have htwo := hlate hi
      omega
    · omega
  · obtain ⟨hwait, hleft⟩ := (hreply.waiting i).mp hi
    have hpos := hD.waiting i hwait
    rw [hreply.nr]
    split
    · rename_i h
      have hne := hleft h.symm
      rw [h] at hne
      omega
    · omega
  · rw [hreply.dma]
    exact hD.pending
  · rw [hreply.dma, hreply.queue]
    exact hD.last i
  · rw [(hreply.same i).1] at hop
    rw [(hreply.same i).2]
    exact hD.sizes i hop

end DmaInv

end PyTorchSim.Analysis
