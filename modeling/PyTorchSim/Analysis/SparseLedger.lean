import PyTorchSim.Analysis.InstructionFinish
import PyTorchSim.Analysis.SparseMoves

/-!
# Where the instructions of a sparse core are

An instruction of a tile is in the list of its tile until it is issued.  A compute instruction is
then in the pipeline until it is finished, a load in the queue of the loads and stores until its
requests are answered, and a store is finished at once.  `SparseLedger` says this of the objects
and queues of a sparse core, and that each instruction waits for as many requests as there are on
their way for it.
-/

set_option autoImplicit false

namespace PyTorchSim.Analysis

open Relation
open PyTorchSim.Model PyTorchSim.Library

variable {τ ι : Type} [DecidableEq τ] [DecidableEq ι]

/-- The objects and queues of a sparse core: `pipe` has the issued compute instructions, `dma` the
issued loads and stores, and `sent` says how many requests are on their way for an instruction. -/
structure SparseLedger (P : TileProgram τ ι) (heap : CoreHeap τ ι) (pipe dma : List ι)
    (sent : ι → ℕ) : Prop where
  /-- The kind and the owner of an instruction do not change. -/
  opcode : ∀ i, (heap.inst i).opcode = (P.heap.inst i).opcode
  owner : ∀ i, (heap.inst i).owner = (P.heap.inst i).owner
  nrInsts : ∀ t, (heap.tile t).nrInsts = (P.heap.tile t).nrInsts
  /-- The instructions of a tile are issued in order. -/
  issued : ∀ t, (heap.tile t).instructions <:+ (P.heap.tile t).instructions
  /-- An instruction waits for the requests that are on their way. -/
  waiting : ∀ i, (heap.inst i).nrWaitingRequest = sent i
  /-- Nothing has happened to an instruction that is not issued. -/
  listed : ∀ t, ∀ i ∈ (heap.tile t).instructions,
    (heap.inst i).finished = false ∧ (heap.inst i).nrWaitingRequest = 0 ∧ i ∉ pipe ∧ i ∉ dma
  pipe_nodup : pipe.Nodup
  dma_nodup : dma.Nodup
  piped : ∀ i ∈ pipe, i ∈ (P.heap.tile (P.heap.inst i).owner).instructions ∧
    (P.heap.inst i).opcode = .comp ∧ (heap.inst i).finished = false
  queued : ∀ i ∈ dma, i ∈ (P.heap.tile (P.heap.inst i).owner).instructions ∧
    ((P.heap.inst i).opcode = .movin ∧ (heap.inst i).finished = false ∨
      (P.heap.inst i).opcode = .movout)
  /-- Only a store and an unfinished load wait for requests. -/
  waits : ∀ i, (heap.inst i).nrWaitingRequest ≠ 0 →
    (P.heap.inst i).opcode = .movin ∧ (heap.inst i).finished = false ∨
      (P.heap.inst i).opcode = .movout
  /-- A tile counts its finished instructions. -/
  counted : ∀ t, (heap.tile t).nrFinishedInsts =
    (P.heap.tile t).instructions.countP fun i => (heap.inst i).finished

/-- An instruction that is in no list. -/
structure Loose (P : TileProgram τ ι) (heap : CoreHeap τ ι) (pipe dma : List ι) (i : ι) : Prop where
  mem : i ∈ (P.heap.tile (P.heap.inst i).owner).instructions
  unlisted : ∀ t, i ∉ (heap.tile t).instructions
  pipe : i ∉ pipe
  dma : i ∉ dma

namespace SparseLedger

variable {P : TileProgram τ ι} {heap : CoreHeap τ ι} {pipe dma : List ι} {sent : ι → ℕ}
  {i : ι} {t : τ}

omit [DecidableEq τ] in
theorem init (P : TileProgram τ ι) : SparseLedger P P.heap [] [] fun _ => 0 := by
  constructor
  case issued => exact fun t => List.suffix_rfl
  case waiting => exact P.nrWaitingRequest
  case listed => exact fun t i _ => ⟨P.finished i, P.nrWaitingRequest i, by simp, by simp⟩
  case waits => exact fun i hne => absurd (P.nrWaitingRequest i) hne
  case counted =>
    intro t
    simp [P.nrFinishedInsts t, P.finished]
  all_goals simp

/-- The first instruction of a tile leaves its list. -/
theorem eraseFront (h : SparseLedger P heap pipe dma sent) {rest : List ι}
    (hfront : (heap.tile t).instructions = i :: rest) :
    let erased := heap.setTile t
      { heap.tile t with instructions := (heap.tile t).instructions.tail }
    SparseLedger P erased pipe dma sent ∧ Loose P erased pipe dma i := by
  intro erased
  have hlist : ∀ u, (erased.tile u).instructions =
      if u = t then rest else (heap.tile u).instructions := by
    intro u
    by_cases hu : u = t
    · subst hu
      simp [erased, hfront]
    · simp [erased, CoreHeap.setTile_tile_of_ne _ _ hu, hu]
  have hkeep : ∀ u, (erased.tile u).nrInsts = (heap.tile u).nrInsts ∧
      (erased.tile u).nrFinishedInsts = (heap.tile u).nrFinishedInsts := by
    intro u
    by_cases hu : u = t
    · subst hu
      simp [erased]
    · simp [erased, CoreHeap.setTile_tile_of_ne _ _ hu]
  have hsub : ∀ u, (erased.tile u).instructions <:+ (heap.tile u).instructions := by
    intro u
    by_cases hu : u = t
    · rw [hlist u, if_pos hu, hu, hfront]
      exact List.suffix_cons i rest
    · have hsame : (erased.tile u).instructions = (heap.tile u).instructions :=
        (hlist u).trans (if_neg hu)
      exact hsame ▸ List.suffix_rfl
  have hmem : i ∈ (heap.tile t).instructions := by
    rw [hfront]
    exact List.mem_cons_self
  have howner : (P.heap.inst i).owner = t := P.owner t i ((h.issued t).subset hmem)
  refine ⟨⟨h.opcode, h.owner, fun u => (hkeep u).1.trans (h.nrInsts u),
    fun u => (hsub u).trans (h.issued u), h.waiting, fun u j hj => h.listed u j ((hsub u).subset hj),
    h.pipe_nodup, h.dma_nodup, h.piped, h.queued, h.waits,
    fun u => (hkeep u).2.trans (h.counted u)⟩, ?_, ?_, (h.listed t i hmem).2.2.1,
    (h.listed t i hmem).2.2.2⟩
  · rw [howner]
    exact (h.issued t).subset hmem
  · intro u hin
    rw [hlist u] at hin
    by_cases hu : u = t
    · rw [if_pos hu] at hin
      have hnodup := (P.insts_nodup t).sublist (h.issued t).sublist
      rw [hfront] at hnodup
      exact (List.nodup_cons.mp hnodup).1 hin
    · rw [if_neg hu] at hin
      exact hu ((P.owner u i ((h.issued u).subset hin)).symm.trans howner)

omit [DecidableEq τ] in
/-- The instructions wait for other numbers of requests. -/
theorem setWaiting (h : SparseLedger P heap pipe dma sent) {heap' : CoreHeap τ ι} {sent' : ι → ℕ}
    (hinst : ∀ j, heap'.inst j = { heap.inst j with nrWaitingRequest := sent' j })
    (htile : heap'.tile = heap.tile)
    (hlisted : ∀ t, ∀ j ∈ (heap.tile t).instructions, sent' j = 0)
    (hwaits : ∀ j, sent' j ≠ 0 →
      (P.heap.inst j).opcode = .movin ∧ (heap.inst j).finished = false ∨
        (P.heap.inst j).opcode = .movout) :
    SparseLedger P heap' pipe dma sent' := by
  have hfin : ∀ j, (heap'.inst j).finished = (heap.inst j).finished := fun j => by rw [hinst j]
  constructor
  case opcode => exact fun j => by rw [hinst j]; exact h.opcode j
  case owner => exact fun j => by rw [hinst j]; exact h.owner j
  case nrInsts => rw [htile]; exact h.nrInsts
  case issued => rw [htile]; exact h.issued
  case waiting => exact fun j => by rw [hinst j]
  case listed =>
    intro u j hj
    rw [htile] at hj
    obtain ⟨hf, -, hrest⟩ := h.listed u j hj
    rw [hinst j]
    exact ⟨hf, hlisted u j hj, hrest⟩
  case pipe_nodup => exact h.pipe_nodup
  case dma_nodup => exact h.dma_nodup
  case piped => exact fun j hj => by rw [hfin j]; exact h.piped j hj
  case queued => exact fun j hj => by rw [hfin j]; exact h.queued j hj
  case waits =>
    intro j hne
    rw [hinst j] at hne
    rw [hfin j]
    exact hwaits j hne
  case counted =>
    intro u
    simp only [hfin, htile]
    exact h.counted u

omit [DecidableEq τ] in
/-- An issued load or store waits for more requests. -/
theorem send (h : SparseLedger P heap pipe dma sent) (hloose : Loose P heap pipe dma i)
    (hkind : (P.heap.inst i).opcode = .movin ∧ (heap.inst i).finished = false ∨
      (P.heap.inst i).opcode = .movout) (n : ℕ) {sent' : ι → ℕ}
    (hsent : ∀ j, sent' j = sent j + if j = i then n else 0) :
    let heap' := heap.setInst i
      { heap.inst i with nrWaitingRequest := (heap.inst i).nrWaitingRequest + n }
    SparseLedger P heap' pipe dma sent' ∧ Loose P heap' pipe dma i := by
  refine ⟨h.setWaiting (fun j => ?_) rfl (fun u j hj => ?_) fun j hne => ?_, hloose.mem,
    hloose.unlisted, hloose.pipe, hloose.dma⟩
  · rw [hsent j, ← h.waiting j]
    by_cases hj : j = i
    · subst hj
      simp
    · simp [CoreHeap.setInst_inst_of_ne _ _ hj, hj]
  · have hji : j ≠ i := fun heq => hloose.unlisted u (heq ▸ hj)
    rw [hsent j, if_neg hji, ← h.waiting j]
    exact (h.listed u j hj).2.1
  · by_cases hj : j = i
    · rw [hj]
      exact hkind
    · rw [hsent j, if_neg hj, Nat.add_zero, ← h.waiting j] at hne
      exact h.waits j hne

omit [DecidableEq τ] in
/-- A request of an instruction is answered. -/
theorem answer (h : SparseLedger P heap pipe dma sent) {sent' : ι → ℕ}
    (hsent : ∀ j, sent j = sent' j + if j = i then 1 else 0) :
    SparseLedger P (heap.setInst i
      { heap.inst i with nrWaitingRequest := (heap.inst i).decWaitingRequest }) pipe dma sent' := by
  have hle : ∀ j, sent' j ≠ 0 → (heap.inst j).nrWaitingRequest ≠ 0 := by
    intro j hne
    rw [h.waiting j, hsent j]
    omega
  refine h.setWaiting (fun j => ?_) rfl (fun u j hj => ?_) fun j hne => h.waits j (hle j hne)
  · by_cases hj : j = i
    · subst hj
      have hself : (heap.inst j).nrWaitingRequest = sent' j + 1 := by
        rw [h.waiting j, hsent j, if_pos rfl]
      simp [Instruction.decWaitingRequest, hself]
    · have hw := h.waiting j
      rw [hsent j, if_neg hj, Nat.add_zero] at hw
      rw [CoreHeap.setInst_inst_of_ne _ _ hj, ← hw]
  · exact not_not.mp fun hne => hle j hne (h.listed u j hj).2.1

/-- An issued instruction is finished. -/
theorem finish (h : SparseLedger P heap pipe dma sent) (hloose : Loose P heap pipe dma i)
    (hfin : (heap.inst i).finished = false)
    (hwait : (heap.inst i).nrWaitingRequest = 0 ∨ (P.heap.inst i).opcode = .movout) :
    SparseLedger P (heap.finish i) pipe dma sent ∧ Loose P (heap.finish i) pipe dma i := by
  obtain ⟨hinst, htile⟩ := CoreHeap.finish_frame heap i
  choose ready hinst using hinst
  choose queue htile using htile
  have hkept : ∀ j, j ≠ i → ((heap.finish i).inst j).finished = (heap.inst j).finished := by
    intro j hj
    rw [hinst j]
    simp [hj]
  refine ⟨?_, hloose.mem, fun u => ?_, hloose.pipe, hloose.dma⟩
  constructor
  case opcode => exact fun j => by rw [hinst j]; exact h.opcode j
  case owner => exact fun j => by rw [hinst j]; exact h.owner j
  case nrInsts => exact fun u => by rw [htile u]; exact h.nrInsts u
  case issued => exact fun u => by rw [htile u]; exact h.issued u
  case waiting => exact fun j => by rw [hinst j]; exact h.waiting j
  case listed =>
    intro u j hj
    rw [htile u] at hj
    have hne : j ≠ i := fun heq => hloose.unlisted u (heq ▸ hj)
    rw [hkept j hne, hinst j]
    exact h.listed u j hj
  case pipe_nodup => exact h.pipe_nodup
  case dma_nodup => exact h.dma_nodup
  case piped =>
    intro j hj
    rw [hkept j fun heq => hloose.pipe (heq ▸ hj)]
    exact h.piped j hj
  case queued =>
    intro j hj
    rw [hkept j fun heq => hloose.dma (heq ▸ hj)]
    exact h.queued j hj
  case waits =>
    intro j hne
    rw [hinst j] at hne
    by_cases hj : j = i
    · rw [hj] at hne ⊢
      exact .inr (hwait.resolve_left hne)
    · rw [hkept j hj]
      exact h.waits j hne
  case counted =>
    intro u
    rw [htile u, h.counted u]
    by_cases hu : u = (heap.inst i).owner
    · rw [if_pos hu]
      symm
      have hmem : i ∈ (P.heap.tile u).instructions := by
        rw [hu, h.owner i]
        exact hloose.mem
      refine countP_finish (P.insts_nodup u) hmem hfin ?_ fun j _ hne => hkept j hne
      rw [hinst i]
      simp
    · rw [if_neg hu]
      refine List.countP_congr fun j hj => ?_
      have hne : j ≠ i := by
        intro heq
        apply hu
        rw [h.owner i, ← heq]
        exact (P.owner u j hj).symm
      rw [hkept j hne]
  · rw [htile u]
    exact hloose.unlisted u

omit [DecidableEq τ] in
/-- An issued load or store enters the queue of the loads and stores. -/
theorem pushDma (h : SparseLedger P heap pipe dma sent) (hloose : Loose P heap pipe dma i)
    (hkind : (P.heap.inst i).opcode = .movin ∧ (heap.inst i).finished = false ∨
      (P.heap.inst i).opcode = .movout) : SparseLedger P heap pipe (dma ++ [i]) sent := by
  refine { h with listed := fun u j hj => ?_, dma_nodup := ?_, queued := fun j hj => ?_ }
  · obtain ⟨hf, hw, hpipe, hdma⟩ := h.listed u j hj
    refine ⟨hf, hw, hpipe, fun hin => ?_⟩
    rcases List.mem_append.mp hin with hin | hin
    · exact hdma hin
    · exact hloose.unlisted u (List.mem_singleton.mp hin ▸ hj)
  · exact h.dma_nodup.append (List.nodup_singleton i) (by simpa using hloose.dma)
  · rcases List.mem_append.mp hj with hj | hj
    · exact h.queued j hj
    · rw [List.mem_singleton.mp hj]
      exact ⟨hloose.mem, hkind⟩

omit [DecidableEq τ] in
/-- An issued compute instruction enters the pipeline. -/
theorem pushPipe (h : SparseLedger P heap pipe dma sent) (hloose : Loose P heap pipe dma i)
    (hop : (P.heap.inst i).opcode = .comp) (hfin : (heap.inst i).finished = false) :
    SparseLedger P heap (pipe ++ [i]) dma sent := by
  refine { h with listed := fun u j hj => ?_, pipe_nodup := ?_, piped := fun j hj => ?_ }
  · obtain ⟨hf, hw, hpipe, hdma⟩ := h.listed u j hj
    refine ⟨hf, hw, fun hin => ?_, hdma⟩
    rcases List.mem_append.mp hin with hin | hin
    · exact hpipe hin
    · exact hloose.unlisted u (List.mem_singleton.mp hin ▸ hj)
  · exact h.pipe_nodup.append (List.nodup_singleton i) (by simpa using hloose.pipe)
  · rcases List.mem_append.mp hj with hj | hj
    · exact h.piped j hj
    · rw [List.mem_singleton.mp hj]
      exact ⟨hloose.mem, hop, hfin⟩

omit [DecidableEq τ] in
/-- The front leaves the queue of the loads and stores. -/
theorem popDma (h : SparseLedger P heap pipe (i :: dma) sent) :
    SparseLedger P heap pipe dma sent ∧ Loose P heap pipe dma i := by
  obtain ⟨hnot, hnodup⟩ := List.nodup_cons.mp h.dma_nodup
  obtain ⟨hmem, hkind⟩ := h.queued i List.mem_cons_self
  refine ⟨{ h with listed := fun u j hj => ?_, dma_nodup := hnodup, queued := fun j hj => ?_ },
    hmem, fun u hu => (h.listed u i hu).2.2.2 List.mem_cons_self, fun hpipe => ?_, hnot⟩
  · obtain ⟨hf, hw, hpipe, hdma⟩ := h.listed u j hj
    exact ⟨hf, hw, hpipe, fun hin => hdma (List.mem_cons_of_mem i hin)⟩
  · exact h.queued j (List.mem_cons_of_mem i hj)
  · have hcomp := (h.piped i hpipe).2.1
    rcases hkind with ⟨hop, -⟩ | hop <;> rw [hcomp] at hop <;> cases hop

omit [DecidableEq τ] in
/-- The front leaves the pipeline. -/
theorem popPipe (h : SparseLedger P heap (i :: pipe) dma sent) :
    SparseLedger P heap pipe dma sent ∧ Loose P heap pipe dma i := by
  obtain ⟨hnot, hnodup⟩ := List.nodup_cons.mp h.pipe_nodup
  obtain ⟨hmem, hcomp, -⟩ := h.piped i List.mem_cons_self
  refine ⟨{ h with listed := fun u j hj => ?_, pipe_nodup := hnodup, piped := fun j hj => ?_ },
    hmem, fun u hu => (h.listed u i hu).2.2.1 List.mem_cons_self, hnot, fun hdma => ?_⟩
  · obtain ⟨hf, hw, hpipe, hdma⟩ := h.listed u j hj
    exact ⟨hf, hw, fun hin => hpipe (List.mem_cons_of_mem i hin), hdma⟩
  · exact h.piped j (List.mem_cons_of_mem i hj)
  · rcases (h.queued i hdma).2 with ⟨hop, -⟩ | hop <;> rw [hcomp] at hop <;> cases hop

omit [DecidableEq τ] in
/-- A compute instruction waits for no request. -/
theorem comp_idle (h : SparseLedger P heap pipe dma sent) (hop : (P.heap.inst i).opcode = .comp) :
    (heap.inst i).nrWaitingRequest = 0 := by
  by_contra hne
  rcases h.waits i hne with ⟨hkind, -⟩ | hkind <;> rw [hop] at hkind <;> cases hkind

omit [DecidableEq τ] in
/-- Data that the ledger does not mention may change. -/
theorem of_agree (h : SparseLedger P heap pipe dma sent) {heap' : CoreHeap τ ι}
    (hinst : ∀ j, (heap'.inst j).opcode = (heap.inst j).opcode ∧
      (heap'.inst j).owner = (heap.inst j).owner ∧
      (heap'.inst j).nrWaitingRequest = (heap.inst j).nrWaitingRequest ∧
      (heap'.inst j).finished = (heap.inst j).finished)
    (htile : ∀ u, (heap'.tile u).nrInsts = (heap.tile u).nrInsts ∧
      (heap'.tile u).instructions = (heap.tile u).instructions ∧
      (heap'.tile u).nrFinishedInsts = (heap.tile u).nrFinishedInsts) :
    SparseLedger P heap' pipe dma sent := by
  have hwait : ∀ j, (heap'.inst j).nrWaitingRequest = (heap.inst j).nrWaitingRequest :=
    fun j => (hinst j).2.2.1
  have hfin : ∀ j, (heap'.inst j).finished = (heap.inst j).finished := fun j => (hinst j).2.2.2
  constructor
  case opcode => exact fun j => (hinst j).1.trans (h.opcode j)
  case owner => exact fun j => (hinst j).2.1.trans (h.owner j)
  case nrInsts => exact fun u => (htile u).1.trans (h.nrInsts u)
  case issued => exact fun u => by rw [(htile u).2.1]; exact h.issued u
  case waiting => exact fun j => (hwait j).trans (h.waiting j)
  case listed =>
    intro u j hj
    rw [(htile u).2.1] at hj
    rw [hfin j, hwait j]
    exact h.listed u j hj
  case pipe_nodup => exact h.pipe_nodup
  case dma_nodup => exact h.dma_nodup
  case piped => exact fun j hj => by rw [hfin j]; exact h.piped j hj
  case queued => exact fun j hj => by rw [hfin j]; exact h.queued j hj
  case waits =>
    intro j hne
    rw [hwait j] at hne
    rw [hfin j]
    exact h.waits j hne
  case counted =>
    intro u
    simp only [hfin]
    exact (htile u).2.2.trans (h.counted u)

omit [DecidableEq τ] in
theorem setFinishCycle (h : SparseLedger P heap pipe dma sent) (i : ι) (finishCycle : ℕ) :
    SparseLedger P (heap.setInst i { heap.inst i with finishCycle }) pipe dma sent := by
  refine h.of_agree (fun j => ?_) fun u => ⟨rfl, rfl, rfl⟩
  by_cases hj : j = i
  · subst hj
    simp
  · simp [CoreHeap.setInst_inst_of_ne _ _ hj]

theorem setStatus (h : SparseLedger P heap pipe dma sent) (t : τ) (status : TileStatus) :
    SparseLedger P (heap.setTile t { heap.tile t with status }) pipe dma sent := by
  refine h.of_agree (fun j => ⟨rfl, rfl, rfl, rfl⟩) fun u => ?_
  by_cases hu : u = t
  · subst hu
    simp
  · simp [CoreHeap.setTile_tile_of_ne _ _ hu]

end SparseLedger

end PyTorchSim.Analysis
