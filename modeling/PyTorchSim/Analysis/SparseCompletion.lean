import Mathlib.Data.List.Perm.Basic
import PyTorchSim.Analysis.SparseLedger

/-!
# Completion of the tiles of a sparse core

A subcore in trace mode finishes its tile when the list of the tile is empty, so when all
instructions of the tile are issued.  They are done only if the tile has counted all of them as
finished, which is what a core tests, and none of its stores waits for a request.
-/

set_option autoImplicit false

namespace PyTorchSim.Analysis

open Relation
open PyTorchSim.Model PyTorchSim.Library

variable {τ ι : Type} [DecidableEq τ] [DecidableEq ι]

/-- What is called when the requests of a list are answered. -/
def callbacksOf (l : List (SparseRequest ι)) : List (SparseCallback ι) :=
  l.flatMap SparseRequest.callbacks

/-- The requests of an instruction that are in a queue of the core or, as part of `away`, out of
it. -/
def onTheWay (away : List (SparseCallback ι)) (c : SparseCore τ ι) (i : ι) : ℕ :=
  (callbacksOf c.requestMergeTable ++ callbacksOf c.requestQueue ++ callbacksOf c.responseQueue ++
    away).count (.decWaitingRequest i)

/-- The instructions of a sparse core are where the ledger says. -/
def SparseTracked (P : TileProgram τ ι) (away : List (SparseCallback ι)) (c : SparseCore τ ι) :
    Prop :=
  SparseLedger P c.heap c.vuComputePipeline c.dmaFinishedQueue (onTheWay away c)

/-- Each instruction of a tile is finished, is not in the pipeline, and has no request on its
way. -/
def TileDone (P : TileProgram τ ι) (inFlight : List (SparseRequest ι)) (c : SparseCore τ ι) (t : τ) :
    Prop :=
  ∀ i ∈ (P.heap.tile t).instructions, (c.heap.inst i).finished = true ∧
    i ∉ c.vuComputePipeline ∧ onTheWay (callbacksOf inFlight) c i = 0

/-- In a cycle from `s`, subcore `n` is in trace mode and gives the tile `t` status `FINISH`, in
the state `c`. -/
structure FinishesAt (cfg : SparseConfig) (s : SparseSystem τ ι) (env : SparseEnv) (n : ℕ) (t : τ)
    (c : SparseCore τ ι) : Prop where
  turn : ∃ d, s.core.turns cfg env n = .ok d ∧ d.traceMode n = true ∧ d.collect = .ok c
  subcore : n < cfg.nrCores
  front : (c.percoreTiles n).head? = some t
  finishes : c.finishesTile n t = true

section

variable {cfg : SparseConfig} {P : TileProgram τ ι} {away : List (SparseCallback ι)}
  {c c' : SparseCore τ ι} {i : ι} {t : τ}

omit [DecidableEq τ] in
/-- A request that is registered is in the table. -/
theorem count_insertCallback (addr : ℕ) (isWrite : Bool) (f g : SparseCallback ι)
    (l : List (SparseRequest ι)) :
    (callbacksOf (SparseCore.insertCallback addr isWrite f l)).count g =
      (callbacksOf l).count g + if f = g then 1 else 0 := by
  induction l with
  | nil => simp [SparseCore.insertCallback, callbacksOf, List.count_singleton]
  | cons r l ih =>
      unfold callbacksOf at ih ⊢
      unfold SparseCore.insertCallback
      split
      · simp only [List.flatMap_cons, List.count_append, List.count_singleton, beq_iff_eq]
        omega
      · split
        · simp only [List.flatMap_cons, List.count_append, List.count_singleton, beq_iff_eq]
          omega
        · simp only [List.flatMap_cons, List.count_append, ih]
          omega

omit [DecidableEq τ] in
/-- The requests of a load or store. -/
theorem sendRequests_spec (cfg : SparseConfig) (i : ι) (isWrite : Bool) (l : List ℕ)
    (c : SparseCore τ ι) :
    ∃ table, SparseCore.sendRequests cfg i isWrite l c = { c with
        heap := c.heap.setInst i { c.heap.inst i with
          nrWaitingRequest := (c.heap.inst i).nrWaitingRequest + l.length }
        requestMergeTable := table } ∧
      ∀ f, (callbacksOf table).count f = (callbacksOf c.requestMergeTable).count f +
        if .decWaitingRequest i = f then l.length else 0 := by
  induction l generalizing c with
  | nil =>
      refine ⟨c.requestMergeTable, ?_, by simp⟩
      unfold SparseCore.sendRequests CoreHeap.setInst
      simp
  | cons addr l ih =>
      unfold SparseCore.sendRequests
      obtain ⟨table, heq, hcount⟩ := ih _
      refine ⟨table, heq.trans ?_, fun f => ?_⟩
      · simp only [SparseCore.registerMemfetch, CoreHeap.setInst, Function.update_self,
          Function.update_idem, List.length_cons, Nat.add_assoc, Nat.add_comm 1]
      · rw [hcount f, SparseCore.registerMemfetch, count_insertCallback]
        by_cases hf : .decWaitingRequest i = f
        · simp only [if_pos hf, List.length_cons]
          omega
        · simp only [if_neg hf, Nat.add_zero]

omit [DecidableEq τ] in
/-- The requests of a load or store that are sent are on their way. -/
theorem onTheWay_sendRequests {table : List (SparseRequest ι)} {n : ℕ} (heap : CoreHeap τ ι)
    (hcount : ∀ f, (callbacksOf table).count f = (callbacksOf c.requestMergeTable).count f +
      if .decWaitingRequest i = f then n else 0) (j : ι) :
    onTheWay away { c with heap, requestMergeTable := table } j =
      onTheWay away c j + if j = i then n else 0 := by
  unfold onTheWay
  simp only [List.count_append, hcount, SparseCallback.decWaitingRequest.injEq, eq_comm (a := i)]
  omega

/-- An instruction may be finished before or after the first instruction of a tile leaves its
list. -/
theorem SparseLedger.finish_eraseFront {heap : CoreHeap τ ι} {pipe dma : List ι} {sent : ι → ℕ}
    {tail : List ι}
    (h : SparseLedger P ((heap.setTile t { heap.tile t with instructions := tail }).finish i)
      pipe dma sent) (htail : tail = ((heap.finish i).tile t).instructions.tail) :
    SparseLedger P ((heap.finish i).setTile t
      { (heap.finish i).tile t with instructions := ((heap.finish i).tile t).instructions.tail })
      pipe dma sent := by
  obtain ⟨hinst, htile⟩ := CoreHeap.finish_frame heap i
  obtain ⟨hinst', htile'⟩ := CoreHeap.finish_frame
    (heap.setTile t { heap.tile t with instructions := tail }) i
  refine h.of_agree (fun j => ?_) fun u => ?_
  · obtain ⟨n, hn⟩ := hinst j
    obtain ⟨n', hn'⟩ := hinst' j
    rw [CoreHeap.setTile_inst, hn, hn']
    exact ⟨rfl, rfl, rfl, rfl⟩
  · obtain ⟨q, hq⟩ := htile u
    obtain ⟨q', hq'⟩ := htile' u
    rw [hq']
    by_cases hu : u = t
    · subst hu
      rw [CoreHeap.setTile_tile_self, CoreHeap.setTile_tile_self, hq, htail, hq]
      exact ⟨rfl, rfl, rfl⟩
    · rw [CoreHeap.setTile_tile_of_ne _ _ hu, CoreHeap.setTile_tile_of_ne _ _ hu, hq]
      exact ⟨rfl, rfl, rfl⟩

omit [DecidableEq τ] in
/-- The responses of a list of requests arrive. -/
theorem SparseTracked.runCallbacks (l : List (SparseCallback ι))
    (h : SparseTracked P (l ++ away) c) :
    SparseTracked P away (l.foldl SparseCore.runCallback c) := by
  induction l generalizing c with
  | nil => exact h
  | cons f l ih =>
      apply ih
      have hcount : ∀ j, onTheWay (f :: l ++ away) c j =
          onTheWay (l ++ away) c j + if f = .decWaitingRequest j then 1 else 0 := by
        intro j
        unfold onTheWay
        simp only [List.count_append, List.cons_append, List.count_cons, beq_iff_eq]
        omega
      cases f with
      | decWaitingRequest i =>
        refine SparseLedger.answer h fun j => ?_
        rw [hcount j]
        simp only [SparseCallback.decWaitingRequest.injEq, eq_comm (a := i)]
        rfl
      | pushResponse n =>
        have hsame : onTheWay (.pushResponse n :: l ++ away) c = onTheWay (l ++ away) c := by
          funext j
          rw [hcount j, if_neg nofun, Nat.add_zero]
        unfold SparseTracked at h
        rw [hsame] at h
        exact h

/-- The first instruction of a tile is a load or store: it leaves the list of the tile and its
requests are sent. -/
theorem SparseTracked.sendFront (h : SparseTracked P away c) {rest : List ι}
    (hfront : (c.heap.tile t).instructions = i :: rest)
    (hop : (c.heap.inst i).opcode = .movin ∨ (c.heap.inst i).opcode = .movout) {isWrite : Bool}
    {sent : SparseCore τ ι}
    (hsent : sent = SparseCore.sendRequests cfg i isWrite (c.traceAddress i) c) :
    SparseTracked P away (sent.eraseFront t) ∧
    Loose P (sent.eraseFront t).heap sent.vuComputePipeline sent.dmaFinishedQueue i ∧
    (P.heap.inst i).opcode = (c.heap.inst i).opcode ∧
    ((sent.eraseFront t).heap.inst i).finished = false := by
  obtain ⟨table, heq, hcount⟩ := sendRequests_spec cfg i isWrite (c.traceAddress i) c
  rw [heq] at hsent
  have hmem : i ∈ (c.heap.tile t).instructions := by
    rw [hfront]
    exact List.mem_cons_self
  have hfin := (h.listed t i hmem).1
  have hkind := (h.opcode i).symm
  obtain ⟨herased, hloose⟩ := h.eraseFront hfront
  have hsend : (P.heap.inst i).opcode = .movin ∧ (c.heap.inst i).finished = false ∨
      (P.heap.inst i).opcode = .movout := by
    rw [hkind]
    exact hop.imp (fun hop => ⟨hop, hfin⟩) id
  obtain ⟨htracked, hloose⟩ := herased.send hloose hsend (c.traceAddress i).length
    (onTheWay_sendRequests c.heap hcount)
  subst hsent
  refine ⟨htracked, hloose, hkind, ?_⟩
  rw [SparseCore.eraseFront, CoreHeap.setTile_inst, CoreHeap.setInst_inst_self]
  exact hfin

/-- A move keeps the instructions where the ledger says. -/
theorem SparseTracked.move (h : SparseTracked P away c) (hmove : SparseMove cfg c c') :
    SparseTracked P away c' := by
  cases hmove with
  | tick => exact h
  | sendStonne addr isWrite subcore =>
    have hsame : onTheWay away (c.registerMemfetch addr isWrite (.pushResponse subcore)) =
        onTheWay away c := by
      funext j
      unfold onTheWay SparseCore.registerMemfetch
      simp only [List.count_append, count_insertCallback, if_neg (nofun : ¬SparseCallback.pushResponse
        subcore = SparseCallback.decWaitingRequest j), Nat.add_zero]
    unfold SparseTracked
    rw [hsame]
    exact h
  | @finishCompute i rest hpipe hfin =>
    unfold SparseTracked at h
    rw [hpipe] at h
    have hop := (h.piped i List.mem_cons_self).2.1
    obtain ⟨hrest, hloose⟩ := h.popPipe
    exact (hrest.finish hloose hfin (.inl (h.comp_idle hop))).1
  | @finishLoad i rest hqueue hwait hop hfin =>
    unfold SparseTracked at h
    rw [hqueue] at h
    obtain ⟨hrest, hloose⟩ := h.popDma
    exact (hrest.finish hloose hfin (.inl hwait)).1
  | @dropStore i rest hqueue =>
    unfold SparseTracked at h
    rw [hqueue] at h
    exact h.popDma.1
  | @issueLoad t i rest hfront hop sent hsent =>
    obtain ⟨herased, hloose, hkind, hfin⟩ := h.sendFront hfront (.inl hop) hsent
    exact herased.pushDma hloose (.inl ⟨hkind.trans hop, hfin⟩)
  | @issueStore t i rest hfront hop sent hsent =>
    obtain ⟨herased, hloose, hkind, hfin⟩ := h.sendFront hfront (.inr hop) hsent
    obtain ⟨hdone, hloose⟩ := herased.finish hloose hfin (.inr (hkind.trans hop))
    refine (hdone.pushDma hloose (.inr (hkind.trans hop))).finish_eraseFront ?_
    obtain ⟨q, hq⟩ := (CoreHeap.finish_frame sent.heap i).2 t
    rw [hq]
  | @issueCompute t i rest hfront hop finishCycle =>
    have hmem : i ∈ (c.heap.tile t).instructions := by
      rw [hfront]
      exact List.mem_cons_self
    obtain ⟨herased, hloose⟩ := h.eraseFront hfront
    have hpushed := herased.pushPipe hloose ((h.opcode i).symm.trans hop) (h.listed t i hmem).1
    exact hpushed.setFinishCycle i finishCycle
  | @finishTile n t rest hbusy hfront => exact h.setStatus t .finish
  | sendToQueue =>
    have hsame : onTheWay away (c.sendToQueue cfg) = onTheWay away c := by
      funext j
      unfold onTheWay SparseCore.sendToQueue callbacksOf
      conv_rhs => rw [← List.take_append_drop (cfg.rPortNr + 1) c.requestMergeTable]
      simp only [List.count_append, List.flatMap_append]
      omega
    unfold SparseTracked
    rw [hsame]
    exact h
  | takeResponses =>
    apply SparseTracked.runCallbacks
    have hsame : onTheWay (callbacksOf (c.responseQueue.take (cfg.wPortNr + 1)) ++ away)
        { c with responseQueue := c.responseQueue.drop (cfg.wPortNr + 1) } = onTheWay away c := by
      funext j
      unfold onTheWay callbacksOf
      conv_rhs => rw [← List.take_append_drop (cfg.wPortNr + 1) c.responseQueue]
      simp only [List.count_append, List.flatMap_append]
      omega
    unfold SparseTracked
    unfold callbacksOf at hsame
    rw [hsame]
    exact h

/-- The state of a subcore when it finishes its tile is within a cycle. -/
theorem FinishesAt.moves {s : SparseSystem τ ι} {env : SparseEnv} {n : ℕ}
    (h : FinishesAt cfg s env n t c) : ReflTransGen (SparseMove cfg) s.core c := by
  obtain ⟨d, hturns, -, hcollect⟩ := h.turn
  exact (SparseMove.of_turns hturns).trans (SparseMove.of_collect hcollect)

theorem SparseTracked.moves (h : SparseTracked P away c)
    (hmoves : ReflTransGen (SparseMove cfg) c c') : SparseTracked P away c' :=
  Outcome.invariant (fun _ _ hc hmove => SparseTracked.move hc hmove) hmoves h

/-- An action keeps the instructions where the ledger says. -/
theorem SparseTracked.step {s s' : SparseSystem τ ι} {a : SparseAction τ}
    (h : SparseTracked P (callbacksOf s.inFlight) s.core) (hstep : s.step cfg a = .ok s') :
    SparseTracked P (callbacksOf s'.inFlight) s'.core := by
  cases a with
  | issue t =>
    dsimp only [SparseSystem.step] at hstep
    split at hstep
    · obtain ⟨core, hissue, hs⟩ := bind_eq_ok.mp hstep
      cases hs
      unfold SparseCore.issue at hissue
      split at hissue <;> cases hissue
      exact h
    · cases hstep
      exact h
  | cycle env =>
    obtain ⟨core, hcycle, hs⟩ := bind_eq_ok.mp hstep
    cases hs
    exact h.moves (SparseMove.of_cycle hcycle)
  | popFinishedTile =>
    cases hstep
    exact h
  | popMemoryRequest =>
    dsimp only [SparseSystem.step] at hstep
    split at hstep
    · cases hstep
      exact h
    · next r rest hqueue =>
      cases hstep
      have hsame : onTheWay (callbacksOf (s.inFlight ++ [r])) { s.core with requestQueue := rest } =
          onTheWay (callbacksOf s.inFlight) s.core := by
        funext j
        unfold onTheWay callbacksOf
        rw [hqueue]
        simp only [List.count_append, List.flatMap_append, List.flatMap_cons, List.flatMap_nil,
          List.count_nil]
        omega
      unfold SparseTracked
      rw [hsame]
      exact h
  | pushMemoryResponse n =>
    dsimp only [SparseSystem.step] at hstep
    split at hstep
    · cases hstep
      exact h
    · next r hr =>
      cases hstep
      obtain ⟨hn, hget⟩ := List.getElem?_eq_some_iff.mp hr
      have hperm : (r :: s.inFlight.eraseIdx n).Perm s.inFlight := by
        rw [← hget]
        exact List.getElem_cons_eraseIdx_perm hn
      have hsame : onTheWay (callbacksOf (s.inFlight.eraseIdx n))
          { s.core with responseQueue := s.core.responseQueue ++ [r] } =
          onTheWay (callbacksOf s.inFlight) s.core := by
        funext j
        unfold onTheWay callbacksOf
        have hcount := (hperm.flatMap_right SparseRequest.callbacks).count_eq
          (SparseCallback.decWaitingRequest j)
        simp only [List.flatMap_cons, List.count_append, List.flatMap_append, List.flatMap_nil,
          List.count_nil] at hcount ⊢
        omega
      unfold SparseTracked
      rw [hsame]
      exact h

/-- In every state of a run the instructions are where the ledger says. -/
theorem sparseTracked {customData : τ → Bool} {traceAddress : ι → List ℕ} {s : SparseSystem τ ι}
    (h : Reach (SparseSystem.step cfg) (fun _ _ => True) (.init P customData traceAddress) s) :
    SparseTracked P (callbacksOf s.inFlight) s.core := by
  apply h.invariant (I := fun s => SparseTracked P (callbacksOf s.inFlight) s.core)
  · exact SparseLedger.init P
  · intro s a s' _ hs _ hstep
    exact hs.step hstep

omit [DecidableEq τ] in
/-- The instructions of a tile are done when it has counted them and no store waits. -/
theorem SparseTracked.tileDone_iff {inFlight : List (SparseRequest ι)}
    (h : SparseTracked P (callbacksOf inFlight) c) :
    TileDone P inFlight c t ↔ (c.heap.tile t).allInstsFinished = true ∧
      ∀ i ∈ (P.heap.tile t).instructions, (c.heap.inst i).isDmaWrite = true →
        (c.heap.inst i).nrWaitingRequest = 0 := by
  have hall : (c.heap.tile t).allInstsFinished = true ↔
      ∀ i ∈ (P.heap.tile t).instructions, (c.heap.inst i).finished = true := by
    unfold Tile.allInstsFinished
    rw [decide_eq_true_eq, h.nrInsts t, P.nrInsts t, h.counted t, eq_comm, List.countP_eq_length]
  constructor
  · intro hdone
    refine ⟨hall.mpr fun i hi => (hdone i hi).1, fun i hi _ => ?_⟩
    rw [h.waiting i]
    exact (hdone i hi).2.2
  · rintro ⟨hcounted, hstores⟩ i hi
    have hfin := hall.mp hcounted i hi
    refine ⟨hfin, fun hpipe => ?_, ?_⟩
    · rw [(h.piped i hpipe).2.2] at hfin
      cases hfin
    · rw [← h.waiting i]
      by_contra hne
      rcases h.waits i hne with ⟨-, hnot⟩ | hop
      · rw [hnot] at hfin
        cases hfin
      · exact hne (hstores i hi (decide_eq_true ((h.opcode i).trans hop)))

/-- **A subcore in trace mode finishes a tile whose instructions are done exactly when the tile
has counted all of its instructions as finished and none of its stores waits for a request.** -/
theorem finishesAt_done_iff {customData : τ → Bool} {traceAddress : ι → List ℕ}
    {s : SparseSystem τ ι} {env : SparseEnv} {n : ℕ}
    (h : Reach (SparseSystem.step cfg) (fun _ _ => True) (.init P customData traceAddress) s)
    (hfinishes : FinishesAt cfg s env n t c) :
    TileDone P s.inFlight c t ↔ (c.heap.tile t).allInstsFinished = true ∧
      ∀ i ∈ (P.heap.tile t).instructions, (c.heap.inst i).isDmaWrite = true →
        (c.heap.inst i).nrWaitingRequest = 0 :=
  ((sparseTracked h).moves hfinishes.moves).tileDone_iff

/-- A tile with one compute instruction. -/
def oneCompute (computeCycle : ℕ) : TileProgram ℕ ℕ where
  heap := {
    tile := fun t =>
      if t = 0 then { nrInsts := 1, instructions := [0], stonneTile := true } else {}
    inst := fun i => { id := i, opcode := .comp, owner := 0, computeCycle } }
  insts_nodup := by
    intro t
    by_cases ht : t = 0 <;> simp [ht]
  owner := by
    intro t i hi
    by_cases ht : t = 0
    · exact ht.symm
    · simp [ht] at hi
  nrInsts := by
    intro t
    by_cases ht : t = 0 <;> simp [ht]
  nrFinishedInsts := by
    intro t
    by_cases ht : t = 0 <;> simp [ht]
  readyQueue := by
    intro t
    by_cases ht : t = 0 <;> simp [ht]
  finished := fun _ => rfl
  nrWaitingRequest := fun _ => rfl
  child_nodup := fun _ => List.nodup_nil
  child_mem := nofun
  readyCounter := by simp

/-- One subcore. -/
def oneSubcore : SparseConfig where
  nrCores := 1
  rPortNr := 0
  wPortNr := 0
  dramReqSize := 32

/-- A compute instruction without cycles is done in the next cycle. -/
theorem finishesAt_done_iff_oneCompute :
    ∃ (s : SparseSystem ℕ ℕ) (c : SparseCore ℕ ℕ), FinishesAt oneSubcore s {} 0 0 c ∧
      TileDone (oneCompute 0) s.inFlight c 0 := by
  have hrun : ∃ s c, [SparseAction.issue 0, .cycle {}].foldlM (SparseSystem.step oneSubcore)
      (.init (oneCompute 0) (fun _ => false) (fun _ => [])) = .ok s ∧
      FinishesAt oneSubcore s {} 0 0 c ∧ (c.heap.tile 0).allInstsFinished = true ∧
      (c.heap.inst 0).isDmaWrite = false :=
    ⟨_, _, rfl, ⟨⟨_, rfl, rfl, rfl⟩, Nat.one_pos, rfl, rfl⟩, rfl, rfl⟩
  obtain ⟨s, c, hrun, hfinishes, hall, hnot⟩ := hrun
  refine ⟨s, c, hfinishes, (finishesAt_done_iff
    (.of_foldlM _ .init hrun fun _ _ _ => trivial) hfinishes).mpr ⟨hall, fun i hi hstore => ?_⟩⟩
  have hzero : i = 0 := List.mem_singleton.mp hi
  rw [hzero, hnot] at hstore
  cases hstore

/-- A compute instruction of ten cycles is in the pipeline when its tile is finished. -/
theorem not_finishesAt_done :
    ¬∀ (s : SparseSystem ℕ ℕ) (env : SparseEnv) (n t : ℕ) (c : SparseCore ℕ ℕ),
      Reach (SparseSystem.step oneSubcore) (fun _ _ => True)
        (.init (oneCompute 10) (fun _ => false) (fun _ => [])) s →
      FinishesAt oneSubcore s env n t c → TileDone (oneCompute 10) s.inFlight c t := by
  have hrun : ∃ s c, [SparseAction.issue 0, .cycle {}].foldlM (SparseSystem.step oneSubcore)
      (.init (oneCompute 10) (fun _ => false) (fun _ => [])) = .ok s ∧
      FinishesAt oneSubcore s {} 0 0 c ∧ c.vuComputePipeline = [0] :=
    ⟨_, _, rfl, ⟨⟨_, rfl, rfl, rfl⟩, Nat.one_pos, rfl, rfl⟩, rfl⟩
  obtain ⟨s, c, hrun, hfinishes, hpipe⟩ := hrun
  intro hall
  have hdone := hall s {} 0 0 c (.of_foldlM _ .init hrun fun _ _ _ => trivial) hfinishes
  apply (hdone 0 List.mem_cons_self).2.1
  rw [hpipe]
  exact List.mem_cons_self

end

end PyTorchSim.Analysis
