import PyTorchSim.Model.SparseCore
import PyTorchSim.Library.Runs

/-!
# The moves of a sparse core

A cycle of a sparse core is a row of moves: it registers a request of a STONNE core, takes a
finished instruction from the pipeline or from the queue of the loads and stores, issues an
instruction, finishes the tile of a subcore, or serves the queues of the memory.  `SparseMove`
says all that one of them can do, so that an invariant is checked on each of them once.
-/

set_option autoImplicit false

namespace PyTorchSim.Analysis

open Relation
open PyTorchSim.Model PyTorchSim.Library

variable {τ ι : Type} [DecidableEq τ] [DecidableEq ι]

/-- What a sparse core does within a cycle. -/
inductive SparseMove (cfg : SparseConfig) (c : SparseCore τ ι) : SparseCore τ ι → Prop
  | tick : SparseMove cfg c { c with coreCycle := c.coreCycle + 1 }
  | sendStonne (addr : ℕ) (isWrite : Bool) (subcore : ℕ) :
      SparseMove cfg c (c.registerMemfetch addr isWrite (.pushResponse subcore))
  | finishCompute {i : ι} {rest : List ι} (hpipe : c.vuComputePipeline = i :: rest)
      (hfin : (c.heap.inst i).finished = false) :
      SparseMove cfg c { c with heap := c.heap.finish i, vuComputePipeline := rest }
  | finishLoad {i : ι} {rest : List ι} (hqueue : c.dmaFinishedQueue = i :: rest)
      (hwait : (c.heap.inst i).nrWaitingRequest = 0) (hop : (c.heap.inst i).opcode = .movin)
      (hfin : (c.heap.inst i).finished = false) :
      SparseMove cfg c { c with heap := c.heap.finish i, dmaFinishedQueue := rest }
  | dropStore {i : ι} {rest : List ι} (hqueue : c.dmaFinishedQueue = i :: rest) :
      SparseMove cfg c { c with dmaFinishedQueue := rest }
  | issueLoad {t : τ} {i : ι} {rest : List ι} (hfront : (c.heap.tile t).instructions = i :: rest)
      (hop : (c.heap.inst i).opcode = .movin) {sent : SparseCore τ ι}
      (hsent : sent = SparseCore.sendRequests cfg i false (c.traceAddress i) c) :
      SparseMove cfg c ({ sent with
        dmaFinishedQueue := sent.dmaFinishedQueue ++ [i] }.eraseFront t)
  | issueStore {t : τ} {i : ι} {rest : List ι} (hfront : (c.heap.tile t).instructions = i :: rest)
      (hop : (c.heap.inst i).opcode = .movout) {sent : SparseCore τ ι}
      (hsent : sent = SparseCore.sendRequests cfg i true (c.traceAddress i) c)
      (hfin : (sent.heap.inst i).finished = false) :
      SparseMove cfg c ({ sent with
        heap := sent.heap.finish i
        dmaFinishedQueue := sent.dmaFinishedQueue ++ [i] }.eraseFront t)
  | issueCompute {t : τ} {i : ι} {rest : List ι}
      (hfront : (c.heap.tile t).instructions = i :: rest)
      (hop : (c.heap.inst i).opcode = .comp) (finishCycle : ℕ) :
      SparseMove cfg c ({ c with
        heap := c.heap.setInst i { c.heap.inst i with finishCycle }
        vuComputePipeline := c.vuComputePipeline ++ [i] }.eraseFront t)
  | finishTile {n : ℕ} {t : τ} {rest : List τ} (hbusy : c.coreBusy n = true)
      (hfront : c.percoreTiles n = t :: rest) : SparseMove cfg c (c.finishTile n t)
  | sendToQueue : SparseMove cfg c (c.sendToQueue cfg)
  | takeResponses : SparseMove cfg c (c.takeResponses cfg)

namespace SparseMove

variable {cfg : SparseConfig} {env : SparseEnv} {c c' : SparseCore τ ι} {n : ℕ} {t : τ} {i : ι}

theorem finishInstruction_ok (h : c.finishInstruction i = .ok c') :
    (c.heap.inst i).finished = false ∧ c' = { c with heap := c.heap.finish i } := by
  unfold SparseCore.finishInstruction at h
  split at h
  · cases h
  · next hfin =>
    cases h
    exact ⟨by simpa using hfin, rfl⟩

/-- The requests of a STONNE core. -/
theorem of_sendStonne (l : List (ℕ × Option Bool)) {valid : Bool}
    (h : SparseCore.sendStonne cfg n l c = .ok (c', valid)) :
    ReflTransGen (SparseMove cfg) c c' := by
  induction l generalizing c with
  | nil =>
      cases h
      exact .refl
  | cons r l ih =>
      obtain ⟨addr, cmd⟩ := r
      unfold SparseCore.sendStonne at h
      split at h
      · cases h
      · cases cmd with
        | none =>
            cases h
            exact .refl
        | some isWrite => exact .head (.sendStonne _ _ _) (ih h)

/-- The turn of a subcore with a STONNE operation. -/
theorem of_stonneTurn (h : c.stonneTurn cfg env n = .ok c') :
    ReflTransGen (SparseMove cfg) c c' := by
  obtain ⟨⟨d, valid⟩, hsend, h⟩ := bind_eq_ok.mp h
  refine (of_sendStonne _ hsend).trans ?_
  dsimp only at h
  split at h
  · next hdone =>
    split at h
    · cases h
    · next t rest hfront =>
      split at h
      · cases h
        simp only [Bool.and_eq_true] at hdone
        exact .single (.finishTile hdone.1.2 hfront)
      · cases h
  · cases h
    exact .refl

/-- The instruction at the front of the pipeline. -/
theorem of_collectCompute (h : c.collectCompute = .ok c') : ReflTransGen (SparseMove cfg) c c' := by
  unfold SparseCore.collectCompute at h
  split at h
  · cases h
    exact .refl
  · next i rest hpipe =>
    split at h
    · obtain ⟨d, hfinish, h⟩ := bind_eq_ok.mp h
      obtain ⟨hfin, rfl⟩ := finishInstruction_ok hfinish
      cases h
      exact .single (.finishCompute hpipe hfin)
    · cases h
      exact .refl

/-- The loads and stores at the front of their queue. -/
theorem of_collectDma (l : List ι) (hqueue : c.dmaFinishedQueue = l)
    (h : SparseCore.collectDma l c = .ok c') : ReflTransGen (SparseMove cfg) c c' := by
  induction l generalizing c with
  | nil =>
      cases h
      exact .refl
  | cons i l ih =>
      unfold SparseCore.collectDma at h
      split at h
      · cases h
        exact .refl
      · next hwait =>
        dsimp only at h
        split at h
        · next hread =>
          obtain ⟨d, hd, h⟩ := bind_eq_ok.mp h
          obtain ⟨hfin, rfl⟩ := finishInstruction_ok hd
          refine .head ?_ (ih rfl h)
          exact .finishLoad hqueue (not_not.mp hwait) (of_decide_eq_true hread) hfin
        · exact .head (.dropStore hqueue) (ih rfl h)

/-- What is done before a subcore in trace mode looks at its tile. -/
theorem of_collect (h : c.collect = .ok c') : ReflTransGen (SparseMove cfg) c c' := by
  obtain ⟨d, hd, h⟩ := bind_eq_ok.mp h
  exact (of_collectCompute hd).trans (of_collectDma _ rfl h)

/-- An instruction is issued. -/
theorem of_issueInst {rest : List ι} (hfront : (c.heap.tile t).instructions = i :: rest)
    (h : c.issueInst cfg t i = .ok c') : SparseMove cfg c c' := by
  unfold SparseCore.issueInst at h
  split at h
  · next hop =>
    cases h
    exact .issueLoad hfront hop rfl
  · next hop =>
    obtain ⟨d, hd, h⟩ := bind_eq_ok.mp h
    obtain ⟨hfin, rfl⟩ := finishInstruction_ok hd
    cases h
    exact .issueStore hfront hop rfl hfin
  · next hop =>
    cases h
    exact .issueCompute hfront hop _
  · cases h

/-- What a subcore in trace mode does with its tile. -/
theorem of_advance (h : c.advance cfg n = .ok c') : ReflTransGen (SparseMove cfg) c c' := by
  unfold SparseCore.advance at h
  split at h
  · cases h
    exact .refl
  · next t rest hfront =>
    split at h
    · next hdone =>
      cases h
      unfold SparseCore.finishesTile at hdone
      rw [Bool.and_eq_true] at hdone
      exact .single (.finishTile hdone.1 hfront)
    · split at h
      · cases h
        exact .refl
      · next i rest hinst =>
        split at h
        · exact .single (of_issueInst hinst h)
        · cases h
          exact .refl

/-- The turn of a subcore. -/
theorem of_subCoreCycle (h : c.subCoreCycle cfg env n = .ok c') :
    ReflTransGen (SparseMove cfg) c c' := by
  unfold SparseCore.subCoreCycle at h
  split at h
  · obtain ⟨d, hd, h⟩ := bind_eq_ok.mp h
    exact (of_collect hd).trans (of_advance h)
  · exact of_stonneTurn h

/-- The turns of the first subcores of a cycle. -/
theorem of_turns (h : c.turns cfg env n = .ok c') : ReflTransGen (SparseMove cfg) c c' := by
  refine foldlM_invariant (I := ReflTransGen (SparseMove cfg) c) _ h (.single .tick) ?_
  intro d m d' _ hd hturn
  exact hd.trans (of_subCoreCycle hturn)

/-- **A cycle is a row of moves.** -/
theorem of_cycle (h : c.cycle cfg env = .ok c') : ReflTransGen (SparseMove cfg) c c' := by
  obtain ⟨d, hd, h⟩ := bind_eq_ok.mp h
  cases h
  exact ((of_turns hd).tail .sendToQueue).tail .takeResponses

end SparseMove

end PyTorchSim.Analysis
