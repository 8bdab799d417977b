import PyTorchSim.Analysis.InstructionFinish
import PyTorchSim.Library.Exclusive

/-!
# Where the instructions of a core are

An instruction that is ready is in a ready queue, a compute pipeline, a queue of the DMA
engine or the list of waiters of a tag, in one place at most.  `PlacementInv` states this
together with what the place says about the instruction: its counter is 0, and its flag
`finished` is set exactly in the last two places of a store or an asynchronous load.

The lemmas take an instruction from its place into hand, finish it, and put it into another
place; `InHand` is what is known of it in between.
-/

set_option autoImplicit false

namespace PyTorchSim.Model

variable {τ ι : Type}

/-- The fields of an instruction that no operation of a core changes. -/
structure InstKind (τ ι : Type) where
  opcode : Opcode
  owner : τ
  computeType : ℕ
  childInst : List ι
  subgraphId : ℕ
  tagKey : List ℤ
  isAsyncDma : Bool
  isSparseInst : Bool

/-- The constant part of an instruction. -/
def Instruction.kind (i : Instruction τ ι) : InstKind τ ι where
  opcode := i.opcode
  owner := i.owner
  computeType := i.computeType
  childInst := i.childInst
  subgraphId := i.subgraphId
  tagKey := i.tagKey
  isAsyncDma := i.isAsyncDma
  isSparseInst := i.isSparseInst

end PyTorchSim.Model

namespace PyTorchSim.Analysis

open PyTorchSim.Model PyTorchSim.Library

variable {τ ι : Type}

/-- Where a core keeps an instruction that is ready. -/
inductive Place (τ : Type)
  | ready (t : τ)
  | pipe (p : Core.Pipeline)
  | ld
  | st
  | dma
  | waiting
  | arrived
  | waiter (g : ℕ) (key : List ℤ)
  deriving DecidableEq

namespace Place

/-- The flag `finished` of an instruction at a place. -/
def finishedAt : Place τ → InstKind τ ι → Bool
  | .waiting, k => !(k.opcode = .movin && !k.isAsyncDma)
  | .arrived, k => !(k.opcode = .movin && !k.isAsyncDma)
  | _, _ => false

/-- The instructions that come to a place. -/
def Fits : Place τ → InstKind τ ι → Prop
  | .ready _, _ => True
  | .pipe _, k => k.opcode = .comp
  | .ld, k => k.opcode = .movin
  | .st, k => k.opcode = .movout
  | .dma, k => k.opcode = .movin ∨ k.opcode = .movout
  | .waiting, k => k.opcode = .movin ∨ k.opcode = .movout
  | .arrived, k => k.opcode = .movin ∨ k.opcode = .movout
  | .waiter _ _, k => k.opcode = .movin ∨ k.opcode = .bar

end Place

/-- The instructions at each place: the ready queues are in the heap. -/
def places (h : CoreHeap τ ι) (other : Place τ → List ι) : Place τ → List ι
  | .ready t => (h.tile t).readyQueue
  | p => other p

theorem places_eq {p : Place τ} (hp : ∀ t, p ≠ .ready t) (h : CoreHeap τ ι)
    (other : Place τ → List ι) : places h other p = other p := by
  cases p with
  | ready t => exact absurd rfl (hp t)
  | _ => rfl

variable [DecidableEq ι]

/-- The kind of an instruction. -/
def kindOf (P : TileProgram τ ι) (i : ι) : InstKind τ ι := (P.heap.inst i).kind

/-- The instructions of a tile. -/
def instsOf (P : TileProgram τ ι) (t : τ) : List ι := (P.heap.tile t).instructions

/-- The objects of a core and the places of its instructions, when the tiles `issued` were
given to it. -/
structure PlacementInv (P : TileProgram τ ι) (issued : List τ) (h : CoreHeap τ ι)
    (other : Place τ → List ι) : Prop where
  kind : ∀ i, (h.inst i).kind = kindOf P i
  insts : ∀ t, (h.tile t).instructions = instsOf P t
  nrInsts : ∀ t, (h.tile t).nrInsts = (instsOf P t).length
  nrFinished : ∀ t, (h.tile t).nrFinishedInsts =
    (instsOf P t).countP fun i => (h.inst i).finished
  exclusive : Exclusive (places h other)
  owned : ∀ p, ∀ i ∈ places h other p,
    (kindOf P i).owner ∈ issued ∧ i ∈ instsOf P (kindOf P i).owner
  home : ∀ t, ∀ i ∈ (h.tile t).readyQueue, (kindOf P i).owner = t
  zero : ∀ p, ∀ i ∈ places h other p, (h.inst i).readyCounter = 0
  flag : ∀ p, ∀ i ∈ places h other p, (h.inst i).finished = p.finishedAt (kindOf P i)
  fits : ∀ p, ∀ i ∈ places h other p, p.Fits (kindOf P i)
  counter : ∀ t, ∀ j ∈ instsOf P t,
    (instsOf P t).countP (fun i => !(h.inst i).finished && j ∈ (kindOf P i).childInst) ≤
      (h.inst j).readyCounter
  done : ∀ i, (h.inst i).finished = true → (h.inst i).readyCounter = 0
  fresh : ∀ i, (kindOf P i).owner ∉ issued → (h.inst i).finished = false

/-- An instruction that was taken from its place. -/
structure InHand (P : TileProgram τ ι) (issued : List τ) (h : CoreHeap τ ι)
    (other : Place τ → List ι) (i : ι) (finished : Bool) : Prop where
  nowhere : ∀ p, i ∉ places h other p
  issued : (kindOf P i).owner ∈ issued
  mem : i ∈ instsOf P (kindOf P i).owner
  zero : (h.inst i).readyCounter = 0
  flag : (h.inst i).finished = finished

/-- Two heaps that differ at most in the ready queues and in the fields of instructions that
have nothing to do with their order. -/
structure SameData (h h' : CoreHeap τ ι) : Prop where
  kind : ∀ i, (h'.inst i).kind = (h.inst i).kind
  readyCounter : ∀ i, (h'.inst i).readyCounter = (h.inst i).readyCounter
  finished : ∀ i, (h'.inst i).finished = (h.inst i).finished
  insts : ∀ t, (h'.tile t).instructions = (h.tile t).instructions
  nrInsts : ∀ t, (h'.tile t).nrInsts = (h.tile t).nrInsts
  nrFinished : ∀ t, (h'.tile t).nrFinishedInsts = (h.tile t).nrFinishedInsts

namespace SameData

variable {h : CoreHeap τ ι}

omit [DecidableEq ι] in
theorem refl (h : CoreHeap τ ι) : SameData h h :=
  ⟨fun _ => rfl, fun _ => rfl, fun _ => rfl, fun _ => rfl, fun _ => rfl, fun _ => rfl⟩

omit [DecidableEq ι] in
theorem popReady [DecidableEq τ] (h : CoreHeap τ ι) (t : τ) : SameData h (h.popReady t) := by
  refine ⟨fun _ => rfl, fun _ => rfl, fun _ => rfl, fun u => ?_, fun u => ?_, fun u => ?_⟩ <;>
    rw [CoreHeap.popReady_tile]

theorem setInst {i : ι} {v : Instruction τ ι} (hkind : v.kind = (h.inst i).kind)
    (hcounter : v.readyCounter = (h.inst i).readyCounter)
    (hfinished : v.finished = (h.inst i).finished) : SameData h (h.setInst i v) := by
  refine ⟨fun j => ?_, fun j => ?_, fun j => ?_, fun _ => rfl, fun _ => rfl, fun _ => rfl⟩ <;>
  · by_cases hj : j = i
    · subst hj
      rw [CoreHeap.setInst_inst_self]
      assumption
    · rw [CoreHeap.setInst_inst_of_ne _ _ hj]

theorem skipMatmuls (h : CoreHeap τ ι) (l : List ι) : SameData h (Core.skipMatmuls h l) := by
  obtain ⟨htile, hinst⟩ := CoreHeap.skipMatmuls_spec l h
  refine ⟨fun j => ?_, fun j => ?_, fun j => ?_, fun t => ?_, fun t => ?_, fun t => ?_⟩
  · obtain ⟨n, hn⟩ := hinst j
    rw [hn]
    rfl
  · obtain ⟨n, hn⟩ := hinst j
    rw [hn]
  · obtain ⟨n, hn⟩ := hinst j
    rw [hn]
  all_goals rw [htile]

end SameData

namespace PlacementInv

variable {P : TileProgram τ ι} {issued : List τ} {h h' : CoreHeap τ ι}
  {other other' : Place τ → List ι} {i j : ι} {p : Place τ} {t : τ} {b : Bool}

/-- An unfinished parent keeps the counter of its children positive. -/
theorem counter_pos (hI : PlacementInv P issued h other) (hi : i ∈ instsOf P t)
    (hflag : (h.inst i).finished = false) (hj : j ∈ (kindOf P i).childInst) :
    0 < (h.inst j).readyCounter := by
  have hjmem : j ∈ instsOf P t := P.child_mem t i hi j hj
  have hcount := hI.counter t j hjmem
  have hpos : 0 < (instsOf P t).countP
      (fun k => !(h.inst k).finished && j ∈ (kindOf P k).childInst) :=
    List.countP_pos_iff.mpr ⟨i, hi, by simp [hflag, hj]⟩
  omega

/-- Instructions leave their places, and fields that have nothing to do with the places
change. -/
theorem shrink (hI : PlacementInv P issued h other) (hdata : SameData h h')
    (hsub : ∀ p, (places h' other' p).Subperm (places h other p)) :
    PlacementInv P issued h' other' := by
  refine ⟨fun i => ?_, fun t => ?_, fun t => ?_, fun t => ?_, hI.exclusive.shrink hsub,
    fun p i hi => ?_, fun t i hi => ?_, fun p i hi => ?_, fun p i hi => ?_, fun p i hi => ?_,
    fun t j hj => ?_, fun i hi => ?_, fun i hi => ?_⟩
  · rw [hdata.kind, hI.kind]
  · rw [hdata.insts, hI.insts]
  · rw [hdata.nrInsts, hI.nrInsts]
  · rw [hdata.nrFinished, hI.nrFinished]
    simp only [hdata.finished]
  · exact hI.owned p i ((hsub p).subset hi)
  · exact hI.home t i ((hsub (.ready t)).subset hi)
  · rw [hdata.readyCounter]
    exact hI.zero p i ((hsub p).subset hi)
  · rw [hdata.finished]
    exact hI.flag p i ((hsub p).subset hi)
  · exact hI.fits p i ((hsub p).subset hi)
  · simp only [hdata.finished, hdata.readyCounter]
    exact hI.counter t j hj
  · rw [hdata.finished] at hi
    rw [hdata.readyCounter]
    exact hI.done i hi
  · rw [hdata.finished]
    exact hI.fresh i hi

/-- An instruction that left its place is in hand. -/
theorem inHand (hI : PlacementInv P issued h other) (hdata : SameData h h')
    (hsub : ∀ p, (places h' other' p).Subperm (places h other p)) (hi : i ∈ places h other p)
    (hnot : i ∉ places h' other' p) :
    InHand P issued h' other' i (p.finishedAt (kindOf P i)) := by
  refine ⟨hI.exclusive.nowhere hsub hi hnot, (hI.owned p i hi).1, (hI.owned p i hi).2, ?_, ?_⟩
  · rw [hdata.readyCounter]
    exact hI.zero p i hi
  · rw [hdata.finished]
    exact hI.flag p i hi

/-- An instruction in hand enters a place. -/
theorem enter (hI : PlacementInv P issued h other) (hi : InHand P issued h other i b)
    (hready : ∀ t, p ≠ .ready t) (hflag : b = p.finishedAt (kindOf P i))
    (hfits : p.Fits (kindOf P i)) (hp : (other' p).Perm (i :: other p))
    (hother : ∀ q, q ≠ p → (other' q).Perm (other q)) : PlacementInv P issued h other' := by
  have henter : (places h other' p).Perm (i :: places h other p) := by
    rw [places_eq hready, places_eq hready]
    exact hp
  have hrest : ∀ q, q ≠ p → (places h other' q).Perm (places h other q) := by
    intro q hq
    cases q with
    | ready t => exact List.Perm.refl _
    | _ => exact hother _ hq
  have hcases : ∀ q j, j ∈ places h other' q → j ∈ places h other q ∨ (j = i ∧ q = p) := by
    intro q j hj
    by_cases hq : q = p
    · subst hq
      rcases List.mem_cons.mp (henter.mem_iff.mp hj) with rfl | hj
      · exact .inr ⟨rfl, rfl⟩
      · exact .inl hj
    · exact .inl ((hrest q hq).mem_iff.mp hj)
  refine ⟨hI.kind, hI.insts, hI.nrInsts, hI.nrFinished,
    hI.exclusive.enter hi.nowhere henter hrest, fun q j hj => ?_, hI.home, fun q j hj => ?_,
    fun q j hj => ?_, fun q j hj => ?_, hI.counter, hI.done, hI.fresh⟩
  · rcases hcases q j hj with hj | ⟨rfl, rfl⟩
    · exact hI.owned q j hj
    · exact ⟨hi.issued, hi.mem⟩
  · rcases hcases q j hj with hj | ⟨rfl, rfl⟩
    · exact hI.zero q j hj
    · exact hi.zero
  · rcases hcases q j hj with hj | ⟨rfl, rfl⟩
    · exact hI.flag q j hj
    · rw [hi.flag, hflag]
  · rcases hcases q j hj with hj | ⟨rfl, rfl⟩
    · exact hI.fits q j hj
    · exact hfits

end PlacementInv

/-! ## Finishing an instruction -/

section Finish

variable [DecidableEq τ] {P : TileProgram τ ι} {issued : List τ} {h : CoreHeap τ ι}
  {other : Place τ → List ι} {i j : ι} {t : τ} {b : Bool}

/-- The facts about an instruction in hand that `finish` needs. -/
structure Finishable (P : TileProgram τ ι) (h : CoreHeap τ ι) (i : ι) : Prop where
  children : (h.inst i).childInst = (kindOf P i).childInst
  owner : (h.inst i).owner = (kindOf P i).owner
  nodup : (h.inst i).childInst.Nodup
  not_self : i ∉ (h.inst i).childInst
  child : ∀ j ∈ (kindOf P i).childInst, j ∈ instsOf P (kindOf P i).owner ∧
    (kindOf P j).owner = (kindOf P i).owner ∧ 0 < (h.inst j).readyCounter

omit [DecidableEq τ] in
theorem PlacementInv.finishable (hI : PlacementInv P issued h other)
    (hi : InHand P issued h other i false) : Finishable P h i := by
  have hkind := hI.kind i
  have hchildren : (h.inst i).childInst = (kindOf P i).childInst :=
    congrArg InstKind.childInst hkind
  refine ⟨hchildren, congrArg InstKind.owner hkind, ?_, ?_, ?_⟩
  · rw [hchildren]
    exact P.child_nodup i
  · rw [hchildren]
    intro hself
    have hpos := hI.counter_pos hi.mem hi.flag hself
    have hzero := hi.zero
    omega
  · intro j hj
    have hjmem : j ∈ instsOf P (kindOf P i).owner := P.child_mem _ i hi.mem j hj
    exact ⟨hjmem, P.owner _ j hjmem, hI.counter_pos hi.mem hi.flag hj⟩

namespace Finishable

/-- An instruction that is neither finished nor a child keeps all of its fields. -/
theorem inst_of_not_child (hf : Finishable P h i) (hne : j ≠ i)
    (hj : j ∉ (kindOf P i).childInst) : (h.finish i).inst j = h.inst j := by
  rw [CoreHeap.finish_inst hf.nodup hf.not_self, if_neg hne, hf.children, if_neg hj]

theorem inst_self (hf : Finishable P h i) :
    (h.finish i).inst i = { h.inst i with finished := true } := by
  rw [CoreHeap.finish_inst hf.nodup hf.not_self, if_pos rfl]

theorem inst_child (hf : Finishable P h i) (hj : j ∈ (kindOf P i).childInst) :
    (h.finish i).inst j = { h.inst j with readyCounter := (h.inst j).readyCounter - 1 } := by
  have hne : j ≠ i := by
    rintro rfl
    rw [← hf.children] at hj
    exact hf.not_self hj
  have hpos := (hf.child j hj).2.2
  have hdec : (h.inst j).decremented = (h.inst j).readyCounter - 1 := by
    unfold Instruction.decremented
    rw [if_neg (by omega)]
  rw [CoreHeap.finish_inst hf.nodup hf.not_self, if_neg hne, hf.children, if_pos hj, hdec]

/-- Only the flag of the instruction itself changes. -/
theorem finished_eq (hf : Finishable P h i) (j : ι) :
    ((h.finish i).inst j).finished = if j = i then true else (h.inst j).finished := by
  by_cases hne : j = i
  · subst hne
    rw [hf.inst_self, if_pos rfl]
  · rw [if_neg hne]
    by_cases hj : j ∈ (kindOf P i).childInst
    · rw [hf.inst_child hj]
    · rw [hf.inst_of_not_child hne hj]

theorem kind_eq (hf : Finishable P h i) (j : ι) : ((h.finish i).inst j).kind = (h.inst j).kind := by
  by_cases hne : j = i
  · subst hne
    rw [hf.inst_self]
    rfl
  · by_cases hj : j ∈ (kindOf P i).childInst
    · rw [hf.inst_child hj]
      rfl
    · rw [hf.inst_of_not_child hne hj]

/-- The children that become ready are those whose counter was 1. -/
theorem mem_readied (hf : Finishable P h i) (hkind : ∀ k, (h.inst k).kind = kindOf P k) :
    j ∈ h.readied (h.inst i).childInst t ↔
      j ∈ (kindOf P i).childInst ∧ ((h.finish i).inst j).readyCounter = 0 ∧
        (kindOf P j).owner = t := by
  have howner : (h.inst j).owner = (kindOf P j).owner := congrArg InstKind.owner (hkind j)
  unfold CoreHeap.readied
  rw [List.mem_filter, hf.children, decide_eq_true_eq, howner]
  constructor
  · rintro ⟨hj, hdec, ht⟩
    refine ⟨hj, ?_, ht⟩
    have hpos := (hf.child j hj).2.2
    unfold Instruction.decremented at hdec
    rw [if_neg (by omega)] at hdec
    rw [hf.inst_child hj]
    exact hdec
  · rintro ⟨hj, hzero, ht⟩
    refine ⟨hj, ?_, ht⟩
    have hpos := (hf.child j hj).2.2
    rw [hf.inst_child hj] at hzero
    unfold Instruction.decremented
    rw [if_neg (by omega)]
    exact hzero

end Finishable

/-- **Finishing an instruction in hand** keeps the invariant. -/
theorem PlacementInv.finish (hI : PlacementInv P issued h other)
    (hi : InHand P issued h other i false) :
    PlacementInv P issued (h.finish i) other ∧ InHand P issued (h.finish i) other i true ∧
      ∀ j b, j ≠ i → InHand P issued h other j b → InHand P issued (h.finish i) other j b := by
  have hf := hI.finishable hi
  have hready : ∀ t, ((h.finish i).tile t).readyQueue =
      (h.tile t).readyQueue ++ h.readied (h.inst i).childInst t := by
    intro t
    rw [CoreHeap.finish_tile hf.nodup hf.not_self]
  -- what is placed is neither `i` nor one of its children
  have hplaced : ∀ p, ∀ j ∈ places h other p, (h.finish i).inst j = h.inst j := by
    intro p j hj
    have hne : j ≠ i := fun heq => hi.nowhere p (heq ▸ hj)
    refine hf.inst_of_not_child hne fun hchild => ?_
    have hpos := (hf.child j hchild).2.2
    have hzero := hI.zero p j hj
    omega
  have hchildfree : ∀ j ∈ (kindOf P i).childInst, ∀ p, j ∉ places h other p := by
    intro j hj p hp
    have hpos := (hf.child j hj).2.2
    have hzero := hI.zero p j hp
    omega
  have hchildflag : ∀ j ∈ (kindOf P i).childInst, (h.inst j).finished = false := by
    intro j hj
    cases hflag : (h.inst j).finished with
    | false => rfl
    | true =>
        have hpos := (hf.child j hj).2.2
        have hzero := hI.done j hflag
        omega
  have hmem : ∀ p j, j ∈ places (h.finish i) other p → j ∈ places h other p ∨
      ∃ t, p = .ready t ∧ j ∈ (kindOf P i).childInst ∧
        ((h.finish i).inst j).readyCounter = 0 ∧ (kindOf P j).owner = t := by
    intro p j hj
    cases p with
    | ready t =>
        change j ∈ ((h.finish i).tile t).readyQueue at hj
        rw [hready t, List.mem_append] at hj
        rcases hj with hj | hj
        · exact .inl hj
        · exact .inr ⟨t, rfl, (hf.mem_readied hI.kind).mp hj⟩
    | _ => exact .inl hj
  have hnew : PlacementInv P issued (h.finish i) other := by
    refine ⟨fun j => (hf.kind_eq j).trans (hI.kind j), fun t => ?_, fun t => ?_, fun t => ?_, ?_,
      fun p j hj => ?_, fun t j hj => ?_, fun p j hj => ?_, fun p j hj => ?_, fun p j hj => ?_,
      fun t j hj => ?_, fun j hj => ?_, fun j hj => ?_⟩
    · rw [CoreHeap.finish_tile hf.nodup hf.not_self]
      exact hI.insts t
    · rw [CoreHeap.finish_tile hf.nodup hf.not_self]
      exact hI.nrInsts t
    · rw [CoreHeap.finish_tile hf.nodup hf.not_self, hf.owner]
      change (h.tile t).nrFinishedInsts + (if t = (kindOf P i).owner then 1 else 0) = _
      rw [hI.nrFinished t]
      by_cases ht : t = (kindOf P i).owner
      · subst ht
        rw [if_pos rfl]
        refine (countP_finish (P.insts_nodup _) hi.mem hi.flag ?_ fun j _ hne => ?_).symm
        · rw [hf.finished_eq, if_pos rfl]
        · rw [hf.finished_eq, if_neg hne]
      · rw [if_neg ht, Nat.add_zero]
        apply List.countP_congr
        intro j hj
        have hne : j ≠ i := by
          rintro rfl
          exact ht (P.owner t j hj).symm
        rw [hf.finished_eq, if_neg hne]
    · have henter : ∀ q, places (h.finish i) other q = places h other q ++
          ((kindOf P i).childInst.filter fun j => (h.inst j).decremented = 0).filter
            fun j => Place.ready (kindOf P j).owner = q := by
        intro q
        cases q with
        | ready t =>
            change ((h.finish i).tile t).readyQueue = (h.tile t).readyQueue ++ _
            rw [hready t, hf.children]
            unfold CoreHeap.readied
            rw [List.filter_filter]
            congr 1
            apply List.filter_congr
            intro j _
            have howner : (h.inst j).owner = (kindOf P j).owner :=
              congrArg InstKind.owner (hI.kind j)
            simp [howner, and_comm]
        | _ => simp [places]
      exact hI.exclusive.enterAll ((P.child_nodup i).filter _)
        (fun j hj => hchildfree j (List.mem_of_mem_filter hj)) henter
    · rcases hmem p j hj with hj | ⟨t, rfl, hchild, -, -⟩
      · exact hI.owned p j hj
      · obtain ⟨hjmem, howner, -⟩ := hf.child j hchild
        rw [howner]
        exact ⟨hi.issued, hjmem⟩
    · rcases hmem (.ready t) j hj with hj | ⟨u, heq, -, -, howner⟩
      · exact hI.home t j hj
      · rw [howner]
        exact (Place.ready.inj heq).symm
    · rcases hmem p j hj with hj | ⟨t, rfl, -, hzero, -⟩
      · rw [hplaced p j hj]
        exact hI.zero p j hj
      · exact hzero
    · rcases hmem p j hj with hj | ⟨t, rfl, hchild, -, -⟩
      · rw [hplaced p j hj]
        exact hI.flag p j hj
      · rw [hf.inst_child hchild]
        exact hchildflag j hchild
    · rcases hmem p j hj with hj | ⟨t, rfl, -, -, -⟩
      · exact hI.fits p j hj
      · trivial
    · have hcount := hI.counter t j hj
      by_cases hchild : j ∈ (kindOf P i).childInst
      · obtain ⟨hjmem, howner, hpos⟩ := hf.child j hchild
        have ht : t = (kindOf P i).owner := (P.owner t j hj).symm.trans howner
        have hless : (instsOf P t).countP (fun k => !(h.inst k).finished &&
            j ∈ (kindOf P k).childInst) = (instsOf P t).countP (fun k =>
              !((h.finish i).inst k).finished && j ∈ (kindOf P k).childInst) + 1 := by
          refine countP_finish (P.insts_nodup t) (ht ▸ hi.mem) ?_ ?_ fun k _ hne => ?_
          · simp [hf.finished_eq]
          · simp [hi.flag, hchild]
          · rw [hf.finished_eq, if_neg hne]
        rw [hf.inst_child hchild]
        change _ ≤ (h.inst j).readyCounter - 1
        omega
      · have hkeep : ((h.finish i).inst j).readyCounter = (h.inst j).readyCounter := by
          by_cases hne : j = i
          · subst hne
            rw [hf.inst_self]
          · rw [hf.inst_of_not_child hne hchild]
        rw [hkeep]
        refine le_trans (List.countP_mono_left fun k _ hk => ?_) hcount
        by_cases hne : k = i
        · subst hne
          simp [hf.finished_eq] at hk
        · rwa [hf.finished_eq, if_neg hne] at hk
    · by_cases hne : j = i
      · subst hne
        rw [hf.inst_self]
        exact hi.zero
      · rw [hf.finished_eq, if_neg hne] at hj
        have hnot : j ∉ (kindOf P i).childInst := by
          intro hchild
          rw [hchildflag j hchild] at hj
          cases hj
        rw [hf.inst_of_not_child hne hnot]
        exact hI.done j hj
    · have hne : j ≠ i := by
        rintro rfl
        exact hj hi.issued
      rw [hf.finished_eq, if_neg hne]
      exact hI.fresh j hj
  refine ⟨hnew, ⟨fun p hp => ?_, hi.issued, hi.mem, ?_, ?_⟩, fun j b hne hj => ?_⟩
  · rcases hmem p i hp with hp | ⟨t, -, hchild, -, -⟩
    · exact hi.nowhere p hp
    · rw [← hf.children] at hchild
      exact hf.not_self hchild
  · rw [hf.inst_self]
    exact hi.zero
  · rw [hf.inst_self]
  · have hnot : j ∉ (kindOf P i).childInst := by
      intro hchild
      have hpos := (hf.child j hchild).2.2
      have hzero := hj.zero
      omega
    refine ⟨fun p hp => ?_, hj.issued, hj.mem, ?_, ?_⟩
    · rcases hmem p j hp with hp | ⟨t, -, hchild, -, -⟩
      · exact hj.nowhere p hp
      · exact hnot hchild
    · rw [hf.inst_of_not_child hne hnot]
      exact hj.zero
    · rw [hf.inst_of_not_child hne hnot]
      exact hj.flag

end Finish

/-! ## Moves -/

section Moves

variable [DecidableEq τ] {P : TileProgram τ ι} {issued : List τ} {h h' : CoreHeap τ ι}
  {other other' : Place τ → List ι} {i j : ι} {p : Place τ} {t : τ} {b : Bool}

omit [DecidableEq τ] in
/-- The order in a place other than a ready queue does not matter. -/
theorem PlacementInv.congr (hI : PlacementInv P issued h other) (hdata : SameData h h')
    (hready : ∀ t, (h'.tile t).readyQueue = (h.tile t).readyQueue)
    (hperm : ∀ p, (other' p).Perm (other p)) : PlacementInv P issued h' other' := by
  refine hI.shrink hdata fun p => ?_
  cases p with
  | ready t =>
      change ((h'.tile t).readyQueue).Subperm ((h.tile t).readyQueue)
      rw [hready t]
  | _ => exact (hperm _).subperm

omit [DecidableEq τ] in
/-- Others may leave their places. -/
theorem InHand.shrink (hi : InHand P issued h other i b) (hdata : SameData h h')
    (hsub : ∀ p, (places h' other' p).Subperm (places h other p)) :
    InHand P issued h' other' i b := by
  refine ⟨fun p hp => hi.nowhere p ((hsub p).subset hp), hi.issued, hi.mem, ?_, ?_⟩
  · rw [hdata.readyCounter]
    exact hi.zero
  · rw [hdata.finished]
    exact hi.flag

/-- An instruction leaves a place that is not a ready queue. -/
theorem PlacementInv.takeOut (hI : PlacementInv P issued h other) (hp : ∀ t, p ≠ .ready t)
    (hi : i ∈ other p) :
    PlacementInv P issued h (Function.update other p ((other p).erase i)) ∧
      InHand P issued h (Function.update other p ((other p).erase i)) i
        (p.finishedAt (kindOf P i)) := by
  have hupdate : ∀ q, (Function.update other p ((other p).erase i) q).Subperm (other q) := by
    intro q
    by_cases hq : q = p
    · subst hq
      rw [Function.update_self]
      exact (List.erase_sublist (a := i)).subperm
    · rw [Function.update_of_ne hq]
  have hsub : ∀ q, (places h (Function.update other p ((other p).erase i)) q).Subperm
      (places h other q) := by
    intro q
    cases q with
    | ready t => exact List.Subperm.refl _
    | _ => exact hupdate _
  have hmem : i ∈ places h other p := by
    rw [places_eq hp]
    exact hi
  have hnot : i ∉ places h (Function.update other p ((other p).erase i)) p := by
    have hnodup := hI.exclusive.nodup p
    rw [places_eq hp] at hnodup ⊢
    rw [Function.update_self]
    exact hnodup.not_mem_erase
  exact ⟨hI.shrink (.refl h) hsub, hI.inHand (.refl h) hsub hmem hnot⟩

/-- The instruction in front leaves a ready queue. -/
theorem PlacementInv.takeReady (hI : PlacementInv P issued h other) {rest : List ι}
    (hq : (h.tile t).readyQueue = i :: rest) :
    PlacementInv P issued (h.popReady t) other ∧
      InHand P issued (h.popReady t) other i false := by
  have hsub : ∀ q, (places (h.popReady t) other q).Subperm (places h other q) := by
    intro q
    cases q with
    | ready u =>
        change ((h.popReady t).tile u).readyQueue.Subperm (h.tile u).readyQueue
        rw [CoreHeap.popReady_tile]
        by_cases hu : u = t
        · rw [if_pos hu]
          exact (List.tail_sublist _).subperm
        · rw [if_neg hu]
    | _ => exact List.Subperm.refl _
  have hmem : i ∈ places h other (.ready t) := by
    change i ∈ (h.tile t).readyQueue
    rw [hq]
    exact List.mem_cons_self
  have hnot : i ∉ places (h.popReady t) other (.ready t) := by
    have hnodup : (h.tile t).readyQueue.Nodup := hI.exclusive.nodup (.ready t)
    change i ∉ ((h.popReady t).tile t).readyQueue
    rw [hq] at hnodup
    rw [CoreHeap.popReady_tile, if_pos rfl, hq]
    exact (List.nodup_cons.mp hnodup).1
  exact ⟨hI.shrink (.popReady h t) hsub, hI.inHand (.popReady h t) hsub hmem hnot⟩

/-- An instruction in hand enters a place that is not a ready queue. -/
theorem PlacementInv.putIn (hI : PlacementInv P issued h other)
    (hi : InHand P issued h other i b) (hready : ∀ t, p ≠ .ready t)
    (hflag : b = p.finishedAt (kindOf P i)) (hfits : p.Fits (kindOf P i)) :
    PlacementInv P issued h (Function.update other p (i :: other p)) := by
  refine hI.enter hi hready hflag hfits ?_ fun q hq => ?_
  · rw [Function.update_self]
  · rw [Function.update_of_ne hq]

/-- An instruction goes from one place to another. -/
theorem PlacementInv.move {q : Place τ} (hI : PlacementInv P issued h other)
    (hp : ∀ t, p ≠ .ready t) (hi : i ∈ other p) (hq : ∀ t, q ≠ .ready t) (hpq : q ≠ p)
    (hflag : p.finishedAt (kindOf P i) = q.finishedAt (kindOf P i))
    (hfits : q.Fits (kindOf P i)) :
    PlacementInv P issued h
      (Function.update (Function.update other p ((other p).erase i)) q (i :: other q)) := by
  obtain ⟨hout, hhand⟩ := hI.takeOut hp hi
  have hin := hout.putIn hhand hq hflag hfits
  rwa [Function.update_of_ne hpq] at hin

/-- An instruction is finished on its way out of a place. -/
theorem PlacementInv.finishOut (hI : PlacementInv P issued h other) (hp : ∀ t, p ≠ .ready t)
    (hi : i ∈ other p) (hflag : p.finishedAt (kindOf P i) = false) :
    Finishable P h i ∧ (h.inst i).finished = false ∧
      PlacementInv P issued (h.finish i) (Function.update other p ((other p).erase i)) := by
  obtain ⟨hout, hhand⟩ := hI.takeOut hp hi
  rw [hflag] at hhand
  exact ⟨hout.finishable hhand, hhand.flag, (hout.finish hhand).1⟩

/-- An instruction is finished on its way from one place to another. -/
theorem PlacementInv.finishMove {q : Place τ} (hI : PlacementInv P issued h other)
    (hp : ∀ t, p ≠ .ready t) (hi : i ∈ other p) (hq : ∀ t, q ≠ .ready t) (hpq : q ≠ p)
    (hflag : p.finishedAt (kindOf P i) = false) (hflag' : q.finishedAt (kindOf P i) = true)
    (hfits : q.Fits (kindOf P i)) :
    PlacementInv P issued (h.finish i)
      (Function.update (Function.update other p ((other p).erase i)) q (i :: other q)) := by
  obtain ⟨hout, hhand⟩ := hI.takeOut hp hi
  rw [hflag] at hhand
  obtain ⟨hfin, hhand', -⟩ := hout.finish hhand
  have hin := hfin.putIn hhand' hq hflag'.symm hfits
  rwa [Function.update_of_ne hpq] at hin

/-- The ready instructions of a new tile enter its ready queue. -/
theorem PlacementInv.issue (hI : PlacementInv P issued h other) (ht : t ∉ issued)
    (hinst : h'.inst = h.inst)
    (htile : ∀ u, h'.tile u = { h.tile u with
      readyQueue := (h.tile u).readyQueue ++
        if u = t then (instsOf P t).filter (fun i => (h.inst i).isReady) else [] }) :
    PlacementInv P (issued ++ [t]) h' other := by
  have hnew : ∀ i ∈ instsOf P t, (kindOf P i).owner = t := P.owner t
  have hfree : ∀ i ∈ (instsOf P t).filter (fun i => (h.inst i).isReady),
      ∀ q, i ∉ places h other q := by
    intro i hi q hq
    have howner := (hI.owned q i hq).1
    rw [hnew i (List.mem_of_mem_filter hi)] at howner
    exact ht howner
  have henter : ∀ q, places h' other q = places h other q ++
      ((instsOf P t).filter (fun i => (h.inst i).isReady)).filter
        fun i => Place.ready (kindOf P i).owner = q := by
    intro q
    cases q with
    | ready u =>
        change (h'.tile u).readyQueue = (h.tile u).readyQueue ++ _
        have hqueue := congrArg Tile.readyQueue (htile u)
        refine hqueue.trans ?_
        change (h.tile u).readyQueue ++ _ = _
        congr 1
        by_cases hu : u = t
        · subst hu
          rw [if_pos rfl, eq_comm, List.filter_eq_self]
          intro i hi
          simp [hnew i (List.mem_of_mem_filter hi)]
        · rw [if_neg hu, eq_comm, List.filter_eq_nil_iff]
          intro i hi
          simp [hnew i (List.mem_of_mem_filter hi), Ne.symm hu]
    | _ => simp [places]
  have hcases : ∀ q i, i ∈ places h' other q → i ∈ places h other q ∨
      q = .ready t ∧ i ∈ instsOf P t ∧ (h.inst i).readyCounter = 0 := by
    intro q i hi
    rw [henter q, List.mem_append, List.mem_filter, List.mem_filter, decide_eq_true_eq] at hi
    rcases hi with hi | ⟨⟨hmem, hready⟩, hq⟩
    · exact .inl hi
    · rw [hnew i hmem] at hq
      exact .inr ⟨hq.symm, hmem, of_decide_eq_true hready⟩
  have hmono : ∀ u, u ∈ issued → u ∈ issued ++ [t] := fun u hu => List.mem_append_left _ hu
  refine ⟨fun i => ?_, fun u => ?_, fun u => ?_, fun u => ?_, ?_, fun q i hi => ?_,
    fun u i hi => ?_, fun q i hi => ?_, fun q i hi => ?_, fun q i hi => ?_, fun u j hj => ?_,
    fun i hi => ?_, fun i hi => ?_⟩
  · rw [hinst, hI.kind]
  · rw [htile u]
    exact hI.insts u
  · rw [htile u]
    exact hI.nrInsts u
  · rw [htile u, hinst]
    exact hI.nrFinished u
  · exact hI.exclusive.enterAll ((P.insts_nodup t).filter _) hfree henter
  · rcases hcases q i hi with hi | ⟨-, hmem, -⟩
    · exact ⟨hmono _ (hI.owned q i hi).1, (hI.owned q i hi).2⟩
    · rw [hnew i hmem]
      exact ⟨by simp, hmem⟩
  · rcases hcases (.ready u) i hi with hi | ⟨hq, hmem, -⟩
    · exact hI.home u i hi
    · rw [hnew i hmem]
      exact (Place.ready.inj hq).symm
  · rw [hinst]
    rcases hcases q i hi with hi | ⟨-, -, hzero⟩
    · exact hI.zero q i hi
    · exact hzero
  · rw [hinst]
    rcases hcases q i hi with hi | ⟨rfl, hmem, -⟩
    · exact hI.flag q i hi
    · refine hI.fresh i ?_
      rw [hnew i hmem]
      exact ht
  · rcases hcases q i hi with hi | ⟨rfl, -, -⟩
    · exact hI.fits q i hi
    · trivial
  · rw [hinst]
    exact hI.counter u j hj
  · rw [hinst] at hi ⊢
    exact hI.done i hi
  · rw [hinst]
    exact hI.fresh i fun hmem => hi (hmono _ hmem)

end Moves

end PyTorchSim.Analysis
