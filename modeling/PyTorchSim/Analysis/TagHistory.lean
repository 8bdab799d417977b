import PyTorchSim.Analysis.Completion
import Mathlib.Data.Fintype.Basic

/-!
# The history of a tag

Which instructions used a tag, and in which order, is read off the events of a core.
`TagOrderly` is the order of use under which the tag table does its work: a synchronous or
sparse load does not take over a tag whose asynchronous load is outstanding, and nothing
waits for a tag that a synchronous load has taken over, since the arrival of its data marks
no tag.  `TagInv` ties the table to the history.
-/

set_option autoImplicit false

namespace PyTorchSim.Analysis

open PyTorchSim.Model PyTorchSim.Library

variable {τ ι : Type} [DecidableEq τ] [DecidableEq ι]

/-! ## Reading the history -/

/-- The subgraph and the tag key of an instruction. -/
def tagOf (P : TileProgram τ ι) (i : ι) : ℕ × List ℤ :=
  ((kindOf P i).subgraphId, (kindOf P i).tagKey)

/-- An asynchronous load that the DMA engine performs. -/
def InstKind.isAsyncLoad (k : InstKind τ ι) : Bool :=
  k.opcode = .movin && k.isAsyncDma && !k.isSparseInst

/-- A synchronous load that the DMA engine performs. -/
def InstKind.isSyncLoad (k : InstKind τ ι) : Bool :=
  k.opcode = .movin && !k.isAsyncDma && !k.isSparseInst

/-- A load that takes over its tag, whoever used it before. -/
def InstKind.takesTag (k : InstKind τ ι) : Bool :=
  k.opcode = .movin && (k.isSparseInst || !k.isAsyncDma)

/-- An instruction that waits if its tag is not ready. -/
def InstKind.awaitsTag (k : InstKind τ ι) : Bool := k.opcode = .bar || isAsyncLoad k

/-- The instructions issued, in order. -/
def issuedInsts (l : List (CoreEvent τ ι)) : List ι :=
  l.filterMap fun | .instIssued i => some i | _ => none

/-- The loads of a tag, in the order of their issue. -/
def loadsOf (P : TileProgram τ ι) (l : List (CoreEvent τ ι)) (k : ℕ × List ℤ) : List ι :=
  (issuedInsts l).filter fun i => (kindOf P i).opcode = .movin && tagOf P i = k

/-- The loads of a tag and the waits for it, in the order of their issue. -/
def usersOf (P : TileProgram τ ι) (l : List (CoreEvent τ ι)) (k : ℕ × List ℤ) : List ι :=
  (issuedInsts l).filter fun i =>
    ((kindOf P i).opcode = .movin || (kindOf P i).opcode = .bar) && tagOf P i = k

/-- The load that took over a tag last. -/
def lastTaker (P : TileProgram τ ι) (l : List (CoreEvent τ ι)) (k : ℕ × List ℤ) : Option ι :=
  ((loadsOf P l k).filter fun i => InstKind.takesTag (kindOf P i)).getLast?

/-- The first load of a tag is asynchronous and its data has not arrived. -/
def Outstanding (P : TileProgram τ ι) (l : List (CoreEvent τ ι)) (k : ℕ × List ℤ) : Prop :=
  ∃ i, (loadsOf P l k).head? = some i ∧ InstKind.isAsyncLoad (kindOf P i) = true ∧
    .dataReturned i ∉ l

/-- The order of use of the tags, for an event after others. -/
def TagOrderly (P : TileProgram τ ι) (pre : List (CoreEvent τ ι)) : CoreEvent τ ι → Prop
  | .instIssued i =>
    (InstKind.takesTag (kindOf P i) = true → ¬ Outstanding P pre (tagOf P i)) ∧
    (InstKind.awaitsTag (kindOf P i) = true →
      (∀ j, lastTaker P pre (tagOf P i) = some j → InstKind.isSyncLoad (kindOf P j) = false) ∧
      (Outstanding P pre (tagOf P i) → (usersOf P pre (tagOf P i)).length < 2 ^ 32 - 1))
  | _ => True

/-- A tag that is registered again has no instruction waiting for it and no asynchronous load
on its way. -/
def ReplacesFree (P : TileProgram τ ι) (pre : List (CoreEvent τ ι)) : CoreEvent τ ι → Prop
  | .tagRegistered i (some (_, ws)) =>
    (∀ w ∈ ws, .instFinished w ∈ pre) ∧
    ∀ j o, .tagRegistered j o ∈ pre → InstKind.isAsyncLoad (kindOf P j) = true →
      tagOf P j = tagOf P i → .dataReturned j ∈ pre
  | _ => True

section Decide

variable [Fintype ι] (P : TileProgram τ ι) (l : List (CoreEvent τ ι)) (k : ℕ × List ℤ)

instance : Decidable (Outstanding P l k) := by
  unfold Outstanding
  infer_instance

instance : ∀ e, Decidable (TagOrderly P l e)
  | .instIssued _ => inferInstanceAs (Decidable (_ ∧ _))
  | .tileIssued _ | .tagRegistered _ _ | .instFinished _ | .dataReturned _ | .tileFinished _ =>
    .isTrue trivial

end Decide

section History

variable {P : TileProgram τ ι} {l m : List (CoreEvent τ ι)} {k : ℕ × List ℤ} {i : ι}

omit [DecidableEq τ] [DecidableEq ι] in
theorem issuedInsts_append (l m : List (CoreEvent τ ι)) :
    issuedInsts (l ++ m) = issuedInsts l ++ issuedInsts m := List.filterMap_append

omit [DecidableEq τ] [DecidableEq ι] in
theorem mem_issuedInsts : i ∈ issuedInsts l ↔ .instIssued i ∈ l := by
  unfold issuedInsts
  rw [List.mem_filterMap]
  constructor
  · rintro ⟨e, he, heq⟩
    split at heq
    · cases heq
      exact he
    · cases heq
  · exact fun h => ⟨_, h, rfl⟩

omit [DecidableEq τ] in
theorem loadsOf_append : loadsOf P (l ++ m) k = loadsOf P l k ++ loadsOf P m k := by
  unfold loadsOf
  rw [issuedInsts_append, List.filter_append]

omit [DecidableEq τ] in
theorem usersOf_append : usersOf P (l ++ m) k = usersOf P l k ++ usersOf P m k := by
  unfold usersOf
  rw [issuedInsts_append, List.filter_append]

omit [DecidableEq τ] in
theorem mem_loadsOf : i ∈ loadsOf P l k ↔
    .instIssued i ∈ l ∧ (kindOf P i).opcode = .movin ∧ tagOf P i = k := by
  unfold loadsOf
  rw [List.mem_filter, mem_issuedInsts]
  simp

omit [DecidableEq τ] in
/-- The first load of a tag stays the first. -/
theorem loadsOf_head_append (h : (loadsOf P l k).head? = some i) :
    (loadsOf P (l ++ m) k).head? = some i := by
  rw [loadsOf_append, List.head?_append, h]
  rfl

omit [DecidableEq τ] in
/-- Events that issue no load which takes over its tag. -/
theorem lastTaker_append
    (h : ∀ i, .instIssued i ∈ m → InstKind.takesTag (kindOf P i) = true → tagOf P i ≠ k) :
    lastTaker P (l ++ m) k = lastTaker P l k := by
  have hnone : (loadsOf P m k).filter (fun i => InstKind.takesTag (kindOf P i)) = [] := by
    rw [List.filter_eq_nil_iff]
    intro i hi htakes
    obtain ⟨hissued, -, htag⟩ := mem_loadsOf.mp hi
    exact h i hissued htakes htag
  unfold lastTaker
  rw [loadsOf_append, List.filter_append, hnone, List.append_nil]

omit [DecidableEq τ] in
/-- A load that takes over its tag is the last to do so. -/
theorem lastTaker_concat (hop : (kindOf P i).opcode = .movin)
    (htakes : InstKind.takesTag (kindOf P i) = true)
    (hm : issuedInsts m = [i]) : lastTaker P (l ++ m) (tagOf P i) = some i := by
  have hlast : loadsOf P m (tagOf P i) = [i] := by
    unfold loadsOf
    rw [hm]
    simp [hop]
  unfold lastTaker
  rw [loadsOf_append, List.filter_append, hlast]
  simp [htakes]

omit [DecidableEq τ] in
theorem usersOf_le (l m : List (CoreEvent τ ι)) :
    (usersOf P l k).length ≤ (usersOf P (l ++ m) k).length := by
  rw [usersOf_append, List.length_append]
  exact Nat.le_add_right _ _

omit [DecidableEq τ] in
theorem loadTag_of_async (h : InstKind.isAsyncLoad (kindOf P i) = true) :
    loadTag (kindOf P i) = some (tagOf P i) := by
  simp only [InstKind.isAsyncLoad, Bool.and_eq_true, decide_eq_true_eq] at h
  unfold loadTag
  rw [if_pos ⟨h.1.1, h.1.2⟩]
  rfl

end History

/-! ## The invariant -/

/-- The tag table and the history of a core whose tags are used in order. -/
structure TagInv (P : TileProgram τ ι) (c : Core τ ι) : Prop where
  word : ∀ g key v, c.dma.tag g key = some v → v < 2 ^ 32
  dense : ∀ i ∈ c.transit, (kindOf P i).opcode = .movin → (kindOf P i).isSparseInst = false
  unreturned : ∀ i ∈ c.transit, InstKind.isAsyncLoad (kindOf P i) = true →
    .dataReturned i ∉ c.events
  flying : ∀ i ∈ c.transit, InstKind.isAsyncLoad (kindOf P i) = true →
    c.dma.tag (tagOf P i).1 (tagOf P i).2 = some 0 ∧
      (loadsOf P c.events (tagOf P i)).head? = some i
  few : ∀ i ∈ c.transit, InstKind.isAsyncLoad (kindOf P i) = true →
    (c.dma.waiters (tagOf P i).1 (tagOf P i).2).length + 1 ≤
      (usersOf P c.events (tagOf P i)).length
  short : ∀ g key, (c.dma.waiters g key).length < 2 ^ 32 - 1
  known : ∀ i, .instIssued i ∈ c.events → (kindOf P i).opcode = .movin →
    (c.dma.tag (tagOf P i).1 (tagOf P i).2).isSome = true
  unready : ∀ g key, c.dma.tag g key = some 0 →
    (∃ i ∈ c.transit, InstKind.isAsyncLoad (kindOf P i) = true ∧ tagOf P i = (g, key)) ∨
      (c.dma.waiters g key = [] ∧ ∃ i, lastTaker P c.events (g, key) = some i ∧
        InstKind.isSyncLoad (kindOf P i) = true)
  woken : ∀ g key v, c.dma.tag g key = some v → v ≠ 0 → c.dma.waiters g key ≠ [] →
    ∃ i, InstKind.isAsyncLoad (kindOf P i) = true ∧ tagOf P i = (g, key) ∧
      (.dataReturned i :: (c.dma.waiters g key).map .instFinished) <:+: c.events
  registered : ∀ i o, .tagRegistered i o ∈ c.events →
    InstKind.isAsyncLoad (kindOf P i) = true → i ∈ c.transit ∨ .dataReturned i ∈ c.events
  returned : ∀ i, .dataReturned i ∈ c.events →
    .instIssued i ∈ c.events ∧ (kindOf P i).opcode = .movin
  replaces : AtEach (ReplacesFree P) c.events

/-- An event that neither changes the table nor takes over a tag. -/
def Harmless (P : TileProgram τ ι) (c : Core τ ι) : CoreEvent τ ι → Prop
  | .instIssued i => (kindOf P i).opcode = .movin → InstKind.takesTag (kindOf P i) = false ∧
      (c.dma.tag (tagOf P i).1 (tagOf P i).2).isSome = true
  | .tagRegistered _ _ => False
  | .dataReturned _ => False
  | _ => True

section Frame

variable {P : TileProgram τ ι} {c c' : Core τ ι} {i : ι} {l : List (CoreEvent τ ι)}

omit [DecidableEq τ] in
theorem replaces_append (h : AtEach (ReplacesFree P) c.events)
    (hl : ∀ e ∈ l, ∀ i o, e ≠ .tagRegistered i o) : AtEach (ReplacesFree P) (c.events ++ l) := by
  refine h.append fun e he pre => ?_
  cases e with
  | tagRegistered i o => exact absurd rfl (hl _ he i o)
  | _ => trivial

omit [DecidableEq τ] in
/-- A step that records harmless events only, and keeps the table except that a tag that is
ready may be marked again. -/
theorem TagInv.frame (hT : TagInv P c) (hev : c'.events = c.events ++ l)
    (hl : ∀ e ∈ l, Harmless P c e)
    (htag : ∀ g key, c'.dma.tag g key = c.dma.tag g key ∨
      ∃ v v', c.dma.tag g key = some v ∧ v ≠ 0 ∧ c'.dma.tag g key = some v' ∧ v' ≠ 0 ∧ v' < 2 ^ 32)
    (hwaiters : c'.dma.waiters = c.dma.waiters)
    (hin : ∀ i ∈ c'.transit, (kindOf P i).opcode = .movin → i ∈ c.transit)
    (hout : ∀ i ∈ c.transit, InstKind.isAsyncLoad (kindOf P i) = true → i ∈ c'.transit) :
    TagInv P c' := by
  have hload : ∀ i, InstKind.isAsyncLoad (kindOf P i) = true → (kindOf P i).opcode = .movin := by
    intro i hi
    simp only [InstKind.isAsyncLoad, Bool.and_eq_true, decide_eq_true_eq] at hi
    exact hi.1.1
  have hsome : ∀ g key, (c.dma.tag g key).isSome = true → (c'.dma.tag g key).isSome = true := by
    intro g key h
    rcases htag g key with heq | ⟨v, v', -, -, heq, -⟩
    · rwa [heq]
    · rw [heq]
      rfl
  have hzero : ∀ g key, c'.dma.tag g key = some 0 ↔ c.dma.tag g key = some 0 := by
    intro g key
    rcases htag g key with heq | ⟨v, v', hv, hv0, heq, hv0', -⟩
    · rw [heq]
    · rw [heq, hv]
      simp [hv0, hv0']
  have hnew : ∀ e, e ∈ c'.events → e ∈ c.events ∨ e ∈ l := by
    intro e he
    rw [hev] at he
    exact List.mem_append.mp he
  have hold : ∀ e, e ∈ c.events → e ∈ c'.events := by
    intro e he
    rw [hev]
    exact List.mem_append_left _ he
  refine ⟨fun g key v hv => ?_, fun i hi hop => hT.dense i (hin i hi hop) hop,
    fun i hi ha hret => ?_, fun i hi ha => ?_, fun i hi ha => ?_, fun g key => ?_,
    fun i hi hop => ?_, fun g key hv => ?_, fun g key v hv h0 hne => ?_, fun i o hi ha => ?_,
    fun i hi => ?_, ?_⟩
  · rcases htag g key with heq | ⟨w, w', -, -, heq, -, hlt⟩
    · exact hT.word g key v (heq.symm.trans hv)
    · rw [heq] at hv
      cases hv
      exact hlt
  · rcases hnew _ hret with h | h
    · exact hT.unreturned i (hin i hi (hload i ha)) ha h
    · exact hl _ h
  · obtain ⟨h0, hhead⟩ := hT.flying i (hin i hi (hload i ha)) ha
    refine ⟨(hzero _ _).mpr h0, ?_⟩
    rw [hev]
    exact loadsOf_head_append hhead
  · rw [hwaiters, hev]
    exact (hT.few i (hin i hi (hload i ha)) ha).trans (usersOf_le _ _)
  · rw [hwaiters]
    exact hT.short g key
  · rcases hnew _ hi with h | h
    · exact hsome _ _ (hT.known i h hop)
    · exact hsome _ _ (hl _ h hop).2
  · rcases hT.unready g key ((hzero g key).mp hv) with ⟨i, hi, ha, hk⟩ | ⟨hnil, i, hlast, hs⟩
    · exact .inl ⟨i, hout i hi ha, ha, hk⟩
    · refine .inr ⟨by rw [hwaiters]; exact hnil, i, ?_, hs⟩
      rw [hev, lastTaker_append, hlast]
      intro j hj htakes
      have hop : (kindOf P j).opcode = .movin := by
        simp only [InstKind.takesTag, Bool.and_eq_true, decide_eq_true_eq] at htakes
        exact htakes.1
      have hnot := (hl _ hj hop).1
      rw [htakes] at hnot
      cases hnot
  · have hprev : ∃ w, c.dma.tag g key = some w ∧ w ≠ 0 := by
      rcases htag g key with heq | ⟨w, w', hw, hw0, -⟩
      · exact ⟨v, heq.symm.trans hv, h0⟩
      · exact ⟨w, hw, hw0⟩
    obtain ⟨w, hw, hw0⟩ := hprev
    rw [hwaiters] at hne ⊢
    obtain ⟨i, ha, hk, hseq⟩ := hT.woken g key w hw hw0 hne
    refine ⟨i, ha, hk, ?_⟩
    rw [hev]
    exact hseq.trans (List.prefix_append _ _).isInfix
  · rcases hnew _ hi with h | h
    · rcases hT.registered i o h ha with h | h
      · exact .inl (hout i h ha)
      · exact .inr (hold _ h)
    · exact absurd (hl _ h) id
  · rcases hnew _ hi with h | h
    · exact ⟨hold _ (hT.returned i h).1, (hT.returned i h).2⟩
    · exact absurd (hl _ h) id
  · rw [hev]
    refine replaces_append hT.replaces fun e he i o heq => ?_
    rw [heq] at he
    exact hl _ he

end Frame

end PyTorchSim.Analysis
