import Mathlib.Logic.Relation
import PyTorchSim.Library.Dependency

/-!
# Graphs that are built edge by edge

A graph is a list of nodes with a list of children and a counter for each node.  `Counted`
says that the counter of a node is the number of its parents; it is kept when two graphs are
put side by side and when edges are added together with their counts.

`TwoTerminal` is a graph in which every node lies on a path from one source to one sink.  A
loop inserts the graphs of its iterations between a node and a new sink: `Growing` is the
graph while this goes on.
-/

set_option autoImplicit false

namespace PyTorchSim.Library

variable {α : Type*} [DecidableEq α] {L R : List α} {child child' : α → List α}
  {counter counter' : α → ℕ} {E : List (α × α)} {v w : α}

/-! ## Counters -/

/-- The counter of a node is the number of its parents. -/
structure Counted (L : List α) (child : α → List α) (counter : α → ℕ) : Prop where
  nodup : L.Nodup
  child_nodup : ∀ v ∈ L, (child v).Nodup
  child_mem : ∀ v ∈ L, ∀ w ∈ child v, w ∈ L
  counter : ∀ w ∈ L, counter w = L.countP fun v => w ∈ child v

namespace Counted

theorem single (hchild : child v = []) (hcounter : counter v = 0) : Counted [v] child counter := by
  refine ⟨List.nodup_singleton v, ?_, ?_, ?_⟩ <;> simp [hchild, hcounter]

theorem nil : Counted [] child counter := by
  refine ⟨List.nodup_nil, ?_, ?_, ?_⟩ <;> simp

theorem congr (h : Counted L child counter) (hchild : ∀ v ∈ L, child' v = child v)
    (hcounter : ∀ v ∈ L, counter' v = counter v) : Counted L child' counter' := by
  refine ⟨h.nodup, fun v hv => ?_, fun v hv => ?_, fun w hw => ?_⟩
  · rw [hchild v hv]
    exact h.child_nodup v hv
  · rw [hchild v hv]
    exact h.child_mem v hv
  · rw [hcounter w hw, h.counter w hw]
    exact List.countP_congr fun v hv => by rw [hchild v hv]

theorem perm (h : Counted L child counter) (hp : R.Perm L) : Counted R child counter := by
  refine ⟨hp.nodup_iff.mpr h.nodup, fun v hv => ?_, fun v hv w hw => ?_, fun w hw => ?_⟩
  · exact h.child_nodup v (hp.mem_iff.mp hv)
  · exact hp.mem_iff.mpr (h.child_mem v (hp.mem_iff.mp hv) w hw)
  · rw [h.counter w (hp.mem_iff.mp hw)]
    exact (hp.countP_eq _).symm

/-- Graphs without a common node are put side by side. -/
theorem append (h : Counted L child counter) (h' : Counted R child counter)
    (hdisj : L.Disjoint R) : Counted (L ++ R) child counter := by
  refine ⟨List.nodup_append'.mpr ⟨h.nodup, h'.nodup, hdisj⟩, fun v hv => ?_, fun v hv w hw => ?_,
    fun w hw => ?_⟩
  · rcases List.mem_append.mp hv with hv | hv
    · exact h.child_nodup v hv
    · exact h'.child_nodup v hv
  · rcases List.mem_append.mp hv with hv | hv
    · exact List.mem_append_left _ (h.child_mem v hv w hw)
    · exact List.mem_append_right _ (h'.child_mem v hv w hw)
  · rw [List.countP_append]
    rcases List.mem_append.mp hw with hw | hw
    · have hzero : (R.countP fun v => w ∈ child v) = 0 := by
        refine List.countP_eq_zero.mpr fun v hv => ?_
        simp only [decide_eq_true_eq]
        exact fun hmem => hdisj hw (h'.child_mem v hv w hmem)
      rw [hzero, h.counter w hw, Nat.add_zero]
    · have hzero : (L.countP fun v => w ∈ child v) = 0 := by
        refine List.countP_eq_zero.mpr fun v hv => ?_
        simp only [decide_eq_true_eq]
        exact fun hmem => hdisj (h.child_mem v hv w hmem) hw
      rw [hzero, h'.counter w hw, Nat.zero_add]

/-- How many members of one list another list has. -/
theorem countP_mem_eq_length {P : List α} (hL : L.Nodup) (hP : P.Nodup) (hsub : P ⊆ L) :
    (L.countP fun v => v ∈ P) = P.length := by
  rw [List.countP_eq_length_filter]
  refine List.Perm.length_eq ((List.perm_ext_iff_of_nodup (hL.filter _) hP).mpr fun v => ?_)
  simp only [List.mem_filter, decide_eq_true_eq]
  exact ⟨fun h => h.2, fun h => ⟨hsub h, h⟩⟩

omit [DecidableEq α] in
/-- The elements with one of two exclusive properties. -/
theorem countP_split {p q r : α → Prop} [DecidablePred p] [DecidablePred q] [DecidablePred r]
    (h : ∀ v ∈ L, (r v ↔ p v ∨ q v) ∧ (p v → ¬ q v)) :
    L.countP r = L.countP p + L.countP q := by
  induction L with
  | nil => rfl
  | cons a l ih =>
      have hrest := ih fun v hv => h v (List.mem_cons_of_mem a hv)
      obtain ⟨hor, hnot⟩ := h a List.mem_cons_self
      simp only [List.countP_cons, hrest, decide_eq_true_eq]
      by_cases hp : p a
      · simp only [hor.mpr (.inl hp), hp, hnot hp, if_true, if_false]
        omega
      · by_cases hq : q a
        · simp only [hor.mpr (.inr hq), hp, hq, if_true, if_false]
          omega
        · have hr : ¬ r a := fun hr => (hor.mp hr).elim hp hq
          simp only [hr, hp, hq, if_false]
          omega

/-- **Edges are added** together with their counts. -/
theorem addEdges (h : Counted L child counter) (hE : E.Nodup)
    (hmem : ∀ e ∈ E, e.1 ∈ L ∧ e.2 ∈ L) (hnew : ∀ e ∈ E, e.2 ∉ child e.1)
    (hchild : ∀ v ∈ L, child' v = child v ++ children E v)
    (hcounter : ∀ v ∈ L, counter' v = counter v + (parents E v).length) :
    Counted L child' counter' := by
  have hdisj : ∀ v ∈ L, (child v).Disjoint (children E v) := by
    intro v _ w hw hw'
    exact hnew (v, w) (mem_children.mp hw') hw
  refine ⟨h.nodup, fun v hv => ?_, fun v hv w hw => ?_, fun w hw => ?_⟩
  · rw [hchild v hv]
    exact List.nodup_append'.mpr ⟨h.child_nodup v hv, nodup_children hE, hdisj v hv⟩
  · rw [hchild v hv, List.mem_append] at hw
    rcases hw with hw | hw
    · exact h.child_mem v hv w hw
    · exact (hmem _ (mem_children.mp hw)).2
  · have hparents : (L.countP fun v => v ∈ parents E w) = (parents E w).length :=
      countP_mem_eq_length h.nodup (nodup_parents hE)
        fun v hv => (hmem _ (mem_parents.mp hv)).1
    have hsplit : (L.countP fun v => w ∈ child' v) =
        (L.countP fun v => w ∈ child v) + L.countP fun v => v ∈ parents E w := by
      refine countP_split fun v hv => ?_
      have hiff : w ∈ children E v ↔ v ∈ parents E w := by rw [mem_children, mem_parents]
      rw [hchild v hv, List.mem_append, hiff]
      exact ⟨Iff.rfl, fun hw hp => hdisj v hv hw (hiff.mpr hp)⟩
    rw [hcounter w hw, h.counter w hw, hsplit, hparents]

end Counted

/-! ## One source and one sink -/

/-- An edge from a node of the list. -/
def EdgeIn (L : List α) (child : α → List α) (v w : α) : Prop := v ∈ L ∧ w ∈ child v

/-- There is a path from one node to another. -/
abbrev PathIn (L : List α) (child : α → List α) : α → α → Prop :=
  Relation.ReflTransGen (EdgeIn L child)

omit [DecidableEq α] in
theorem PathIn.mono (h : PathIn L child v w) (hL : L ⊆ R) (hchild : ∀ v ∈ L, child v ⊆ child' v) :
    PathIn R child' v w := by
  refine Relation.ReflTransGen.mono (fun a b hab => ?_) _ _ h
  exact ⟨hL hab.1, hchild a hab.1 hab.2⟩

/-- Every node lies on a path from the source `s` to the sink `t`. -/
structure TwoTerminal (L : List α) (child : α → List α) (s t : α) : Prop where
  source_mem : s ∈ L
  sink_mem : t ∈ L
  from_source : ∀ v ∈ L, PathIn L child s v
  to_sink : ∀ v ∈ L, PathIn L child v t
  source_free : ∀ v ∈ L, s ∉ child v
  sink_free : child t = []

/-- A graph with the source `s` whose node `p` is not yet joined to the sink `t`. -/
structure Growing (L : List α) (child : α → List α) (s p t : α) : Prop where
  source_mem : s ∈ L
  last_mem : p ∈ L
  sink_mem : t ∈ L
  source_ne : s ≠ t
  last_ne : p ≠ t
  unjoined : t ∉ child p
  from_source : ∀ v ∈ L, v ≠ t → PathIn L child s v
  to_end : ∀ v ∈ L, PathIn L child v p ∨ PathIn L child v t
  source_free : ∀ v ∈ L, s ∉ child v
  sink_free : child t = []

section Terminals

variable {s p t f b : α}

omit [DecidableEq α] in
theorem TwoTerminal.single (hchild : child v = []) : TwoTerminal [v] child v v := by
  refine ⟨by simp, by simp, ?_, ?_, ?_, hchild⟩
  · intro w hw
    rw [List.mem_singleton.mp hw]
  · intro w hw
    rw [List.mem_singleton.mp hw]
  · intro w hw
    rw [List.mem_singleton.mp hw, hchild]
    exact List.not_mem_nil

omit [DecidableEq α] in
theorem TwoTerminal.congr (h : TwoTerminal L child s t) (hchild : ∀ v ∈ L, child' v = child v) :
    TwoTerminal L child' s t := by
  have hsub : ∀ v ∈ L, child v ⊆ child' v := fun v hv => (hchild v hv).symm ▸ List.Subset.refl _
  refine ⟨h.source_mem, h.sink_mem, fun v hv => (h.from_source v hv).mono (List.Subset.refl _) hsub,
    fun v hv => (h.to_sink v hv).mono (List.Subset.refl _) hsub, fun v hv => ?_, ?_⟩
  · rw [hchild v hv]
    exact h.source_free v hv
  · rw [hchild t h.sink_mem]
    exact h.sink_free

omit [DecidableEq α] in
theorem TwoTerminal.perm (h : TwoTerminal L child s t) (hp : R.Perm L) :
    TwoTerminal R child s t := by
  have hsub : L ⊆ R := hp.symm.subset
  have hmono : ∀ v ∈ L, child v ⊆ child v := fun _ _ => List.Subset.refl _
  exact ⟨hsub h.source_mem, hsub h.sink_mem,
    fun v hv => (h.from_source v (hp.subset hv)).mono hsub hmono,
    fun v hv => (h.to_sink v (hp.subset hv)).mono hsub hmono,
    fun v hv => h.source_free v (hp.subset hv), h.sink_free⟩

omit [DecidableEq α] in
/-- The source is the only node without a parent. -/
theorem TwoTerminal.source_iff (h : TwoTerminal L child s t) (hv : v ∈ L) :
    (∀ u ∈ L, v ∉ child u) ↔ v = s := by
  constructor
  · intro hfree
    rcases Relation.ReflTransGen.cases_tail (h.from_source v hv) with heq | ⟨u, -, hu, hedge⟩
    · exact heq
    · exact absurd hedge (hfree u hu)
  · rintro rfl
    exact h.source_free

omit [DecidableEq α] in
/-- The sink is the only node without a child. -/
theorem TwoTerminal.sink_iff (h : TwoTerminal L child s t) (hv : v ∈ L) :
    child v = [] ↔ v = t := by
  constructor
  · intro hfree
    rcases Relation.ReflTransGen.cases_head (h.to_sink v hv) with heq | ⟨u, ⟨-, hedge⟩, -⟩
    · exact heq
    · rw [hfree] at hedge
      exact absurd hedge List.not_mem_nil
  · rintro rfl
    exact h.sink_free

omit [DecidableEq α] in
theorem Growing.congr (h : Growing L child s p t) (hchild : ∀ v ∈ L, child' v = child v) :
    Growing L child' s p t := by
  have hsub : ∀ v ∈ L, child v ⊆ child' v := fun v hv => (hchild v hv).symm ▸ List.Subset.refl _
  have hself : L ⊆ L := List.Subset.refl L
  refine ⟨h.source_mem, h.last_mem, h.sink_mem, h.source_ne, h.last_ne, ?_,
    fun v hv hne => (h.from_source v hv hne).mono hself hsub,
    fun v hv => (h.to_end v hv).imp (·.mono hself hsub) (·.mono hself hsub), fun v hv => ?_, ?_⟩
  · rw [hchild p h.last_mem]
    exact h.unjoined
  · rw [hchild v hv]
    exact h.source_free v hv
  · rw [hchild t h.sink_mem]
    exact h.sink_free

/-- A new sink is put next to a graph. -/
theorem TwoTerminal.growing (h : TwoTerminal L child s p) (hc : Counted L child counter)
    (ht : t ∉ L) (hfree : child t = []) : Growing (t :: L) child s p t := by
  have hsub : L ⊆ t :: L := List.subset_cons_self t L
  have hmono : ∀ v ∈ L, child v ⊆ child v := fun _ _ => List.Subset.refl _
  refine ⟨hsub h.source_mem, hsub h.sink_mem, List.mem_cons_self, ?_, ?_, ?_, fun v hv hne => ?_,
    fun v hv => ?_, fun v hv => ?_, hfree⟩
  · rintro rfl
    exact ht h.source_mem
  · rintro rfl
    exact ht h.sink_mem
  · exact fun hmem => ht (hc.child_mem p h.sink_mem t hmem)
  · exact (h.from_source v ((List.mem_cons.mp hv).resolve_left hne)).mono hsub hmono
  · rcases List.mem_cons.mp hv with rfl | hv
    · exact .inr .refl
    · exact .inl ((h.to_sink v hv).mono hsub hmono)
  · rcases List.mem_cons.mp hv with rfl | hv
    · rw [hfree]
      exact List.not_mem_nil
    · exact h.source_free v hv

/-- **A two-terminal graph is inserted** between `p` and `t`. -/
theorem Growing.insert (h : Growing L child s p t) (h' : TwoTerminal R child f b)
    (hc : Counted R child counter) (hdisj : L.Disjoint R)
    (hchild : ∀ v ∈ L ++ R, child' v = child v ++ children [(p, f), (b, t)] v) :
    Growing (L ++ R) child' s p t := by
  have hmono : ∀ v ∈ L ++ R, child v ⊆ child' v := by
    intro v hv
    rw [hchild v hv]
    exact List.subset_append_left _ _
  have hmonoL : ∀ v ∈ L, child v ⊆ child' v := fun v hv => hmono v (List.mem_append_left _ hv)
  have hmonoR : ∀ v ∈ R, child v ⊆ child' v := fun v hv => hmono v (List.mem_append_right _ hv)
  have hin : EdgeIn (L ++ R) child' p f := by
    refine ⟨List.mem_append_left _ h.last_mem, ?_⟩
    rw [hchild p (List.mem_append_left _ h.last_mem), List.mem_append, mem_children]
    exact .inr List.mem_cons_self
  have hout : EdgeIn (L ++ R) child' b t := by
    refine ⟨List.mem_append_right _ h'.sink_mem, ?_⟩
    rw [hchild b (List.mem_append_right _ h'.sink_mem), List.mem_append, mem_children]
    exact .inr (List.mem_cons_of_mem _ List.mem_cons_self)
  have hleft : L ⊆ L ++ R := List.subset_append_left L R
  have hright : R ⊆ L ++ R := List.subset_append_right L R
  refine ⟨hleft h.source_mem, hleft h.last_mem, hleft h.sink_mem, h.source_ne, h.last_ne, ?_,
    fun v hv hne => ?_, fun v hv => ?_, fun v hv => ?_, ?_⟩
  · rw [hchild p (hleft h.last_mem), List.mem_append, mem_children]
    simp only [List.mem_cons, Prod.mk.injEq, List.not_mem_nil, or_false]
    rintro (hmem | ⟨-, rfl⟩ | ⟨rfl, -⟩)
    · exact h.unjoined hmem
    · exact hdisj h.sink_mem h'.source_mem
    · exact hdisj h.last_mem h'.sink_mem
  · rcases List.mem_append.mp hv with hv | hv
    · exact (h.from_source v hv hne).mono hleft hmonoL
    · have hp := (h.from_source p h.last_mem h.last_ne).mono hleft hmonoL
      exact (hp.tail hin).trans ((h'.from_source v hv).mono hright hmonoR)
  · rcases List.mem_append.mp hv with hv | hv
    · rcases h.to_end v hv with hend | hend
      · exact .inl (hend.mono hleft hmonoL)
      · exact .inr (hend.mono hleft hmonoL)
    · exact .inr (((h'.to_sink v hv).mono hright hmonoR).tail hout)
  · have hs : s ∉ children [(p, f), (b, t)] v := by
      rw [mem_children]
      simp only [List.mem_cons, Prod.mk.injEq, List.not_mem_nil, or_false]
      rintro (⟨-, rfl⟩ | ⟨-, rfl⟩)
      · exact hdisj h.source_mem h'.source_mem
      · exact h.source_ne rfl
    rw [hchild v hv, List.mem_append]
    rintro (hmem | hmem)
    · rcases List.mem_append.mp hv with hv | hv
      · exact h.source_free v hv hmem
      · exact hdisj h.source_mem (hc.child_mem v hv s hmem)
    · exact hs hmem
  · have hnone : children [(p, f), (b, t)] t = [] := by
      refine List.eq_nil_iff_forall_not_mem.mpr fun w hw => ?_
      rw [mem_children] at hw
      simp only [List.mem_cons, Prod.mk.injEq, List.not_mem_nil, or_false] at hw
      rcases hw with ⟨rfl, -⟩ | ⟨rfl, -⟩
      · exact h.last_ne rfl
      · exact hdisj h.sink_mem h'.sink_mem
    rw [hchild t (hleft h.sink_mem), h.sink_free, hnone, List.nil_append]

/-- **The sink is joined** to the node it waits for. -/
theorem Growing.close (h : Growing L child s p t)
    (hchild : ∀ v ∈ L, child' v = child v ++ children [(p, t)] v) : TwoTerminal L child' s t := by
  have hmono : ∀ v ∈ L, child v ⊆ child' v := by
    intro v hv
    rw [hchild v hv]
    exact List.subset_append_left _ _
  have hself : L ⊆ L := List.Subset.refl L
  have hedge : EdgeIn L child' p t := by
    refine ⟨h.last_mem, ?_⟩
    rw [hchild p h.last_mem, List.mem_append, mem_children]
    exact .inr List.mem_cons_self
  refine ⟨h.source_mem, h.sink_mem, fun v hv => ?_, fun v hv => ?_, fun v hv => ?_, ?_⟩
  · by_cases hne : v = t
    · subst hne
      exact ((h.from_source p h.last_mem h.last_ne).mono hself hmono).tail hedge
    · exact (h.from_source v hv hne).mono hself hmono
  · rcases h.to_end v hv with hend | hend
    · exact (hend.mono hself hmono).tail hedge
    · exact hend.mono hself hmono
  · rw [hchild v hv, List.mem_append, mem_children]
    rintro (hmem | hmem)
    · exact h.source_free v hv hmem
    · simp only [List.mem_singleton, Prod.mk.injEq] at hmem
      exact h.source_ne hmem.2
  · have hnone : children [(p, t)] t = [] := by
      refine List.eq_nil_iff_forall_not_mem.mpr fun w hw => ?_
      rw [mem_children, List.mem_singleton, Prod.mk.injEq] at hw
      exact h.last_ne hw.1.symm
    rw [hchild t h.sink_mem, h.sink_free, hnone, List.nil_append]

end Terminals

end PyTorchSim.Library
