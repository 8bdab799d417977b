import PyTorchSim.Analysis.LoopDangling
import PyTorchSim.Library.Brackets

/-!
# The graph that is emitted

In the order of insertion the loops and their ends are nested.  Every node of a body is waited for
exactly when the runs in the bodies are.
-/

set_option autoImplicit false

namespace PyTorchSim.Analysis

open PyTorchSim.Model PyTorchSim.Library

/-- A loop opens, and a loop end closes. -/
def bracketOf (n : TogNode) : Bracket :=
  match n.nodeClass with
  | .loopIndexNode => .opening
  | .loopEndNode => .closing
  | _ => .plain

/-- A load, a wait, a compute node or a store. -/
def IsLeaf (n : TogNode) : Prop := ∃ k : LeafKind, n.nodeClass = k.nodeClass

theorem bracketOf_leafNode (id p : ℤ) (k : LeafKind) : bracketOf (leafNode id k p) = .plain := by
  cases k <;> rfl

theorem IsLeaf.bracketOf {n : TogNode} (h : IsLeaf n) : bracketOf n = .plain := by
  obtain ⟨k, hk⟩ := h
  cases k <;> simp [Analysis.bracketOf, hk, LeafKind.nodeClass]

/-! ## The nodes of a nest -/

namespace Nest

variable {stop : Option TogNode} {c p : ℤ} {nest : Nest} {x l e : TogNode}

theorem nested_emit (c p : ℤ) (nest : Nest) : Nested bracketOf (nest.emit c p) := by
  induction nest generalizing c p with
  | nil => exact .nil
  | leaf id kind rest ih => exact .plain (bracketOf_leafNode id p kind) (ih c p)
  | loop id loopIdx body rest ihb ihr => exact .block rfl rfl (ihb _ _) (ihr _ _)

/-- The loops, each with its end. -/
def spans (c p : ℤ) : Nest → List Edge
  | nil => []
  | leaf _ _ rest => rest.spans c p
  | loop id loopIdx body rest =>
    (loopNode id loopIdx p, endNode c loopIdx p) ::
      (body.spans (c + 1) id ++ rest.spans (c + 1 + body.loops) p)

theorem matches_of_mem_spans (h : (l, e) ∈ nest.spans c p) :
    Matches bracketOf (nest.emit c p) l e := by
  induction nest generalizing c p with
  | nil => cases h
  | leaf id kind rest ih => simpa [emit] using (ih h).append [leafNode id kind p] []
  | loop id loopIdx body rest ihb ihr =>
    rcases List.mem_cons.1 h with heq | h
    · obtain ⟨rfl, rfl⟩ := Prod.mk.inj heq
      exact ⟨[], body.emit (c + 1) id, _, rfl, rfl, rfl, nested_emit _ _ body⟩
    · rcases List.mem_append.1 h with h | h
      · have hbody := (ihb h).append [loopNode id loopIdx p]
          (endNode c loopIdx p :: rest.emit (c + 1 + body.loops) p)
        simpa [emit] using hbody
      · have hrest := (ihr h).append
          (loopNode id loopIdx p :: (body.emit (c + 1) id ++ [endNode c loopIdx p])) []
        simpa [emit] using hrest

/-- A loop and its end have the same index and the same parent. -/
theorem eq_of_mem_spans (h : (l, e) ∈ nest.spans c p) :
    e.loopIdx = l.loopIdx ∧ e.parent = l.parent := by
  induction nest generalizing c p with
  | nil => cases h
  | leaf id kind rest ih => exact ih h
  | loop id loopIdx body rest ihb ihr =>
    rcases List.mem_cons.1 h with heq | h
    · obtain ⟨rfl, rfl⟩ := Prod.mk.inj heq
      exact ⟨rfl, rfl⟩
    · exact (List.mem_append.1 h).elim ihb ihr

theorem exists_mem_spans (h : l ∈ nest.emit c p) (hloop : l.nodeClass = .loopIndexNode) :
    ∃ e, (l, e) ∈ nest.spans c p := by
  induction nest generalizing c p with
  | nil => cases h
  | leaf id kind rest ih =>
    rcases List.mem_cons.1 h with rfl | h
    · cases kind <;> cases hloop
    · exact ih h
  | loop id loopIdx body rest ihb ihr =>
    simp only [spans, List.mem_cons, List.mem_append]
    rcases List.mem_cons.1 h with rfl | h
    · exact ⟨_, .inl rfl⟩
    · rcases List.mem_append.1 h with h | h
      · obtain ⟨e, he⟩ := ihb h
        exact ⟨e, .inr (.inl he)⟩
      · rcases List.mem_cons.1 h with rfl | h
        · cases hloop
        · obtain ⟨e, he⟩ := ihr h
          exact ⟨e, .inr (.inr he)⟩

/-- A node that waits is a leaf, and the end it waits for is the one of its parent. -/
theorem of_mem_waits (h : (x, e) ∈ nest.waits stop c p) :
    x ∈ nest.emit c p ∧ IsLeaf x ∧
      (x.parent = p ∧ e ∈ stop ∨ ∃ l, l.id = x.parent ∧ (l, e) ∈ nest.spans c p) := by
  induction nest generalizing stop c p with
  | nil => cases h
  | leaf id kind rest ih =>
    rcases List.mem_append.1 h with h | h
    · obtain ⟨e', he', heq⟩ := List.mem_map.1 h
      obtain ⟨rfl, rfl⟩ := Prod.mk.inj heq
      exact ⟨List.mem_cons_self, ⟨kind, rfl⟩, .inl ⟨rfl, Option.mem_toList.1 he'⟩⟩
    · obtain ⟨hx, hleaf, hspan⟩ := ih h
      exact ⟨List.mem_cons_of_mem _ hx, hleaf, hspan⟩
  | loop id loopIdx body rest ihb ihr =>
    simp only [emit, spans, List.mem_cons, List.mem_append]
    rcases List.mem_append.1 h with h | h
    · obtain ⟨hx, hleaf, hspan⟩ := ihb h
      refine ⟨.inr (.inl hx), hleaf, .inr ?_⟩
      rcases hspan with ⟨hp, he⟩ | ⟨l, hl, hspan⟩
      · refine ⟨loopNode id loopIdx p, hp.symm, .inl ?_⟩
        rw [Option.mem_some.1 he]
      · exact ⟨l, hl, .inr (.inl hspan)⟩
    · obtain ⟨hx, hleaf, hspan⟩ := ihr h
      refine ⟨.inr (.inr (.inr hx)), hleaf, hspan.imp_right ?_⟩
      rintro ⟨l, hl, hspan⟩
      exact ⟨l, hl, .inr (.inr hspan)⟩

/-- A leaf is in the nest itself, or it waits for the end of its parent. -/
theorem mem_waits_of_isLeaf (stop : Option TogNode) (h : x ∈ nest.emit c p) (hleaf : IsLeaf x) :
    (x.parent = p ∧ ∀ e ∈ stop, (x, e) ∈ nest.waits stop c p) ∨
      ∃ l e, l.id = x.parent ∧ (l, e) ∈ nest.spans c p ∧ (x, e) ∈ nest.waits stop c p := by
  induction nest generalizing stop c p with
  | nil => cases h
  | leaf id kind rest ih =>
    simp only [waits, spans, List.mem_append]
    rcases List.mem_cons.1 h with rfl | h
    · exact .inl ⟨rfl, fun e he => .inl (by simpa using he)⟩
    · rcases ih stop h with ⟨hp, hwaits⟩ | ⟨l, e, hl, hspan, hwait⟩
      · exact .inl ⟨hp, fun e he => .inr (hwaits e he)⟩
      · exact .inr ⟨l, e, hl, hspan, .inr hwait⟩
  | loop id loopIdx body rest ihb ihr =>
    simp only [waits, spans, List.mem_cons, List.mem_append]
    rcases List.mem_cons.1 h with rfl | h
    · obtain ⟨k, hk⟩ := hleaf
      cases k <;> cases hk
    · rcases List.mem_append.1 h with h | h
      · rcases ihb (some (endNode c loopIdx p)) h with
          ⟨hp, hwaits⟩ | ⟨l, e, hl, hspan, hwait⟩
        · exact .inr ⟨_, _, hp.symm, .inl rfl, .inl (hwaits _ rfl)⟩
        · exact .inr ⟨l, e, hl, .inr (.inl hspan), .inl hwait⟩
      · rcases List.mem_cons.1 h with rfl | h
        · obtain ⟨k, hk⟩ := hleaf
          cases k <;> cases hk
        · rcases ihr stop h with ⟨hp, hwaits⟩ | ⟨l, e, hl, hspan, hwait⟩
          · exact .inl ⟨hp, fun e he => .inr (hwaits e he)⟩
          · exact .inr ⟨l, e, hl, .inr (.inr hspan), .inr hwait⟩

end Nest

/-! ## The emitted graph -/

/-- The nodes in the order in which they are emitted. -/
def emitted (g : TogGenerator) : List TogNode := g.nodeDict.map Prod.snd

/-- The loops are nested, and each has one end, which is that of the same loop. -/
structure WellNested (g : TogGenerator) : Prop where
  nested : Nested bracketOf (emitted g)
  loopEnd : ∀ l ∈ emitted g, l.nodeClass = .loopIndexNode →
    ∃! e, Matches bracketOf (emitted g) l e
  sameLoop : ∀ l e, Matches bracketOf (emitted g) l e →
    e.loopIdx = l.loopIdx ∧ e.parent = l.parent

/-- Moreover every node of a body has a path to the end of the loop. -/
structure WellEmitted (g : TogGenerator) : Prop extends WellNested g where
  reaches : ∀ x ∈ emitted g, IsLeaf x → ∀ l e, l.id = x.parent →
    Matches bracketOf (emitted g) l e → Reaches g.edges x e

theorem emitted_dictOf {g : TogGenerator} {ns : List TogNode} (h : g.nodeDict = dictOf ns) :
    emitted g = ns := by
  simp [emitted, h, dictOf, Function.comp_def]

namespace Nest

variable {nest : Nest} {l e x : TogNode}

theorem nested_nodes (nest : Nest) : Nested bracketOf nest.nodes :=
  .plain rfl (nested_emit _ _ nest)

/-- The numbers of the nodes tell them apart. -/
theorem Numbered.eq_of_id (h : nest.Numbered) {m n : TogNode} (hm : m ∈ nest.nodes)
    (hn : n ∈ nest.nodes) (hid : m.id = n.id) : m = n :=
  List.inj_on_of_nodup_map h.nodup_nodes hm hn hid

/-- The loops and the ends of the graph. -/
theorem Numbered.matches_iff (h : nest.Numbered) :
    Matches bracketOf nest.nodes l e ↔ (l, e) ∈ nest.spans (nest.rawGraph.length + 1) 0 := by
  have hof : ∀ {l e : TogNode}, (l, e) ∈ nest.spans (nest.rawGraph.length + 1) 0 →
      Matches bracketOf nest.nodes l e := by
    intro l e hmem
    simpa [nodes] using (matches_of_mem_spans hmem).append [rootNode] []
  refine ⟨fun hmatch => ?_, hof⟩
  obtain ⟨u, v, t, hw, hl, -⟩ := id hmatch
  have hmem : l ∈ nest.nodes := by rw [hw]; simp
  have hloop : l.nodeClass = .loopIndexNode := by
    unfold bracketOf at hl
    split at hl <;> simp_all
  rcases List.mem_cons.1 hmem with rfl | hmem
  · cases hloop
  · obtain ⟨e', he'⟩ := exists_mem_spans hmem hloop
    rwa [hmatch.unique (List.Nodup.of_map _ h.nodup_nodes) (hof he')]

/-- The nodes of the bodies, told by the emitted graph. -/
theorem Numbered.mem_waits_iff (h : nest.Numbered) :
    (x, e) ∈ nest.waits none (nest.rawGraph.length + 1) 0 ↔
      x ∈ nest.nodes ∧ IsLeaf x ∧ ∃ l, l.id = x.parent ∧ Matches bracketOf nest.nodes l e := by
  constructor
  · intro hmem
    obtain ⟨hx, hleaf, ⟨-, he⟩ | ⟨l, hl, hspan⟩⟩ := of_mem_waits hmem
    · cases he
    · exact ⟨List.mem_cons_of_mem _ hx, hleaf, l, hl, h.matches_iff.2 hspan⟩
  · rintro ⟨hx, hleaf, l, hl, hmatch⟩
    have hspan := h.matches_iff.1 hmatch
    have hmeml : l ∈ nest.nodes := by
      obtain ⟨u, v, t, hw, -⟩ := hmatch
      rw [hw]
      simp
    rcases List.mem_cons.1 hx with rfl | hx
    · obtain ⟨k, hk⟩ := hleaf
      cases k <;> cases hk
    · rcases mem_waits_of_isLeaf none hx hleaf with
        ⟨hp, -⟩ | ⟨l', e', hl', hspan', hwait⟩
      · -- A node beside the loops: its parent is the root, which is no loop.
        have hroot : l = rootNode :=
          h.eq_of_id hmeml List.mem_cons_self (hl.trans hp)
        subst hroot
        obtain ⟨-, -, -, -, hopen, -⟩ := hmatch
        cases hopen
      · have hmatch' := h.matches_iff.2 hspan'
        have hmeml' : l' ∈ nest.nodes := by
          obtain ⟨u, v, t, hw, -⟩ := hmatch'
          rw [hw]
          simp
        obtain rfl := h.eq_of_id hmeml hmeml' (hl.trans hl'.symm)
        rwa [hmatch.unique (List.Nodup.of_map _ h.nodup_nodes) hmatch']

end Nest

section Emitted

variable {nest : Nest} {g : TogGenerator}

theorem wellNested_of_nodeDict (h : nest.Numbered) (hdict : g.nodeDict = dictOf nest.nodes) :
    WellNested g := by
  have hemitted : emitted g = nest.nodes := emitted_dictOf hdict
  constructor
  · rw [hemitted]
    exact nest.nested_nodes
  · rw [hemitted]
    intro l hl hloop
    have hopen : bracketOf l = .opening := by simp [bracketOf, hloop]
    obtain ⟨e, he⟩ := nest.nested_nodes.exists_matches hl hopen
    exact ⟨e, he, fun e' he' => he'.unique (List.Nodup.of_map _ h.nodup_nodes) he⟩
  · rw [hemitted]
    intro l e hmatch
    exact Nest.eq_of_mem_spans (h.matches_iff.1 hmatch)

theorem wellEmitted_iff (h : nest.Numbered) (hdict : g.nodeDict = dictOf nest.nodes) :
    WellEmitted g ↔
      ∀ w ∈ nest.waits none (nest.rawGraph.length + 1) 0, Reaches g.edges w.1 w.2 := by
  have hemitted : emitted g = nest.nodes := emitted_dictOf hdict
  constructor
  · rintro hwell ⟨x, e⟩ hmem
    obtain ⟨hx, hleaf, l, hl, hmatch⟩ := h.mem_waits_iff.1 hmem
    rw [← hemitted] at hx hmatch
    exact hwell.reaches x hx hleaf l e hl hmatch
  · intro hreach
    refine ⟨wellNested_of_nodeDict h hdict, ?_⟩
    rw [hemitted]
    intro x hx hleaf l e hl hmatch
    exact hreach (x, e) (h.mem_waits_iff.2 ⟨hx, hleaf, l, hl, hmatch⟩)

/-- Every node is waited for exactly when the nest is linked. -/
theorem reaches_iff_linked (h : nest.Numbered)
    (hedges : ∀ ed, ed ∈ g.edges ↔ ed ∈ nest.graphEdges) :
    (∀ w ∈ nest.waits none (nest.rawGraph.length + 1) 0, Reaches g.edges w.1 w.2) ↔
      nest.Linked false false := by
  have hlocal : nest.localEdges false none (nest.rawGraph.length + 1) 0 (.one rootNode) =
      nest.graphEdges := by
    simp [Nest.localEdges, Nest.graphEdges]
  have hnodup : (rootNode :: nest.emit (nest.rawGraph.length + 1) 0).Nodup :=
    List.Nodup.of_map _ h.nodup_nodes
  rw [List.nodup_cons] at hnodup
  have hnone : ∀ e ∈ (none : Option TogNode), e.nodeClass = .loopEndNode := by
    intro e he
    cases he
  constructor
  · intro hreach
    refine linked_of_reaches (f := .one rootNode) ?_ ?_ hnodup.2 hnone hreach
    · intro m _ z hz
      rw [hlocal]
      exact (hedges (m, z)).1 hz
    · intro m hm
      rw [List.mem_singleton.1 hm]
      exact hnodup.1
  · intro hlinked
    refine reaches_of_linked (f := .one rootNode) ?_ hlinked
    intro ed hed
    rw [hlocal] at hed
    exact (hedges ed).2 hed

end Emitted

/-- The generator accepts every loop nest, and it emits the loops nested. -/
theorem parseGraph_wellNested {nest : Nest} (h : nest.Numbered) (hloops : nest.NonEmptyLoops) :
    ∃ g, TogGenerator.parseGraph nest.rawGraph = .ok g ∧ WellNested g := by
  obtain ⟨g, hg, hdict, -⟩ := parseGraph_spec h hloops
  exact ⟨g, hg, wellNested_of_nodeDict h hdict⟩

/-- The graph of a loop nest is nested without dangling nodes exactly when, in every loop body,
each run of loads or of waits is waited for. -/
theorem parseGraph_wellEmitted_iff {nest : Nest} (h : nest.Numbered)
    (hloops : nest.NonEmptyLoops) :
    (∃ g, TogGenerator.parseGraph nest.rawGraph = .ok g ∧ WellEmitted g) ↔
      nest.Linked false false := by
  obtain ⟨g, hg, hdict, hedges⟩ := parseGraph_spec h hloops
  rw [← reaches_iff_linked h hedges, ← wellEmitted_iff h hdict]
  constructor
  · rintro ⟨g', hg', hwell⟩
    rw [hg] at hg'
    cases hg'
    exact hwell
  · intro hwell
    exact ⟨g, hg, hwell⟩

/-- Two loads and two waits before a compute node, and an inner loop. -/
def pairedLoads : Nest :=
  .loop 1 "i" (.leaf 2 .load (.leaf 3 .load (.leaf 4 .wait (.leaf 5 .wait (.leaf 6 .compute
    (.loop 7 "j" (.leaf 8 .compute .nil) (.leaf 9 .store .nil))))))) .nil

theorem parseGraph_wellEmitted_pairedLoads :
    ∃ g, TogGenerator.parseGraph pairedLoads.rawGraph = .ok g ∧ WellEmitted g := by
  refine (parseGraph_wellEmitted_iff ⟨?_, ?_⟩ ?_).2 ?_
  · decide
  · decide
  · simp [pairedLoads, Nest.NonEmptyLoops]
  · simp [pairedLoads, Nest.Linked, Nest.LeafLinked, Nest.Feeds, LeafKind.Dma]

/-- Two loads before an inner loop. -/
def loadsBeforeLoop : Nest :=
  .loop 1 "i" (.leaf 2 .load (.leaf 3 .load
    (.loop 4 "j" (.leaf 5 .compute .nil) (.leaf 6 .store .nil)))) .nil

/-- The first of the loads has no edge that leaves it. -/
theorem parseGraph_dangling_load : loadsBeforeLoop.Numbered ∧ loadsBeforeLoop.NonEmptyLoops ∧
    ¬ ∃ g, TogGenerator.parseGraph loadsBeforeLoop.rawGraph = .ok g ∧ WellEmitted g := by
  have hnumbered : loadsBeforeLoop.Numbered := ⟨by decide, by decide⟩
  have hloops : loadsBeforeLoop.NonEmptyLoops := by simp [loadsBeforeLoop, Nest.NonEmptyLoops]
  refine ⟨hnumbered, hloops, ?_⟩
  rintro ⟨g, hg, hwell⟩
  obtain ⟨g', hg', hdict, hedges⟩ := parseGraph_spec hnumbered hloops
  rw [hg] at hg'
  cases hg'
  have hmatch : Matches bracketOf loadsBeforeLoop.nodes (loopNode 1 "i" 0) (endNode 8 "i" 0) :=
    ⟨[rootNode], _, [], rfl, rfl, rfl, Nest.nested_emit 9 1 _⟩
  rw [← emitted_dictOf hdict] at hmatch
  have hload : leafNode 2 .load 1 ∈ emitted g := by
    rw [emitted_dictOf hdict]
    decide
  have hreach := hwell.reaches _ hload ⟨.load, rfl⟩ _ _ rfl hmatch
  obtain ⟨z, hz⟩ := hreach.exists_edge (by decide)
  have hsource : leafNode 2 .load 1 ∈ loadsBeforeLoop.graphEdges.map Prod.fst :=
    List.mem_map_of_mem ((hedges _).1 hz)
  exact absurd hsource (by decide)

end PyTorchSim.Analysis
