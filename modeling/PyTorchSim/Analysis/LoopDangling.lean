import PyTorchSim.Analysis.LoopReach

/-!
# The nodes that are left dangling

A node that starts a run is connected to nothing but by the two rules for runs.  So a nest of
which some node is not waited for has a node without an edge that leaves it.
-/

set_option autoImplicit false

namespace PyTorchSim.Analysis

open PyTorchSim.Model PyTorchSim.Library
open TogGenerator (closing isLoadOrWait)

/-! ## Where the edges come from -/

namespace Front

variable {f : Front} {m y z e : TogNode}

theorem mem_sources_of_edgesTo (h : (m, z) ∈ f.edgesTo y) : m ∈ f.sources := by
  cases f with
  | one q =>
    obtain ⟨rfl, -⟩ := Prod.mk.inj (List.mem_singleton.1 h)
    exact List.mem_singleton_self _
  | run init last up =>
    simp only [edgesTo, Before.edgesTo] at h
    simp only [sources, List.mem_cons]
    split at h
    · exact .inl (Prod.mk.inj (List.mem_singleton.1 h)).1
    · split at h
      · obtain ⟨n, hn, heq⟩ := List.mem_map.1 h
        obtain ⟨rfl, -⟩ := Prod.mk.inj heq
        exact .inr (List.mem_of_mem_filter hn)
      · obtain ⟨rfl, -⟩ := Prod.mk.inj (List.mem_singleton.1 h)
        exact .inr (by simp)

theorem mem_of_mem_closing {n : TogNode} {ns : List TogNode} (h : n ∈ closing ns) : n ∈ ns := by
  induction ns with
  | nil => cases h
  | cons m ns ih =>
    rw [closing] at h
    rcases List.mem_cons.1 h with rfl | h
    · exact List.mem_cons_self
    · split at h
      · exact List.mem_cons_of_mem _ (ih h)
      · cases h

theorem mem_sources_of_closingEdges {followed : Bool} (h : (m, z) ∈ f.closingEdges followed e) :
    m ∈ f.sources := by
  cases f with
  | one q =>
    obtain ⟨rfl, -⟩ := Prod.mk.inj (List.mem_singleton.1 h)
    exact List.mem_singleton_self _
  | run init last up =>
    simp only [sources, List.mem_cons]
    cases followed with
    | true =>
      obtain ⟨n, hn, heq⟩ := List.mem_map.1 h
      obtain ⟨rfl, -⟩ := Prod.mk.inj heq
      exact .inr (List.mem_reverse.1 (mem_of_mem_closing hn))
    | false =>
      obtain ⟨rfl, -⟩ := Prod.mk.inj (List.mem_singleton.1 h)
      exact .inr (by simp)

theorem mem_sources_next (h : m ∈ (f.next y).sources) : m ∈ f.sources ∨ m = y := by
  cases f with
  | one q => simpa [next, sources] using h
  | run init last up =>
    simp only [next, sources, List.mem_cons, List.mem_append, List.not_mem_nil, or_false] at h ⊢
    split at h <;> tauto

end Front

namespace Nest

variable {followed : Bool} {stop : Option TogNode} {c p : ℤ} {f : Front} {nest : Nest}
  {m z : TogNode}

theorem mem_sources_of_localEdges (h : (m, z) ∈ nest.localEdges followed stop c p f) :
    m ∈ f.sources ∨ m ∈ nest.emit c p := by
  induction nest generalizing followed stop c p f with
  | nil =>
    simp only [localEdges, levelEdges, frontAfter, List.nil_append, List.mem_flatMap] at h
    obtain ⟨e, -, h⟩ := h
    exact .inl (Front.mem_sources_of_closingEdges h)
  | leaf id kind rest ih =>
    rw [localEdges_leaf] at h
    rw [emit, List.mem_cons]
    rcases List.mem_append.1 h with h | h
    · exact .inl (Front.mem_sources_of_edgesTo h)
    · rcases ih h with h | h
      · exact (Front.mem_sources_next h).imp_right .inl
      · exact .inr (.inr h)
  | loop id loopIdx body rest ihb ihr =>
    rw [localEdges_loop] at h
    simp only [emit, List.mem_cons, List.mem_append]
    rcases List.mem_append.1 h with h | h
    · exact .inl (Front.mem_sources_of_edgesTo h)
    · rcases List.mem_append.1 h with h | h
      · rcases ihb h with h | h
        · exact .inr (.inl (List.mem_singleton.1 h))
        · exact .inr (.inr (.inl h))
      · rcases ihr h with h | h
        · exact .inr (.inr (.inr (.inl (List.mem_singleton.1 h))))
        · exact .inr (.inr (.inr (.inr h)))

end Nest

/-! ## The nodes that start a run -/

section Runs

variable {followed : Bool} {stop : Option TogNode} {c p id : ℤ} {init : List TogNode}
  {k : LeafKind} {up x z : TogNode} {rest : Nest}

/-- A node in a run that is neither its last one nor before it has an edge by the two rules
only. -/
theorem feeds_or_closing
    (h : (x, z) ∈ rest.localEdges followed stop c p (.run init (leafNode id k p) up))
    (hemit : x ∉ rest.emit c p) (hlast : x ≠ leafNode id k p) (hup : x ≠ up) :
    rest.Feeds k ∨ followed = true ∧ x ∈ closing (init ++ [leafNode id k p]).reverse ∧
      rest.OnlyLoads := by
  induction rest generalizing init id k up with
  | nil =>
    simp only [Nest.localEdges, Nest.levelEdges, Nest.frontAfter, List.nil_append,
      List.mem_flatMap] at h
    obtain ⟨e, -, h⟩ := h
    cases followed with
    | false => exact (hlast (Prod.mk.inj (List.mem_singleton.1 h)).1).elim
    | true =>
      obtain ⟨n, hn, heq⟩ := List.mem_map.1 h
      obtain ⟨rfl, -⟩ := Prod.mk.inj heq
      exact .inr ⟨rfl, hn, trivial⟩
  | leaf id' k' rest ih =>
    rw [Nest.localEdges_leaf] at h
    rw [Nest.emit, List.mem_cons, not_or] at hemit
    rcases List.mem_append.1 h with h | h
    · simp only [Front.edgesTo, Before.edgesTo] at h
      split at h
      · exact (hup (Prod.mk.inj (List.mem_singleton.1 h)).1).elim
      · split at h
        · next hfeeds =>
          rw [isLoadOrWait_leafNode, compute_leafNode] at hfeeds
          exact .inl (.inl hfeeds)
        · exact (hlast (Prod.mk.inj (List.mem_singleton.1 h)).1).elim
    · have hup' : x ≠ if SameRun (leafNode id k p) (leafNode id' k' p) then up
          else leafNode id k p := by
        split
        · exact hup
        · exact hlast
      rcases ih h hemit.2 hemit.1 hup' with hfeeds | ⟨hfollowed, hx, hloads⟩
      · exact .inl (.inr hfeeds)
      · rw [List.reverse_append, List.reverse_singleton, List.singleton_append, closing] at hx
        have htail := (List.mem_cons.1 hx).resolve_left hemit.1
        split at htail
        · next hload =>
          exact .inr ⟨hfollowed, htail, (load_leafNode id' p k').1 hload, hloads⟩
        · cases htail
  | loop id' loopIdx body rest =>
    rw [Nest.localEdges_loop] at h
    simp only [Nest.emit, List.mem_cons, List.mem_append, not_or] at hemit
    obtain ⟨hloop, hbody, hend, hrest⟩ := hemit
    rcases List.mem_append.1 h with h | h
    · rw [Front.edgesTo, Before.edgesTo, if_neg (not_sameRun_loopNode _ _ _ _),
        if_neg (by simp [loopNode])] at h
      exact (hlast (Prod.mk.inj (List.mem_singleton.1 h)).1).elim
    · rcases List.mem_append.1 h with h | h
      · rcases Nest.mem_sources_of_localEdges h with h | h
        · exact (hloop (List.mem_singleton.1 h)).elim
        · exact (hbody h).elim
      · rcases Nest.mem_sources_of_localEdges h with h | h
        · exact (hend (List.mem_singleton.1 h)).elim
        · exact (hrest h).elim

/-- A node with an edge that leaves it does not start a run, or the run is waited for. -/
theorem leafLinked_of_mem
    (h : (leafNode id k p, z) ∈ rest.localEdges followed stop c p (.run init (leafNode id k p) up))
    (hemit : leafNode id k p ∉ rest.emit c p) (hup : leafNode id k p ≠ up) :
    rest.LeafLinked followed k := by
  cases rest with
  | nil => trivial
  | loop id' loopIdx body rest => trivial
  | leaf id' k' rest =>
    rintro ⟨hk, rfl⟩
    have hrun : SameRun (leafNode id k p) (leafNode id' k p) :=
      (sameRun_leafNode id id' p p k k).2 ⟨hk, rfl⟩
    rw [Nest.emit, List.mem_cons, not_or] at hemit
    rw [Nest.localEdges_leaf] at h
    rcases List.mem_append.1 h with h | h
    · rw [Front.edgesTo, Before.edgesTo, if_pos hrun] at h
      exact (hup (Prod.mk.inj (List.mem_singleton.1 h)).1).elim
    · rw [Front.next, if_pos hrun] at h
      rcases feeds_or_closing h hemit.2 hemit.1 hup with hfeeds | ⟨hfollowed, hx, hloads⟩
      · exact .inl hfeeds
      · rw [List.reverse_append, List.reverse_singleton, List.singleton_append, closing] at hx
        have htail := (List.mem_cons.1 hx).resolve_left hemit.1
        split at htail
        · next hload => exact .inr ⟨(load_leafNode id' p k).1 hload, hfollowed, hloads⟩
        · cases htail

end Runs

/-- A path between two nodes begins with an edge. -/
theorem Reaches.exists_edge {edges : List Edge} {m n : TogNode} (h : Reaches edges m n)
    (hne : m ≠ n) : ∃ z, (m, z) ∈ edges := by
  rcases Relation.ReflTransGen.cases_head h with heq | ⟨z, hz, -⟩
  · exact (hne heq).elim
  · exact ⟨z, hz⟩

theorem leafNode_ne_of_loopEnd {e : TogNode} (he : e.nodeClass = .loopEndNode) (id p : ℤ)
    (k : LeafKind) : leafNode id k p ≠ e := by
  rintro rfl
  cases k <;> cases he

/-- When every node of a loop reaches its end, the nest is linked.  The edges that leave the nodes
of the nest are those of the nest. -/
theorem linked_of_reaches {edges : List Edge} {followed : Bool} {stop : Option TogNode} {c p : ℤ}
    {f : Front} {nest : Nest}
    (hlocal : ∀ m ∈ nest.emit c p, ∀ z, (m, z) ∈ edges →
      (m, z) ∈ nest.localEdges followed stop c p f)
    (hf : ∀ m ∈ f.sources, m ∉ nest.emit c p) (hnodup : (nest.emit c p).Nodup)
    (hstop : ∀ e ∈ stop, e.nodeClass = .loopEndNode)
    (h : ∀ w ∈ nest.waits stop c p, Reaches edges w.1 w.2) : nest.Linked stop.isSome followed := by
  induction nest generalizing followed stop c p f with
  | nil => trivial
  | leaf id kind rest ih =>
    rw [Nest.emit, List.nodup_cons] at hnodup
    have hafter : ∀ m ∈ rest.emit c p, ∀ z, (m, z) ∈ edges →
        (m, z) ∈ rest.localEdges followed stop c p (f.next (leafNode id kind p)) := by
      intro m hm z hz
      have hmem := hlocal m (List.mem_cons_of_mem _ hm) z hz
      rw [Nest.localEdges_leaf] at hmem
      refine (List.mem_append.1 hmem).resolve_left fun hto => ?_
      exact hf m (Front.mem_sources_of_edgesTo hto) (List.mem_cons_of_mem _ hm)
    have hsources : ∀ m ∈ (f.next (leafNode id kind p)).sources, m ∉ rest.emit c p := by
      intro m hm hmem
      rcases Front.mem_sources_next hm with hm | rfl
      · exact hf m hm (List.mem_cons_of_mem _ hmem)
      · exact hnodup.1 hmem
    refine ⟨fun hsome => ?_, ih hafter hsources hnodup.2 hstop fun w hw =>
      h w (List.mem_append_right _ hw)⟩
    obtain ⟨e, rfl⟩ := Option.isSome_iff_exists.1 hsome
    have hreach : Reaches edges (leafNode id kind p) e :=
      h (leafNode id kind p, e) (by simp [Nest.waits])
    obtain ⟨z, hz⟩ := hreach.exists_edge (leafNode_ne_of_loopEnd (hstop e rfl) id p kind)
    have hmem := hlocal _ List.mem_cons_self z hz
    rw [Nest.localEdges_leaf] at hmem
    have hlast := (List.mem_append.1 hmem).resolve_left fun hto =>
      hf _ (Front.mem_sources_of_edgesTo hto) List.mem_cons_self
    obtain ⟨init, up, hnext, hup⟩ : ∃ init up,
        f.next (leafNode id kind p) = .run init (leafNode id kind p) up ∧ up ∈ f.sources := by
      cases f with
      | one q => exact ⟨[], q, rfl, List.mem_singleton_self _⟩
      | run init last up =>
        refine ⟨init ++ [last], _, rfl, ?_⟩
        split <;> simp [Front.sources]
    rw [hnext] at hlast
    refine leafLinked_of_mem hlast hnodup.1 ?_
    rintro rfl
    exact hf _ hup List.mem_cons_self
  | loop id loopIdx body rest ihb ihr =>
    simp only [Nest.emit, List.nodup_cons, List.nodup_append, List.mem_append, List.mem_cons,
      not_or] at hnodup hlocal hf
    obtain ⟨⟨hloop, hloopEnd, hloopRest⟩, hbody, ⟨hend, hrest⟩, hapart⟩ := hnodup
    have hedges : ∀ {m z : TogNode}, (m, z) ∈ edges →
        m = loopNode id loopIdx p ∨ m ∈ body.emit (c + 1) id ∨ m = endNode c loopIdx p ∨
          m ∈ rest.emit (c + 1 + body.loops) p →
        (m, z) ∈ body.localEdges (rest.followedBy followed) (some (endNode c loopIdx p)) (c + 1) id
            (.one (loopNode id loopIdx p)) ∨
          (m, z) ∈ rest.localEdges followed stop (c + 1 + body.loops) p
            (.one (endNode c loopIdx p)) := by
      intro m z hz hm
      have hmem := hlocal m hm z hz
      rw [Nest.localEdges_loop] at hmem
      refine List.mem_append.1 ((List.mem_append.1 hmem).resolve_left fun hto => ?_)
      have hnot := hf m (Front.mem_sources_of_edgesTo hto)
      tauto
    constructor
    · refine ihb (f := .one (loopNode id loopIdx p)) ?_ ?_ hbody ?_
        (show ∀ w ∈ body.waits (some (endNode c loopIdx p)) (c + 1) id, Reaches edges w.1 w.2 from
          fun w hw => h w (List.mem_append_left _ hw))
      · intro m hm z hz
        refine (hedges hz (.inr (.inl hm))).resolve_right fun hafter => ?_
        rcases Nest.mem_sources_of_localEdges hafter with hmem | hmem
        · exact hapart m hm m (.inl (List.mem_singleton.1 hmem)) rfl
        · exact hapart m hm m (.inr hmem) rfl
      · intro m hm
        rw [List.mem_singleton.1 hm]
        exact hloop
      · rintro e ⟨⟩
        rfl
    · refine ihr (f := .one (endNode c loopIdx p)) ?_ ?_ hrest hstop
        fun w hw => h w (List.mem_append_right _ hw)
      · intro m hm z hz
        refine (hedges hz (.inr (.inr (.inr hm)))).resolve_left fun hinner => ?_
        rcases Nest.mem_sources_of_localEdges hinner with hmem | hmem
        · rw [List.mem_singleton.1 hmem] at hm
          exact hloopRest hm
        · exact hapart m hmem m (.inr hm) rfl
      · intro m hm
        rw [List.mem_singleton.1 hm]
        exact hend

end PyTorchSim.Analysis
