import PyTorchSim.Analysis.LoopEmission
import PyTorchSim.Analysis.TogNestReading

/-!
# The links between the nodes of a file

An edge of the generator leads to a node from one before it, or from the root.  So the inputs of a
node in the file were read before it, and the parser links each node to those that are connected to
it, where a loop stands for its end.
-/

set_option autoImplicit false

namespace PyTorchSim.Analysis

open PyTorchSim.Model PyTorchSim.Library

/-! ## The edges of the generator -/

namespace Front

variable {f : Front} {m y z e : TogNode} {followed : Bool}

theorem snd_of_mem_edgesTo (h : (m, z) ∈ f.edgesTo y) : z = y := by
  cases f with
  | one q => exact (Prod.mk.inj (List.mem_singleton.1 h)).2
  | run init last up =>
    simp only [edgesTo, Before.edgesTo] at h
    split at h
    · exact (Prod.mk.inj (List.mem_singleton.1 h)).2
    · split at h
      · obtain ⟨n, -, heq⟩ := List.mem_map.1 h
        exact (Prod.mk.inj heq).2.symm
      · exact (Prod.mk.inj (List.mem_singleton.1 h)).2

theorem snd_of_mem_closingEdges (h : (m, z) ∈ f.closingEdges followed e) : z = e := by
  cases f with
  | one q => exact (Prod.mk.inj (List.mem_singleton.1 h)).2
  | run init last up =>
    cases followed with
    | true =>
      obtain ⟨n, -, heq⟩ := List.mem_map.1 h
      exact (Prod.mk.inj heq).2.symm
    | false => exact (Prod.mk.inj (List.mem_singleton.1 h)).2

/-- Without a run the nodes before it are not connected again. -/
theorem fst_of_mem_edgesTo {last up : TogNode} (hrun : ¬ SameRun last y)
    (h : (m, z) ∈ (run [] last up).edgesTo y) : m = last := by
  simp only [edgesTo, Before.edgesTo, if_neg hrun] at h
  split at h
  · obtain ⟨n, hn, heq⟩ := List.mem_map.1 h
    rw [← (Prod.mk.inj heq).1]
    exact List.mem_singleton.1 (List.mem_of_mem_filter hn)
  · exact (Prod.mk.inj (List.mem_singleton.1 h)).1

end Front

namespace Nest

variable {followed : Bool} {c p : ℤ} {f : Front} {nest : Nest} {x y q : TogNode}

theorem mem_sources_frontAfter (h : x ∈ (nest.frontAfter c p f).sources) :
    x ∈ f.sources ∨ x ∈ nest.emit c p := by
  induction nest generalizing c p f with
  | nil => exact .inl h
  | leaf id kind rest ih =>
    rw [emit, List.mem_cons]
    rcases ih h with h | h
    · exact (Front.mem_sources_next h).imp_right .inl
    · exact .inr (.inr h)
  | loop id loopIdx body rest _ ihr =>
    simp only [emit, List.mem_cons, List.mem_append]
    rcases ihr h with h | h
    · exact .inr (.inr (.inr (.inl (List.mem_singleton.1 h))))
    · exact .inr (.inr (.inr (.inr h)))

/-- The edges to a node come from nodes before it. -/
theorem forward_of_mem_levelEdges (h : (x, y) ∈ nest.levelEdges followed c p f) :
    ∃ pre suf, nest.emit c p = pre ++ y :: suf ∧ (x ∈ f.sources ∨ x ∈ pre) := by
  induction nest generalizing followed c p f with
  | nil => cases h
  | leaf id kind rest ih =>
    rw [levelEdges] at h
    rcases List.mem_append.1 h with h | h
    · obtain rfl := Front.snd_of_mem_edgesTo h
      exact ⟨[], _, rfl, .inl (Front.mem_sources_of_edgesTo h)⟩
    · obtain ⟨pre, suf, heq, hx⟩ := ih h
      refine ⟨leafNode id kind p :: pre, suf, ?_, ?_⟩
      · rw [emit, heq]
        rfl
      · rw [List.mem_cons]
        rcases hx with hx | hx
        · exact (Front.mem_sources_next hx).imp_right .inl
        · exact .inr (.inr hx)
  | loop id loopIdx body rest ihb ihr =>
    rw [levelEdges] at h
    rcases List.mem_append.1 h with h | h
    · obtain rfl := Front.snd_of_mem_edgesTo h
      exact ⟨[], _, rfl, .inl (Front.mem_sources_of_edgesTo h)⟩
    · rcases List.mem_append.1 h with h | h
      · obtain ⟨pre, suf, heq, hx⟩ := ihb h
        refine ⟨loopNode id loopIdx p :: pre,
          suf ++ endNode c loopIdx p :: rest.emit (c + 1 + body.loops) p, ?_, .inr ?_⟩
        · rw [emit, heq]
          simp
        · rcases hx with hx | hx
          · exact List.mem_cons.2 (.inl (List.mem_singleton.1 hx))
          · exact List.mem_cons_of_mem _ hx
      · rcases List.mem_append.1 h with h | h
        · obtain rfl := Front.snd_of_mem_closingEdges h
          refine ⟨loopNode id loopIdx p :: body.emit (c + 1) id,
            rest.emit (c + 1 + body.loops) p, rfl, .inr ?_⟩
          rcases mem_sources_frontAfter (Front.mem_sources_of_closingEdges h) with hx | hx
          · exact List.mem_cons.2 (.inl (List.mem_singleton.1 hx))
          · exact List.mem_cons_of_mem _ hx
        · obtain ⟨pre, suf, heq, hx⟩ := ihr h
          refine ⟨loopNode id loopIdx p :: (body.emit (c + 1) id ++ endNode c loopIdx p :: pre),
            suf, ?_, .inr ?_⟩
          · rw [emit, heq]
            simp
          · simp only [List.mem_cons, List.mem_append]
            rcases hx with hx | hx
            · exact .inr (.inr (.inl (List.mem_singleton.1 hx)))
            · exact .inr (.inr (.inr hx))

theorem mem_emit_of_mem_levelEdges (h : (x, y) ∈ nest.levelEdges followed c p f) :
    x ∈ f.sources ∨ x ∈ nest.emit c p := by
  obtain ⟨pre, suf, heq, hx⟩ := forward_of_mem_levelEdges h
  rw [heq]
  exact hx.imp_right (List.mem_append_left _)

theorem mem_levelEdges_loop {id : ℤ} {loopIdx : String} {body rest : Nest}
    (h : (x, y) ∈ (loop id loopIdx body rest).levelEdges followed c p f) :
    (x, y) ∈ f.edgesTo (loopNode id loopIdx p) ∨ x ∈ (loop id loopIdx body rest).emit c p := by
  rw [levelEdges] at h
  rw [emit, List.mem_cons, List.mem_append, List.mem_cons]
  rcases List.mem_append.1 h with h | h
  · exact .inl h
  · right
    rcases List.mem_append.1 h with h | h
    · rcases mem_emit_of_mem_levelEdges h with hx | hx
      · exact .inl (List.mem_singleton.1 hx)
      · exact .inr (.inl hx)
    · rcases List.mem_append.1 h with h | h
      · rcases mem_sources_frontAfter (Front.mem_sources_of_closingEdges h) with hx | hx
        · exact .inl (List.mem_singleton.1 hx)
        · exact .inr (.inl hx)
      · rcases mem_emit_of_mem_levelEdges h with hx | hx
        · exact .inr (.inr (.inl (List.mem_singleton.1 hx)))
        · exact .inr (.inr (.inr hx))

/-- The first two nodes are not two loads or two waits. -/
def FreshSecond : Nest → Prop
  | leaf _ kind (leaf _ kind' _) => ¬(kind.Dma ∧ kind = kind')
  | _ => True

/-- The node before the nest is connected to its first node only. -/
theorem head_of_mem_levelEdges (hfresh : nest.FreshSecond) (hq : q ∉ nest.emit c p)
    (h : (q, y) ∈ nest.levelEdges followed c p (.one q)) : (nest.emit c p).head? = some y := by
  cases nest with
  | nil => cases h
  | loop id loopIdx body rest =>
    rcases mem_levelEdges_loop h with h | h
    · rw [Front.snd_of_mem_edgesTo h]
      rfl
    · exact absurd h hq
  | leaf id kind rest =>
    rw [levelEdges] at h
    rw [emit, List.mem_cons, not_or] at hq
    rcases List.mem_append.1 h with h | h
    · rw [Front.snd_of_mem_edgesTo h]
      rfl
    · exfalso
      cases rest with
      | nil => cases h
      | loop id' loopIdx body rest =>
        rcases mem_levelEdges_loop h with h | h
        · exact hq.1 (Front.fst_of_mem_edgesTo (not_sameRun_loopNode _ _ _ _) h)
        · exact hq.2 h
      | leaf id' kind' rest =>
        have hrun : ¬ SameRun (leafNode id kind p) (leafNode id' kind' p) := by
          rwa [sameRun_leafNode]
        rw [levelEdges] at h
        rw [emit, List.mem_cons, not_or] at hq
        rcases List.mem_append.1 h with h | h
        · exact hq.1 (Front.fst_of_mem_edgesTo hrun h)
        · rcases mem_emit_of_mem_levelEdges h with hx | hx
          · simp only [Front.next, if_neg hrun, Front.sources, List.mem_cons, List.mem_append,
              List.not_mem_nil, or_false] at hx
            tauto
          · exact hq.2.2 hx

/-- Otherwise it is connected to the second one too. -/
theorem second_of_not_freshSecond (h : ¬ nest.FreshSecond) :
    ∃ y₁ y₂ ys, nest.emit c p = y₁ :: y₂ :: ys ∧ y₂.nodeClass ≠ .loopEndNode ∧
      (q, y₂) ∈ nest.levelEdges followed c p (.one q) := by
  cases nest with
  | nil => exact absurd trivial h
  | loop id loopIdx body rest => exact absurd trivial h
  | leaf id kind rest =>
    cases rest with
    | nil => exact absurd trivial h
    | loop id' loopIdx body rest => exact absurd trivial h
    | leaf id' kind' rest =>
      have hrun : SameRun (leafNode id kind p) (leafNode id' kind' p) := by
        rw [sameRun_leafNode]
        exact not_not.mp h
      refine ⟨_, _, _, rfl, ?_, ?_⟩
      · change kind'.nodeClass ≠ _
        cases kind' <;> decide
      · rw [levelEdges, levelEdges]
        refine List.mem_append_right _ (List.mem_append_left _ ?_)
        simp [Front.next, Front.edgesTo, Before.edgesTo, hrun]

end Nest

/-! ## The file -/

/-- The nodes behind the root. -/
def Nest.fileNodes (nest : Nest) : List TogNode := nest.emit (nest.rawGraph.length + 1) 0

/-- The inputs that the nodes `ys` have in the file. -/
def inputsOf (g : TogGenerator) (ys : List TogNode) (y : TogNode) : List NodeName :=
  if ys.head? = some y then [] else (g.getParent y).map TogNode.name

/-- The nests whose files are read. -/
structure Nest.Readable (nest : Nest) : Prop where
  lastLoop : nest.LastLoop
  freshSecond : nest.FreshSecond

theorem mem_getParent {g : TogGenerator} {x y : TogNode} :
    x ∈ g.getParent y ↔ (x, y) ∈ g.edges := by
  unfold TogGenerator.getParent
  simp only [List.mem_dedup, List.mem_map, List.mem_filter, decide_eq_true_eq, Prod.exists,
    exists_and_right, exists_eq_right]

theorem inputsKnown_of_splits {inp : TogNode → List NodeName} {known : List NodeName}
    {ys : List TogNode} (h : ∀ pre y suf, ys = pre ++ y :: suf → y.nodeClass ≠ .loopEndNode →
      ∀ m ∈ inp y, m ∈ known ++ pre.map TogNode.name) : InputsKnown inp known ys := by
  induction ys generalizing known with
  | nil => trivial
  | cons y ys ih =>
    refine ⟨fun hend m hm => ?_, ih fun pre y' suf heq hend m hm => ?_⟩
    · have hmem := h [] y ys rfl hend m hm
      simp only [List.map_nil, List.append_nil] at hmem
      exact List.mem_append_left _ hmem
    · have hmem := h (y :: pre) y' suf (by rw [heq]; rfl) hend m hm
      simpa using hmem

section File

variable {nest : Nest} {g : TogGenerator} {x y : TogNode}

theorem Nest.Numbered.nodup_fileNodes (h : nest.Numbered) : nest.fileNodes.Nodup := by
  have hnodup : nest.nodes.Nodup := List.Nodup.of_map _ h.nodup_nodes
  exact (List.nodup_cons.1 hnodup).2

theorem Nest.Numbered.root_notMem (h : nest.Numbered) : rootNode ∉ nest.fileNodes := by
  have hnodup : nest.nodes.Nodup := List.Nodup.of_map _ h.nodup_nodes
  exact (List.nodup_cons.1 hnodup).1

/-- The names tell the nodes apart. -/
theorem Nest.Numbered.eq_of_name (h : nest.Numbered) (hx : x ∈ nest.nodes) (hy : y ∈ nest.nodes)
    (hname : x.name = y.name) : x = y :=
  h.eq_of_id hx hy (congrArg NodeName.id hname)

theorem Nest.Numbered.nodup_names (h : nest.Numbered) :
    (nest.fileNodes.map TogNode.name).Nodup := by
  refine (List.nodup_map_iff_inj_on h.nodup_fileNodes).2 fun x hx y hy hname => ?_
  exact h.eq_of_name (List.mem_cons_of_mem _ hx) (List.mem_cons_of_mem _ hy) hname

theorem generateTileGraph_eq (h : nest.Numbered) (hdict : g.nodeDict = dictOf nest.nodes) :
    g.generateTileGraph = nest.fileNodes.map (protoOf (inputsOf g nest.fileNodes)) := by
  have htail : (g.nodeDict.map Prod.snd).tail = nest.fileNodes := by
    have hemitted : g.nodeDict.map Prod.snd = nest.nodes := emitted_dictOf hdict
    rw [hemitted]
    rfl
  have hnodup := h.nodup_fileNodes
  unfold TogGenerator.generateTileGraph
  rw [htail]
  generalize nest.fileNodes = ys at *
  cases ys with
  | nil => rfl
  | cons y ys =>
    simp only [List.map_cons, List.cons.injEq]
    constructor
    · simp [protoOf, inputsOf]
    · refine List.map_congr_left fun y' hy' => ?_
      have hne : y ≠ y' := fun heq => (List.nodup_cons.1 hnodup).1 (heq ▸ hy')
      simp [TogGenerator.toOnnx, protoOf, inputsOf, hne]

/-- An edge of the graph leads to a node from one before it, or from the root. -/
theorem forward_of_mem_graphEdges (hedge : (x, y) ∈ nest.graphEdges) :
    ∃ pre suf, nest.fileNodes = pre ++ y :: suf ∧ (x = rootNode ∨ x ∈ pre) := by
  obtain ⟨pre, suf, heq, hx⟩ := Nest.forward_of_mem_levelEdges hedge
  exact ⟨pre, suf, heq, hx.imp_left List.mem_singleton.1⟩

/-- **The inputs are known** unless the second node follows the root as well. -/
theorem inputsKnown_iff (h : nest.Numbered)
    (hedges : ∀ ed, ed ∈ g.edges ↔ ed ∈ nest.graphEdges) :
    InputsKnown (inputsOf g nest.fileNodes) [] nest.fileNodes ↔ nest.FreshSecond := by
  have hnodup := h.nodup_fileNodes
  constructor
  · intro hknown
    by_contra hfresh
    obtain ⟨y₁, y₂, ys, heq, hend, hedge⟩ : ∃ y₁ y₂ ys, nest.fileNodes = y₁ :: y₂ :: ys ∧
        y₂.nodeClass ≠ .loopEndNode ∧ (rootNode, y₂) ∈ nest.graphEdges :=
      Nest.second_of_not_freshSecond hfresh
    have hroot : rootNode ∈ nest.nodes := List.mem_cons_self
    have hmem₁ : y₁ ∈ nest.fileNodes := by simp [heq]
    have hmem₂ : y₂ ∈ nest.fileNodes := by simp [heq]
    rw [heq] at hnodup hknown
    have hne : y₁ ≠ y₂ := fun hsame => (List.nodup_cons.1 hnodup).1 (by simp [hsame])
    have hinput : rootNode.name ∈ inputsOf g (y₁ :: y₂ :: ys) y₂ := by
      rw [inputsOf, if_neg (by simpa using hne)]
      exact List.mem_map_of_mem (mem_getParent.2 ((hedges _).2 hedge))
    have hname := hknown.2.1 hend _ hinput
    simp only [List.nil_append, List.mem_append, List.mem_singleton] at hname
    rcases hname with hname | hname
    · have hsame := h.eq_of_name hroot (List.mem_cons_of_mem _ hmem₁) hname
      exact h.root_notMem (hsame ▸ hmem₁)
    · have hsame := h.eq_of_name hroot (List.mem_cons_of_mem _ hmem₂) hname
      exact h.root_notMem (hsame ▸ hmem₂)
  · intro hfresh
    refine inputsKnown_of_splits fun pre y suf heq _ m hm => ?_
    unfold inputsOf at hm
    split at hm
    · cases hm
    · next hhead =>
      obtain ⟨x, hx, rfl⟩ := List.mem_map.1 hm
      have hedge := (hedges _).1 (mem_getParent.1 hx)
      obtain ⟨pre', suf', heq', hx⟩ := forward_of_mem_graphEdges hedge
      rcases hx with rfl | hx
      · exact absurd (Nest.head_of_mem_levelEdges hfresh h.root_notMem hedge) hhead
      · have hy : ∀ {pre suf}, nest.fileNodes = pre ++ y :: suf → y ∉ pre := by
          intro pre suf heq hmem
          rw [heq] at hnodup
          exact (List.nodup_append.1 hnodup).2.2 y hmem y List.mem_cons_self rfl
        obtain ⟨rfl, -⟩ := append_delimiter_inj (hy heq') (hy heq) (heq'.symm.trans heq)
        exact List.mem_append_right _ (List.mem_map_of_mem hx)

end File

/-! ## The links -/

namespace Nest

variable {nest : Nest} {c p : ℤ} {x l e : TogNode}

theorem class_of_mem_emit (h : x ∈ nest.emit c p) :
    IsLeaf x ∨ x.nodeClass = .loopIndexNode ∨ x.nodeClass = .loopEndNode := by
  induction nest generalizing c p with
  | nil => cases h
  | leaf id kind rest ih =>
    rcases List.mem_cons.1 h with rfl | h
    · exact .inl ⟨kind, rfl⟩
    · exact ih h
  | loop id loopIdx body rest ihb ihr =>
    rcases List.mem_cons.1 h with rfl | h
    · exact .inr (.inl rfl)
    · rcases List.mem_append.1 h with h | h
      · exact ihb h
      · rcases List.mem_cons.1 h with rfl | h
        · exact .inr (.inr rfl)
        · exact ihr h

/-- A loop end belongs to its loop. -/
theorem ownerLoop_of_mem_spans {f : ℕ → Option ℕ} {o : Option ℕ} {i : ℕ}
    (howners : nest.Owners f o i) (h : (l, e) ∈ nest.spans c p) :
    ∃ j k, (nest.emit c p)[j]? = some l ∧ (nest.emit c p)[k]? = some e ∧
      f (i + k) = some (i + j) := by
  induction nest generalizing c p o i with
  | nil => cases h
  | leaf id kind rest ih =>
    obtain ⟨j, k, hj, hk, hf⟩ := ih howners.2 h
    refine ⟨j + 1, k + 1, hj, hk, ?_⟩
    rw [show i + (k + 1) = i + 1 + k by omega, hf, Nat.add_assoc, Nat.add_comm 1]
  | loop id loopIdx body rest ihb ihr =>
    obtain ⟨-, hbody, hend, hrest⟩ := howners
    have hlength : (body.emit (c + 1) id).length = body.size := length_emit _ _ body
    rcases List.mem_cons.1 h with heq | h
    · obtain ⟨rfl, rfl⟩ := Prod.mk.inj heq
      refine ⟨0, body.size + 1, rfl, ?_, ?_⟩
      · rw [emit, List.getElem?_cons_succ, List.getElem?_append_right (by omega), hlength,
          Nat.sub_self]
        rfl
      · rw [show i + (body.size + 1) = i + 1 + body.size by omega, hend, Nat.add_zero]
    · rcases List.mem_append.1 h with h | h
      · obtain ⟨j, k, hj, hk, hf⟩ := ihb hbody h
        refine ⟨j + 1, k + 1, ?_, ?_, ?_⟩
        · rw [emit, List.getElem?_cons_succ,
            List.getElem?_append_left (List.getElem?_eq_some_iff.1 hj).1, hj]
        · rw [emit, List.getElem?_cons_succ,
            List.getElem?_append_left (List.getElem?_eq_some_iff.1 hk).1, hk]
        · rw [show i + (k + 1) = i + 1 + k by omega, hf, Nat.add_assoc, Nat.add_comm 1]
      · obtain ⟨j, k, hj, hk, hf⟩ := ihr hrest h
        have hplace : ∀ {n : ℕ} {y : TogNode}, (rest.emit (c + 1 + body.loops) p)[n]? = some y →
            ((loop id loopIdx body rest).emit c p)[body.size + 2 + n]? = some y := by
          intro n y hy
          rw [emit, show body.size + 2 + n = body.size + (n + 1) + 1 by omega,
            List.getElem?_cons_succ, List.getElem?_append_right (by omega), hlength,
            Nat.add_sub_cancel_left, List.getElem?_cons_succ, hy]
        refine ⟨_, _, hplace hj, hplace hk, ?_⟩
        rw [show i + (body.size + 2 + k) = i + 1 + body.size + 1 + k by omega, hf]
        exact congrArg some (by omega)

theorem exists_mem_spans_of_end (h : e ∈ nest.emit c p) (hend : e.nodeClass = .loopEndNode) :
    ∃ l, (l, e) ∈ nest.spans c p := by
  induction nest generalizing c p with
  | nil => cases h
  | leaf id kind rest ih =>
    rcases List.mem_cons.1 h with rfl | h
    · cases kind <;> cases hend
    · exact ih h
  | loop id loopIdx body rest ihb ihr =>
    simp only [spans, List.mem_cons, List.mem_append]
    rcases List.mem_cons.1 h with rfl | h
    · cases hend
    · rcases List.mem_append.1 h with h | h
      · obtain ⟨l, hl⟩ := ihb h
        exact ⟨l, .inr (.inl hl)⟩
      · rcases List.mem_cons.1 h with rfl | h
        · exact ⟨_, .inl rfl⟩
        · obtain ⟨l, hl⟩ := ihr h
          exact ⟨l, .inr (.inr hl)⟩

theorem class_of_mem_spans (h : (l, e) ∈ nest.spans c p) : e.nodeClass = .loopEndNode := by
  obtain ⟨-, -, -, -, -, hclose, -⟩ := matches_of_mem_spans h
  unfold bracketOf at hclose
  split at hclose
  · cases hclose
  · assumption
  · cases hclose

end Nest

section Links

variable {nest : Nest} {g : TogGenerator} {r : TogReader} {x y : TogNode} {i j : ℕ}

theorem Nest.Numbered.place_inj (h : nest.Numbered) (hi : nest.fileNodes[i]? = some x)
    (hj : nest.fileNodes[j]? = some x) : i = j :=
  (List.getElem?_inj (List.getElem?_eq_some_iff.1 hi).1 h.nodup_fileNodes).1 (hi.trans hj.symm)

/-- The parser behind the file of a nest. -/
structure FileRead (nest : Nest) (r : TogReader) : Prop where
  numbered : nest.Numbered
  reading : Reading r 0
  tileVec : r.tileVec = nest.fileNodes.map TogNode.name
  owners : nest.Owners r.ownerLoop none 0

theorem standsFor_root (h : FileRead nest r) : standsFor r rootNode.name = none := by
  have hnone : r.outputMap rootNode.name = none := by
    rw [Option.eq_none_iff_forall_ne_some]
    intro k hk
    have hmem := List.mem_of_getElem? ((h.reading.output _ k).1 hk)
    rw [h.tileVec] at hmem
    obtain ⟨x, hx, hname⟩ := List.mem_map.1 hmem
    have hsame := h.numbered.eq_of_name (List.mem_cons_of_mem _ hx) List.mem_cons_self hname
    exact h.numbered.root_notMem (hsame ▸ hx)
  rw [standsFor, hnone, Option.bind_none]

/-- A leaf stands for itself, and a loop end for its loop. -/
theorem standsFor_iff (h : FileRead nest r) (hx : x ∈ nest.fileNodes) :
    standsFor r x.name = some i ↔
      ∃ z, nest.fileNodes[i]? = some z ∧
        (IsLeaf z ∧ z = x ∨ (z, x) ∈ nest.spans (nest.rawGraph.length + 1) 0) := by
  obtain ⟨k, hk⟩ := List.getElem?_of_mem hx
  have hget : r.tileVec[k]? = some x.name := by
    rw [h.tileVec, List.getElem?_map, hk]
    rfl
  have hplace : r.outputMap x.name = some k := (h.reading.output _ k).2 hget
  have hspan : x.nodeClass ≠ .loopEndNode →
      ∀ z, (z, x) ∉ nest.spans (nest.rawGraph.length + 1) 0 :=
    fun hne z hz => hne (Nest.class_of_mem_spans hz)
  rcases Nest.class_of_mem_emit hx with hleaf | hloop | hend
  · have hself : standsFor r x.name = some k := by
      obtain ⟨kind, hkind⟩ := id hleaf
      have hclass : x.name.nodeClass = kind.nodeClass := hkind
      simp only [standsFor, hplace, Option.bind_some, hget, Option.map_some, hclass]
      cases kind <;> rfl
    have hne : x.nodeClass ≠ .loopEndNode := by
      obtain ⟨kind, hkind⟩ := id hleaf
      rw [hkind]
      cases kind <;> decide
    rw [hself, Option.some.injEq]
    constructor
    · rintro rfl
      exact ⟨x, hk, .inl ⟨hleaf, rfl⟩⟩
    · rintro ⟨z, hz, ⟨-, rfl⟩ | hz'⟩
      · exact h.numbered.place_inj hk hz
      · exact absurd hz' (hspan hne z)
  · have hnone : standsFor r x.name = none := by
      have hclass : x.name.nodeClass = _ := hloop
      simp only [standsFor, hplace, Option.bind_some, hget, Option.map_some, hclass]
    rw [hnone]
    constructor
    · intro heq
      cases heq
    · rintro ⟨z, hz, ⟨⟨kind, hkind⟩, rfl⟩ | hz'⟩
      · rw [hloop] at hkind
        cases kind <;> cases hkind
      · exact absurd hz' (hspan (by rw [hloop]; decide) z)
  · have howner : standsFor r x.name = r.ownerLoop k := by
      have hclass : x.name.nodeClass = _ := hend
      simp only [standsFor, hplace, Option.bind_some, hget, Option.map_some, hclass]
    have hof : ∀ {l}, (l, x) ∈ nest.spans (nest.rawGraph.length + 1) 0 →
        ∃ j, nest.fileNodes[j]? = some l ∧ r.ownerLoop k = some j := by
      intro l hl
      obtain ⟨j, k', hj, hk', hf⟩ := Nest.ownerLoop_of_mem_spans h.owners hl
      rw [Nat.zero_add, Nat.zero_add] at hf
      exact ⟨j, hj, by rw [h.numbered.place_inj hk hk', hf]⟩
    rw [howner]
    constructor
    · intro hi
      obtain ⟨l, hl⟩ := Nest.exists_mem_spans_of_end hx hend
      obtain ⟨j, hj, hf⟩ := hof hl
      rw [hi, Option.some.injEq] at hf
      exact ⟨l, hf ▸ hj, .inr hl⟩
    · rintro ⟨z, hz, ⟨⟨kind, hkind⟩, rfl⟩ | hz'⟩
      · rw [hend] at hkind
        cases kind <;> cases hkind
      · obtain ⟨j, hj, hf⟩ := hof hz'
        rw [hf, h.numbered.place_inj hj hz]

theorem mem_linksTo {inp : TogNode → List NodeName} {k : ℕ} {ys : List TogNode} :
    j ∈ linksTo inp r i k ys ↔ ∃ n y, j = k + n ∧ ys[n]? = some y ∧
      y.nodeClass ≠ .loopEndNode ∧ ∃ m ∈ inp y, standsFor r m = some i := by
  induction ys generalizing k with
  | nil => simp [linksTo]
  | cons y ys ih =>
    rw [linksTo, List.mem_append, ih]
    constructor
    · rintro (hj | ⟨n, y', rfl, hy', hrest⟩)
      · split at hj
        · cases hj
        · next hend =>
          obtain ⟨m, hm, rfl⟩ := List.mem_map.1 hj
          rw [List.mem_filter, decide_eq_true_eq] at hm
          exact ⟨0, y, rfl, rfl, hend, m, hm⟩
      · exact ⟨n + 1, y', by omega, hy', hrest⟩
    · rintro ⟨n, y', rfl, hy', hend, m, hm, hstands⟩
      cases n with
      | zero =>
        obtain rfl := Option.some.inj hy'
        left
        rw [if_neg hend]
        exact List.mem_map.2 ⟨m, List.mem_filter.2 ⟨hm, by simpa using hstands⟩, rfl⟩
      | succ n => exact .inr ⟨n, y', by omega, hy', hend, m, hm, hstands⟩

/-- No node is linked twice when no two inputs of a node stand for the same one. -/
theorem pairwise_linksTo {inp : TogNode → List NodeName} {k : ℕ} {ys : List TogNode}
    (h : ∀ y ∈ ys, ((inp y).filter fun m => standsFor r m = some i).length ≤ 1) :
    (linksTo inp r i k ys).Pairwise (· < ·) := by
  induction ys generalizing k with
  | nil => exact .nil
  | cons y ys ih =>
    rw [linksTo, List.pairwise_append]
    refine ⟨?_, ih fun y' hy' => h y' (List.mem_cons_of_mem _ hy'), ?_⟩
    · split
      · exact .nil
      · have hone := h y List.mem_cons_self
        generalize (inp y).filter (fun m => standsFor r m = some i) = ms at *
        rcases ms with _ | ⟨m, _ | ⟨m', ms⟩⟩
        · exact .nil
        · exact List.pairwise_singleton _ _
        · simp at hone
    · intro a ha b hb
      obtain ⟨n, -, rfl, -⟩ := mem_linksTo.1 hb
      split at ha
      · cases ha
      · obtain ⟨m, -, rfl⟩ := List.mem_map.1 ha
        omega

theorem Nest.mem_nodes_of_mem_spans (h : (x, y) ∈ nest.spans (nest.rawGraph.length + 1) 0) :
    y ∈ nest.fileNodes := by
  obtain ⟨u, v, t, heq, -⟩ := Nest.matches_of_mem_spans h
  rw [Nest.fileNodes, heq]
  simp

/-- No two nodes stand for the same one. -/
theorem standsFor_inj (h : FileRead nest r) (hx : x ∈ nest.fileNodes) (hy : y ∈ nest.fileNodes)
    (hxi : standsFor r x.name = some i) (hyi : standsFor r y.name = some i) : x = y := by
  obtain ⟨z, hz, hzx⟩ := (standsFor_iff h hx).1 hxi
  obtain ⟨z', hz', hzy⟩ := (standsFor_iff h hy).1 hyi
  obtain rfl := Option.some.inj (hz.symm.trans hz')
  have hopen : ∀ {e}, (z, e) ∈ nest.spans (nest.rawGraph.length + 1) 0 → ¬ IsLeaf z := by
    intro e he hleaf
    obtain ⟨-, -, -, -, hopen, -⟩ := Nest.matches_of_mem_spans he
    rw [hleaf.bracketOf] at hopen
    cases hopen
  rcases hzx with ⟨hleaf, rfl⟩ | hzx
  · rcases hzy with ⟨-, rfl⟩ | hzy
    · rfl
    · exact absurd hleaf (hopen hzy)
  · rcases hzy with ⟨hleaf, -⟩ | hzy
    · exact absurd hleaf (hopen hzx)
    · exact (h.numbered.matches_iff.2 hzx).unique (List.Nodup.of_map _ h.numbered.nodup_nodes)
        (h.numbered.matches_iff.2 hzy)

/-- The inputs that stand for a node are those from the parents that do. -/
theorem exists_input_iff (h : FileRead nest r)
    (hedges : ∀ ed, ed ∈ g.edges ↔ ed ∈ nest.graphEdges) :
    (∃ m ∈ inputsOf g nest.fileNodes y, standsFor r m = some i) ↔
      ∃ x ∈ nest.fileNodes, (x, y) ∈ g.edges ∧ standsFor r x.name = some i := by
  have hmem : ∀ {x}, (x, y) ∈ g.edges → standsFor r x.name = some i →
      ∃ pre suf, nest.fileNodes = pre ++ y :: suf ∧ x ∈ pre := by
    intro x hx hstands
    obtain ⟨pre, suf, heq, hroot | hpre⟩ := forward_of_mem_graphEdges ((hedges _).1 hx)
    · rw [hroot, standsFor_root h] at hstands
      cases hstands
    · exact ⟨pre, suf, heq, hpre⟩
  constructor
  · rintro ⟨m, hm, hstands⟩
    unfold inputsOf at hm
    split at hm
    · cases hm
    · obtain ⟨x, hx, rfl⟩ := List.mem_map.1 hm
      have hedge := mem_getParent.1 hx
      obtain ⟨pre, suf, heq, hpre⟩ := hmem hedge hstands
      refine ⟨x, ?_, hedge, hstands⟩
      rw [heq]
      exact List.mem_append_left _ hpre
  · rintro ⟨x, -, hedge, hstands⟩
    obtain ⟨pre, suf, heq, hpre⟩ := hmem hedge hstands
    refine ⟨x.name, ?_, hstands⟩
    have hhead : nest.fileNodes.head? ≠ some y := by
      have hnodup := h.numbered.nodup_fileNodes
      rw [heq] at hnodup ⊢
      cases pre with
      | nil => cases hpre
      | cons a pre =>
        intro hhead
        obtain rfl := Option.some.inj hhead
        exact (List.nodup_cons.1 hnodup).1 (by simp)
    rw [inputsOf, if_neg hhead]
    exact List.mem_map_of_mem (mem_getParent.2 hedge)

end Links

end PyTorchSim.Analysis
