import PyTorchSim.Analysis.TogLinks
import PyTorchSim.Model.TogParser

/-!
# What is written is read back

The file that the generator writes for a loop nest holds the nest: the parser finds the loops with
their bodies and links each node to the nodes that come after it.  Some nests are not read: those
with a node behind a loop that is in no other one, and those that begin with two loads or two waits,
as the second one has the root for its input.
-/

set_option autoImplicit false

namespace PyTorchSim.Analysis

open PyTorchSim.Model PyTorchSim.Library

/-! ## The nodes of the parser -/

/-- The node of the parser at a place. -/
def LeafKind.tileNode (a : NodeAttributes) (child : List ℕ) (i : ℕ) : LeafKind → TileNode
  | load => .load i child (a.memory i)
  | wait => .wait i child (a.wait i)
  | compute => .compute i child (a.compute i)
  | store => .store i child (a.memory i)

/-- The nodes of a nest that begins at the place `i`. -/
def Nest.tileNodes (a : NodeAttributes) (child : ℕ → List ℕ) (i : ℕ) : Nest → List TileNode
  | nil => []
  | leaf _ kind rest => kind.tileNode a (child i) i :: rest.tileNodes a child (i + 1)
  | loop _ _ body rest =>
    .loop i (child i) (a.loop i) (body.tileNodes a child (i + 1)) ::
      rest.tileNodes a child (i + 1 + body.size + 1)

/-- The nodes that the parser has at some places.  A loop end is no node of its own. -/
inductive Reads (r : TogReader) (a : NodeAttributes) : List ℕ → List TileNode → Prop
  | nil : Reads r a [] []
  | loopEnd {i : ℕ} {is : List ℕ} {ns : List TileNode} :
      (r.tileVec[i]?).map NodeName.nodeClass = some .loopEndNode → Reads r a is ns →
        Reads r a (i :: is) ns
  | leaf {i : ℕ} {is : List ℕ} {ns : List TileNode} (kind : LeafKind) :
      (r.tileVec[i]?).map NodeName.nodeClass = some kind.nodeClass → Reads r a is ns →
        Reads r a (i :: is) (kind.tileNode a (r.child i) i :: ns)
  | loop {i : ℕ} {is : List ℕ} {body ns : List TileNode} :
      (r.tileVec[i]?).map NodeName.nodeClass = some .loopIndexNode →
        Reads r a (r.bodyNode i) body → Reads r a is ns →
          Reads r a (i :: is) (.loop i (r.child i) (a.loop i) body :: ns)

/-- A loop of the parser, and the loop of the nest. -/
def LoopRead (r : TogReader) (a : NodeAttributes) (i : ℕ) (l : LoopHeader × List TileNode) : Prop :=
  l.1 = a.loop i ∧ Reads r a (r.bodyNode i) l.2

section Nodes

variable {r : TogReader} {a : NodeAttributes} {nest : Nest} {c p : ℤ} {i : ℕ}

/-- The nodes of a nest are in the file, from the place `i` on. -/
def StandsAt (r : TogReader) (i : ℕ) (ys : List TogNode) : Prop :=
  ∀ k y, ys[k]? = some y → r.tileVec[i + k]? = some y.name

theorem StandsAt.head {y : TogNode} {ys : List TogNode} (h : StandsAt r i (y :: ys)) :
    (r.tileVec[i]?).map NodeName.nodeClass = some y.nodeClass := by
  rw [show r.tileVec[i]? = some y.name from h 0 y rfl]
  rfl

theorem StandsAt.append_right {xs ys : List TogNode} (h : StandsAt r i (xs ++ ys)) :
    StandsAt r (i + xs.length) ys := by
  intro k y hy
  rw [Nat.add_assoc]
  refine h (xs.length + k) y ?_
  rw [List.getElem?_append_right (by omega), Nat.add_sub_cancel_left, hy]

theorem StandsAt.append_left {xs ys : List TogNode} (h : StandsAt r i (xs ++ ys)) :
    StandsAt r i xs := by
  intro k y hy
  refine h k y ?_
  rw [List.getElem?_append_left (List.getElem?_eq_some_iff.1 hy).1, hy]

theorem StandsAt.tail {y : TogNode} {ys : List TogNode} (h : StandsAt r i (y :: ys)) :
    StandsAt r (i + 1) ys := by
  have hright : StandsAt r (i + [y].length) ys := StandsAt.append_right h
  exact hright

theorem StandsAt.loop {l e : TogNode} {xs zs : List TogNode} {n : ℕ} (hn : xs.length = n)
    (h : StandsAt r i (l :: (xs ++ e :: zs))) :
    StandsAt r (i + 1) xs ∧
      (r.tileVec[i + 1 + n]?).map NodeName.nodeClass = some e.nodeClass ∧
        StandsAt r (i + 1 + n + 1) zs := by
  have hbehind := h.tail.append_right
  rw [hn] at hbehind
  exact ⟨h.tail.append_left, hbehind.head, hbehind.tail⟩

theorem reads_places {is : List ℕ} {ns : List TileNode} (hbodies : nest.Bodies r.bodyNode i)
    (hstands : StandsAt r i (nest.emit c p)) (h : Reads r a is ns) :
    Reads r a (nest.places i ++ is) (nest.tileNodes a r.child i ++ ns) := by
  induction nest generalizing c p i is ns with
  | nil => exact h
  | leaf id kind rest ih =>
    rw [Nest.emit] at hstands
    exact .leaf kind hstands.head (ih hbodies hstands.tail h)
  | loop id loopIdx body rest ihb ihr =>
    obtain ⟨hloop, hbody, hrest⟩ := hbodies
    rw [Nest.emit] at hstands
    obtain ⟨hin, hend, hbehind⟩ := hstands.loop (Nest.length_emit _ _ body)
    refine .loop hstands.head ?_ (ihr hrest hbehind h)
    have hread := ihb hbody hin (.loopEnd hend .nil)
    rw [List.append_nil] at hread
    rwa [hloop]

theorem loopNodes_append (depth : ℕ) (ms ns : List TileNode) :
    loopNodes depth (ms ++ ns) = loopNodes depth ms ++ loopNodes depth ns := by
  cases depth with
  | zero => simp only [loopNodes, List.filterMap_append]
  | succ depth => simp only [loopNodes, List.filterMap_append, List.flatMap_append]

theorem loopNodes_nil (depth : ℕ) : loopNodes depth [] = [] := by
  cases depth <;> simp [loopNodes]

theorem loopNodes_loop_zero (child : List ℕ) (header : LoopHeader) (body : List TileNode) :
    loopNodes 0 [.loop i child header body] = [(header, body)] := by
  simp [loopNodes]

theorem loopNodes_loop_succ (depth : ℕ) (child : List ℕ) (header : LoopHeader)
    (body : List TileNode) :
    loopNodes (depth + 1) [.loop i child header body] = loopNodes depth body := by
  simp [loopNodes]

theorem loopNodes_tileNode (depth : ℕ) (child : List ℕ) (kind : LeafKind) :
    loopNodes depth [kind.tileNode a child i] = [] := by
  cases depth <;> cases kind <;> simp [loopNodes, LeafKind.tileNode]

/-- The loops at a depth are those that are noted there. -/
theorem forall₂_loopNodes (hbodies : nest.Bodies r.bodyNode i)
    (hstands : StandsAt r i (nest.emit c p)) (d e : ℕ) :
    List.Forall₂ (LoopRead r a) (nest.loopPlaces (d + e) d i)
      (loopNodes e (nest.tileNodes a r.child i)) := by
  induction nest generalizing c p i d e with
  | nil =>
    rw [Nest.tileNodes, loopNodes_nil]
    exact .nil
  | leaf id kind rest ih =>
    rw [Nest.emit] at hstands
    rw [Nest.tileNodes, ← List.singleton_append, loopNodes_append, loopNodes_tileNode]
    exact ih hbodies hstands.tail d e
  | loop id loopIdx body rest ihb ihr =>
    obtain ⟨hloop, hbody, hrest⟩ := hbodies
    rw [Nest.emit] at hstands
    obtain ⟨hin, hend, hbehind⟩ := hstands.loop (Nest.length_emit _ _ body)
    rw [Nest.tileNodes, ← List.singleton_append, loopNodes_append, Nest.loopPlaces]
    refine List.rel_append ?_ (ihr hrest hbehind d e)
    cases e with
    | zero =>
      rw [Nest.loopPlaces_of_lt (by omega), List.append_nil, Nat.add_zero, if_pos rfl,
        loopNodes_loop_zero]
      refine .cons ⟨rfl, ?_⟩ .nil
      have hread := reads_places (a := a) hbody hin (.loopEnd hend .nil)
      rw [List.append_nil] at hread
      rwa [hloop]
    | succ e =>
      have hinner := ihb hbody hin (d + 1) e
      rw [if_neg (by omega), List.nil_append, loopNodes_loop_succ]
      rwa [show d + 1 + e = d + (e + 1) by omega] at hinner

theorem bodyDepth_tileNodes (child : ℕ → List ℕ) :
    bodyDepth (nest.tileNodes a child i) = nest.depth := by
  induction nest generalizing i with
  | nil => rfl
  | leaf id kind rest ih =>
    rw [Nest.tileNodes, bodyDepth, ih, Nest.depth]
    cases kind <;> exact Nat.zero_max _
  | loop id loopIdx body rest ihb ihr =>
    rw [Nest.tileNodes, bodyDepth, ihr, TileNode.depth, ihb, Nest.depth]

/-- The parser of the nested nodes stops at the same files. -/
theorem registerTiles_tileNodes (child : ℕ → List ℕ) :
    (∃ ns, registerTiles (nest.tileNodes a child i) = .ok ns) ↔ nest.LastLoop := by
  induction nest generalizing i with
  | nil => exact ⟨fun _ => trivial, fun _ => ⟨[], rfl⟩⟩
  | leaf id kind rest ih =>
    rw [Nest.LastLoop, ← ih]
    cases kind <;> rfl
  | loop id loopIdx body rest =>
    cases rest with
    | nil => exact ⟨fun _ => rfl, fun _ => ⟨_, rfl⟩⟩
    | leaf id' kind rest =>
      constructor
      · rintro ⟨ns, hns⟩
        cases hns
      · intro hnil
        cases hnil
    | loop id' loopIdx' body' rest =>
      constructor
      · rintro ⟨ns, hns⟩
        cases hns
      · intro hnil
        cases hnil

end Nodes

/-! ## Round trip -/

/-- The node `y` is connected to the leaf `z`, or to the end of the loop `z`. -/
def ComesAfter (g : TogGenerator) (z y : TogNode) : Prop :=
  IsLeaf z ∧ (z, y) ∈ g.edges ∨ ∃ e, Matches bracketOf (emitted g) z e ∧ (e, y) ∈ g.edges

/-- What the parser holds of a nest. -/
structure ReadBack (g : TogGenerator) (nest : Nest) (a : NodeAttributes) (r : TogReader) :
    Prop where
  nodes : r.tileVec = (emitted g).tail.map TogNode.name
  loops : ∀ depth, List.Forall₂ (LoopRead r a) (r.loopNodes.getD depth [])
    (loopNodes depth (nest.tileNodes a r.child 0))
  depth : r.loopNodes.length = bodyDepth (nest.tileNodes a r.child 0)
  accepted : ∃ ns, registerTiles (nest.tileNodes a r.child 0) = .ok ns
  child : ∀ i j, j ∈ r.child i ↔ ∃ z y, (emitted g).tail[i]? = some z ∧
    (emitted g).tail[j]? = some y ∧ y.nodeClass ≠ .loopEndNode ∧ ComesAfter g z y
  ordered : ∀ i, (r.child i).Pairwise (· < ·)

section RoundTrip

variable {nest : Nest} {g : TogGenerator} {r : TogReader}

theorem mem_child_iff (h : FileRead nest r) (hdict : g.nodeDict = dictOf nest.nodes)
    (hedges : ∀ ed, ed ∈ g.edges ↔ ed ∈ nest.graphEdges) (i j : ℕ) :
    j ∈ linksTo (inputsOf g nest.fileNodes) r i 0 nest.fileNodes ↔
      ∃ z y, (emitted g).tail[i]? = some z ∧ (emitted g).tail[j]? = some y ∧
        y.nodeClass ≠ .loopEndNode ∧ ComesAfter g z y := by
  have hemitted : emitted g = nest.nodes := emitted_dictOf hdict
  have htail : (emitted g).tail = nest.fileNodes := by
    rw [hemitted]
    rfl
  rw [mem_linksTo, htail]
  unfold ComesAfter
  rw [hemitted]
  constructor
  · rintro ⟨n, y, rfl, hy, hend, hinput⟩
    obtain ⟨x, hx, hedge, hstands⟩ := (exists_input_iff h hedges).1 hinput
    obtain ⟨z, hz, hzx⟩ := (standsFor_iff h hx).1 hstands
    rw [Nat.zero_add]
    refine ⟨z, y, hz, hy, hend, ?_⟩
    rcases hzx with ⟨hleaf, rfl⟩ | hspan
    · exact .inl ⟨hleaf, hedge⟩
    · exact .inr ⟨x, h.numbered.matches_iff.2 hspan, hedge⟩
  · rintro ⟨z, y, hz, hy, hend, hafter⟩
    refine ⟨j, y, (Nat.zero_add j).symm, hy, hend, (exists_input_iff h hedges).2 ?_⟩
    rcases hafter with ⟨hleaf, hedge⟩ | ⟨e, hmatch, hedge⟩
    · have hmem := List.mem_of_getElem? hz
      exact ⟨z, hmem, hedge,
        (standsFor_iff h hmem).2 ⟨z, hz, .inl ⟨hleaf, rfl⟩⟩⟩
    · have hspan := h.numbered.matches_iff.1 hmatch
      have hmem := Nest.mem_nodes_of_mem_spans hspan
      exact ⟨e, hmem, hedge,
        (standsFor_iff h hmem).2 ⟨z, hz, .inr hspan⟩⟩

theorem pairwise_child (h : FileRead nest r)
    (hedges : ∀ ed, ed ∈ g.edges ↔ ed ∈ nest.graphEdges) (i : ℕ) :
    (linksTo (inputsOf g nest.fileNodes) r i 0 nest.fileNodes).Pairwise (· < ·) := by
  refine pairwise_linksTo fun y _ => ?_
  have hparent : ∀ {x}, x ∈ g.getParent y → x ∈ nest.nodes := by
    intro x hx
    obtain ⟨pre, suf, heq, hx⟩ :=
      forward_of_mem_graphEdges ((hedges _).1 (mem_getParent.1 hx))
    rcases hx with rfl | hx
    · exact List.mem_cons_self
    · refine List.mem_cons_of_mem _ ?_
      change x ∈ nest.fileNodes
      rw [heq]
      exact List.mem_append_left _ hx
  have hnodup : (inputsOf g nest.fileNodes y).Nodup := by
    unfold inputsOf
    split
    · exact List.nodup_nil
    · refine (List.nodup_map_iff_inj_on (List.nodup_dedup _)).2 fun x hx x' hx' hname => ?_
      exact h.numbered.eq_of_name (hparent hx) (hparent hx') hname
  have hsame : ∀ m ∈ (inputsOf g nest.fileNodes y).filter fun m => standsFor r m = some i,
      ∃ x ∈ nest.fileNodes, m = x.name ∧ standsFor r x.name = some i := by
    intro m hm
    obtain ⟨hm, hstands⟩ := List.mem_filter.1 hm
    rw [decide_eq_true_eq] at hstands
    unfold inputsOf at hm
    split at hm
    · cases hm
    · obtain ⟨x, hx, rfl⟩ := List.mem_map.1 hm
      rcases List.mem_cons.1 (hparent hx) with rfl | hmem
      · rw [standsFor_root h] at hstands
        cases hstands
      · exact ⟨x, hmem, rfl, hstands⟩
  have hfilter := hnodup.filter fun m => decide (standsFor r m = some i)
  generalize (inputsOf g nest.fileNodes y).filter (fun m => standsFor r m = some i) = ms at *
  rcases ms with _ | ⟨m, _ | ⟨m', ms⟩⟩
  · exact Nat.zero_le 1
  · exact le_rfl
  · obtain ⟨x, hx, rfl, hxi⟩ := hsame m List.mem_cons_self
    obtain ⟨x', hx', rfl, hxi'⟩ := hsame _ (List.mem_cons_of_mem _ List.mem_cons_self)
    have heq := standsFor_inj h hx hx' hxi hxi'
    exact absurd (heq ▸ List.mem_cons_self) (List.nodup_cons.1 hfilter).1

/-- **The file of a loop nest is read back as the nest.**  The parser accepts it exactly when no
node comes after a loop that is in no other one, and the nest does not begin with two loads or two
waits.  It then has the nodes in their order, at each depth the loops with their headers and bodies,
and after each node the nodes that are connected to it, each once.
SOURCE: tog_generator.py:135-231, onnx_utility.py:27-48, TileGraphParser.cc:759-807 and 864-903 -/
theorem tog_round_trip {nest : Nest} (h : nest.Numbered) (hloops : nest.NonEmptyLoops)
    (a : NodeAttributes) : ∃ g, TogGenerator.parseGraph nest.rawGraph = .ok g ∧
      ((∃ r, TogReader.read g.generateTileGraph = .ok r) ↔ nest.Readable) ∧
        ∀ r, TogReader.read g.generateTileGraph = .ok r → ReadBack g nest a r := by
  obtain ⟨g, hg, hdict, hedges⟩ := parseGraph_spec h hloops
  have hfile := generateTileGraph_eq h hdict
  have hiff : (∃ r, TogReader.read g.generateTileGraph = .ok r) ↔ nest.Readable := by
    rw [hfile, Nest.fileNodes, read_iff h.nodup_names]
    change InputsKnown (inputsOf g nest.fileNodes) [] nest.fileNodes ∧ _ ↔ _
    rw [inputsKnown_iff h hedges]
    constructor
    · rintro ⟨hfresh, hlast⟩
      exact ⟨hlast, hfresh⟩
    · rintro ⟨hlast, hfresh⟩
      exact ⟨hfresh, hlast⟩
  refine ⟨g, hg, hiff, fun r hr => ?_⟩
  obtain ⟨hlast, hfresh⟩ := hiff.1 ⟨r, hr⟩
  have hknown := (inputsKnown_iff h hedges).2 hfresh
  obtain ⟨r', hr', hreading, hextends, hgrown⟩ :=
    read_nest Inside.init (.inr hlast) h.nodup_names hknown
  have hsame : r' = r := by
    rw [hfile] at hr
    exact Except.ok.inj (hr'.symm.trans hr)
  subst hsame
  have htile : r'.tileVec = nest.fileNodes.map TogNode.name := hextends.tileVec
  have hchild : ∀ i, r'.child i =
      linksTo (inputsOf g nest.fileNodes) r' i 0 nest.fileNodes := hextends.child
  have hfileRead : FileRead nest r' := ⟨h, hreading, htile, hgrown.owners⟩
  have hstands : StandsAt r' 0 nest.fileNodes := by
    intro k y hy
    rw [htile, Nat.zero_add, List.getElem?_map, hy]
    rfl
  constructor
  · rw [htile, show emitted g = nest.nodes from emitted_dictOf hdict]
    rfl
  · intro depth
    have hlevels := hgrown.levels depth
    have hforall := forall₂_loopNodes (a := a) hgrown.bodies hstands 0 depth
    rw [Nat.zero_add] at hforall
    rw [hlevels]
    exact hforall
  · rw [bodyDepth_tileNodes, hgrown.length]
    exact (Nat.zero_max _).trans (Nat.zero_add _)
  · exact (registerTiles_tileNodes r'.child).2 hlast
  · intro i j
    rw [hchild]
    exact mem_child_iff hfileRead hdict hedges i j
  · intro i
    rw [hchild]
    exact pairwise_child hfileRead hedges i

end RoundTrip

/-- Attributes of a kernel with two loops. -/
def plainAttributes : NodeAttributes where
  memory := fun _ =>
    { tileSize := [8, 8], tileStride := [8, 1], elemBits := 32, isAsync := true
      isIndirect := false, baseAddrName := "arg0", tagIdxList := [], tagStrideList := []
      loopIdxList := ["i"], loopStrideList := [64] }
  wait := fun _ =>
    { tagIdxList := [], tagStrideList := [], tagDividerList := [], baseAddrName := "arg0" }
  compute := fun _ => ⟨4, 0, MATMUL⟩
  loop := fun i => ⟨if i = 0 then "i" else "j", 0, 8, 1, .parallelLoop⟩

theorem tog_round_trip_pairedLoads :
    ∃ g, TogGenerator.parseGraph pairedLoads.rawGraph = .ok g ∧
      ∃ r, TogReader.read g.generateTileGraph = .ok r ∧
        ReadBack g pairedLoads plainAttributes r := by
  have hnumbered : pairedLoads.Numbered := ⟨by decide, by decide⟩
  have hloops : pairedLoads.NonEmptyLoops := by simp [pairedLoads, Nest.NonEmptyLoops]
  obtain ⟨g, hg, hiff, hback⟩ := tog_round_trip hnumbered hloops plainAttributes
  obtain ⟨r, hr⟩ := hiff.2 ⟨rfl, trivial⟩
  exact ⟨g, hg, r, hr, hback r hr⟩

end PyTorchSim.Analysis
