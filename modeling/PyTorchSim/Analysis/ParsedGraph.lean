import PyTorchSim.Analysis.InstructionLinks

/-!
# The tiles of a whole file

Every subgraph is made of tile lists, one for each loop of the last outer depth.  What is proved
of the list of one call of `get_tiles_from_iter` holds of each list when the parser is done,
because a call writes only to objects that it made: `Listed` follows a property of tile lists
through the calls.
-/

set_option autoImplicit false

namespace PyTorchSim.Analysis

open PyTorchSim.Model PyTorchSim.Library

variable {T : ParserTables} {iter : LoopIter} {nodes body : List TileNode} {b ret : BodyState}
  {st st' st₀ : ParserState} {h h' : CoreHeap ℕ ℕ} {t i : ℕ}

/-! ## Objects before the simulation -/

/-- Nothing was run yet. -/
structure Blank (h : CoreHeap ℕ ℕ) : Prop where
  finished : ∀ i, (h.inst i).finished = false
  waiting : ∀ i, (h.inst i).nrWaitingRequest = 0
  nrFinished : ∀ t, (h.tile t).nrFinishedInsts = 0
  readyQueue : ∀ t, (h.tile t).readyQueue = []
  status : ∀ t, (h.tile t).status = .initialized

namespace Blank

theorem setTile {v : Tile ℕ ℕ} (hB : Blank h) (h₁ : v.nrFinishedInsts = 0)
    (h₂ : v.readyQueue = []) (h₃ : v.status = .initialized) : Blank (h.setTile t v) := by
  refine ⟨hB.finished, hB.waiting, fun u => ?_, fun u => ?_, fun u => ?_⟩ <;>
    by_cases hu : u = t
  · rw [hu, CoreHeap.setTile_tile_self, h₁]
  · rw [CoreHeap.setTile_tile_of_ne _ _ hu, hB.nrFinished]
  · rw [hu, CoreHeap.setTile_tile_self, h₂]
  · rw [CoreHeap.setTile_tile_of_ne _ _ hu, hB.readyQueue]
  · rw [hu, CoreHeap.setTile_tile_self, h₃]
  · rw [CoreHeap.setTile_tile_of_ne _ _ hu, hB.status]

theorem setInst {v : Instruction ℕ ℕ} (hB : Blank h) (h₁ : v.finished = false)
    (h₂ : v.nrWaitingRequest = 0) : Blank (h.setInst i v) := by
  refine ⟨fun j => ?_, fun j => ?_, hB.nrFinished, hB.readyQueue, hB.status⟩ <;>
    by_cases hj : j = i
  · rw [hj, CoreHeap.setInst_inst_self, h₁]
  · rw [CoreHeap.setInst_inst_of_ne _ _ hj, hB.finished]
  · rw [hj, CoreHeap.setInst_inst_self, h₂]
  · rw [CoreHeap.setInst_inst_of_ne _ _ hj, hB.waiting]

theorem appendInstruction (hB : Blank h) (t i : ℕ) : Blank (h.appendInstruction t i) := by
  have hinst := hB.setInst (i := i) (v := { h.inst i with owner := t }) (hB.finished i)
    (hB.waiting i)
  exact hinst.setTile (v := (h.tile t).appendInstruction i) (hB.nrFinished t) (hB.readyQueue t)
    (hB.status t)

theorem appendChildTile (hB : Blank h) (p c : ℕ) : Blank (h.appendChildTile p c) := by
  have hchild := hB.setTile (t := c)
    (v := { h.tile c with readyCounter := (h.tile c).readyCounter + 1 })
    (hB.nrFinished c) (hB.readyQueue c) (hB.status c)
  exact hchild.setTile (hchild.nrFinished p) (hchild.readyQueue p) (hchild.status p)

theorem addChild (hB : Blank h) (i j : ℕ) : Blank (h.addChild i j) := by
  have hchild := hB.setInst (i := j)
    (v := { h.inst j with readyCounter := (h.inst j).readyCounter + 1 })
    (hB.finished j) (hB.waiting j)
  exact hchild.setInst (hchild.finished i) (hchild.waiting i)

theorem link (hB : Blank b.st.heap) : Blank b.link.st.heap := by
  rw [link_heap]
  generalize b.st.heap = h at hB
  induction linkEdges b.linkMap generalizing h with
  | nil => exact hB
  | cons e E ih => exact ih _ (hB.addChild e.1 e.2)

theorem splice (hB : Blank h) (back : ℕ) (last : Option ℕ) (l : List ℕ) :
    Blank (splice back last l h) := by
  induction l generalizing h with
  | nil => exact hB
  | cons i l ih =>
      refine ih ?_
      have happend := hB.appendInstruction back i
      cases last with
      | none => exact happend
      | some a => exact happend.addChild a i

theorem setSubgraph (hB : Blank h) (g t : ℕ) : Blank (h.setSubgraph g t) := by
  unfold CoreHeap.setSubgraph
  have htile := hB.setTile (t := t) (v := { h.tile t with ownerGraph := g }) (hB.nrFinished t)
    (hB.readyQueue t) (hB.status t)
  generalize h.setTile t _ = h₁ at htile
  induction (h.tile t).instructions generalizing h₁ with
  | nil => exact htile
  | cons i l ih => exact ih _ (htile.setInst (htile.finished i) (htile.waiting i))

end Blank

/-- **Expanding a body runs nothing.** -/
theorem blank_rule : ExpansionRule (fun _ _ => True)
    (fun st b => Blank st.heap → Blank b.st.heap)
    fun st _ _ _ b => Blank st.heap → Blank b.st.heap where
  start st hB := hB.setTile rfl rfl rfl
  leaf st b b' iter id child _ hI hstep hB := by
    cases hstep with
    | dropped st' hsame hrecord =>
        change Blank st'.heap
        rw [hsame.heap]
        exact hI hB
    | appended st' inst hsame hrecord hnew =>
        have hB' : Blank st'.heap := hsame.heap ▸ hI hB
        exact (hB'.setInst (i := st'.nextInst) (v := { inst with id := st'.nextInst })
          hnew.finished hnew.nrWaitingRequest).appendInstruction b.back st'.nextInst
  enter st b loopType hI hB := (hI hB).link.setTile rfl rfl rfl
  iterate st loopType child last b ret hJ hret hB := by
    have hlink := (hret (hJ hB)).link
    unfold BodyState.addIteration
    split
    · exact hlink.splice _ _ _
    · exact (hlink.appendChildTile _ _).appendChildTile _ _
  exit st loopType child last b hJ hB := (hJ hB).appendChildTile _ _

/-! ## Lists that are kept -/

/-- The tiles of a list and their instructions are the same, except that a subgraph may have
taken them. -/
def Kept (h h' : CoreHeap ℕ ℕ) (L : List ℕ) : Prop :=
  ∀ t ∈ L, (∃ g, h'.tile t = { h.tile t with ownerGraph := g }) ∧
    ∀ i ∈ (h.tile t).instructions, ∃ g, h'.inst i = { h.inst i with subgraphId := g }

/-- Taking a tile into a subgraph writes to the owner and the subgraph numbers. -/
theorem setSubgraph_same (h : CoreHeap ℕ ℕ) (g t : ℕ) :
    (∀ u, ∃ g', (h.setSubgraph g t).tile u = { h.tile u with ownerGraph := g' }) ∧
      ∀ i, ∃ g', (h.setSubgraph g t).inst i = { h.inst i with subgraphId := g' } := by
  have hfold : ∀ (l : List ℕ) (h : CoreHeap ℕ ℕ),
      (l.foldl (fun h i => h.setInst i { h.inst i with subgraphId := g }) h).tile = h.tile ∧
      ∀ i, ∃ g', (l.foldl (fun h i => h.setInst i { h.inst i with subgraphId := g }) h).inst i =
        { h.inst i with subgraphId := g' } := by
    intro l
    induction l with
    | nil => exact fun h => ⟨rfl, fun i => ⟨(h.inst i).subgraphId, rfl⟩⟩
    | cons j l ih =>
        intro h
        obtain ⟨htile, hinst⟩ := ih (h.setInst j { h.inst j with subgraphId := g })
        refine ⟨htile, fun i => ?_⟩
        obtain ⟨g', hg'⟩ := hinst i
        refine ⟨g', hg'.trans ?_⟩
        by_cases hij : i = j
        · subst hij
          rw [CoreHeap.setInst_inst_self]
        · rw [CoreHeap.setInst_inst_of_ne _ _ hij]
  obtain ⟨htile, hinst⟩ := hfold (h.tile t).instructions
    (h.setTile t { h.tile t with ownerGraph := g })
  refine ⟨fun u => ?_, fun i => ?_⟩
  · unfold CoreHeap.setSubgraph
    rw [htile]
    by_cases hu : u = t
    · subst hu
      exact ⟨g, CoreHeap.setTile_tile_self _ _ _⟩
    · exact ⟨(h.tile u).ownerGraph, CoreHeap.setTile_tile_of_ne _ _ hu⟩
  · exact hinst i

theorem foldl_setSubgraph_same (g : ℕ) (L : List ℕ) (h : CoreHeap ℕ ℕ) :
    (∀ u, ∃ g', (L.foldl (fun h t => h.setSubgraph g t) h).tile u =
        { h.tile u with ownerGraph := g' }) ∧
      ∀ i, ∃ g', (L.foldl (fun h t => h.setSubgraph g t) h).inst i =
        { h.inst i with subgraphId := g' } := by
  induction L generalizing h with
  | nil => exact ⟨fun u => ⟨(h.tile u).ownerGraph, rfl⟩, fun i => ⟨(h.inst i).subgraphId, rfl⟩⟩
  | cons t L ih =>
      obtain ⟨htile, hinst⟩ := ih (h.setSubgraph g t)
      obtain ⟨htile₁, hinst₁⟩ := setSubgraph_same h g t
      refine ⟨fun u => ?_, fun i => ?_⟩
      · obtain ⟨g₂, h₂⟩ := htile u
        obtain ⟨g₁, h₁⟩ := htile₁ u
        exact ⟨g₂, h₂.trans (by rw [h₁])⟩
      · obtain ⟨g₂, h₂⟩ := hinst i
        obtain ⟨g₁, h₁⟩ := hinst₁ i
        exact ⟨g₂, h₂.trans (by rw [h₁])⟩

/-- The tile lists that calls have returned so far. -/
structure Listed (K : CoreHeap ℕ ℕ → List ℕ → Prop) (st : ParserState) (lists : List (List ℕ)) :
    Prop where
  nodup : lists.flatten.Nodup
  tiles : ∀ L ∈ lists, ∀ t ∈ L, t < st.nextTile
  insts : ∀ L ∈ lists, ∀ t ∈ L, ∀ i ∈ (st.heap.tile t).instructions, i < st.nextInst
  prop : ∀ L ∈ lists, K st.heap L
  blank : Blank st.heap

/-- A property of tile lists that a call establishes and that later calls keep. -/
structure ListRule (T : ParserTables) (Q : ℕ → List ℕ → Prop)
    (K : CoreHeap ℕ ℕ → List ℕ → Prop) : Prop where
  call : ∀ body iter st st' tiles, BodyLeaves Q body →
    getTilesFromIter T body iter st = .ok (st', tiles) → K st'.heap tiles
  kept : ∀ h h' L, K h L → Kept h h' L → K h' L

section Lists

variable {Q : ℕ → List ℕ → Prop} {K : CoreHeap ℕ ℕ → List ℕ → Prop} {lists : List (List ℕ)}
  {tiles : List ℕ} {g : ℕ}

theorem Listed.addLoop (hrule : ListRule T Q K) (hl : Listed K st lists)
    (hQ : BodyLeaves Q body) (h : addLoop T body iter g st = .ok (st', tiles)) :
    Listed K st' (lists ++ [tiles]) := by
  unfold Model.addLoop at h
  obtain ⟨⟨st₁, tiles₁⟩, hcall, h⟩ := bind_eq_ok.mp h
  cases h
  obtain ⟨b, ⟨hf, hshape⟩, rfl, rfl⟩ := getTilesFromIter_rule bodyShape_rule
    (bodyLeaves_true body) hcall
  obtain ⟨b', hblank, hst, -⟩ := getTilesFromIter_rule blank_rule (bodyLeaves_true body) hcall
  have hlink := hf.link
  have hnew : ∀ t ∈ b.tileVec, st.nextTile ≤ t ∧ t < b.link.st.nextTile := hlink.tiles
  obtain ⟨htile, hinst⟩ := foldl_setSubgraph_same g b.tileVec b.link.st.heap
  have hinsts : ∀ t, ((b.tileVec.foldl (fun h t => h.setSubgraph g t) b.link.st.heap).tile
      t).instructions = (b.link.st.heap.tile t).instructions := by
    intro t
    obtain ⟨g', hg'⟩ := htile t
    rw [hg']
  have hold : ∀ L ∈ lists, ∀ t ∈ L, b.link.st.heap.tile t = st.heap.tile t :=
    fun L hL t ht => hlink.tile t (hl.tiles L hL t ht)
  have hkept : ∀ L ∈ lists, Kept st.heap
      (b.tileVec.foldl (fun h t => h.setSubgraph g t) b.link.st.heap) L := by
    intro L hL t ht
    obtain ⟨g', hg'⟩ := htile t
    refine ⟨⟨g', by rw [hg', hold L hL t ht]⟩, fun i hi => ?_⟩
    obtain ⟨g', hg'⟩ := hinst i
    exact ⟨g', by rw [hg', hlink.inst i (hl.insts L hL t ht i hi)]⟩
  refine ⟨?_, fun L hL t ht => ?_, fun L hL t ht i hi => ?_, fun L hL => ?_, ?_⟩
  · rw [List.flatten_append, List.flatten_singleton, List.nodup_append']
    refine ⟨hl.nodup, hshape.counted.nodup, fun t ht ht' => ?_⟩
    obtain ⟨L, hL, ht⟩ := List.mem_flatten.mp ht
    have h₁ := hl.tiles L hL t ht
    have h₂ := (hnew t ht').1
    omega
  · rcases List.mem_append.mp hL with hL | hL
    · exact (hl.tiles L hL t ht).trans_le hlink.nextTile
    · rw [List.mem_singleton.mp hL] at ht
      exact (hnew t ht).2
  · rw [hinsts] at hi
    rcases List.mem_append.mp hL with hL | hL
    · rw [hold L hL t ht] at hi
      exact (hl.insts L hL t ht i hi).trans_le hlink.nextInst
    · rw [List.mem_singleton.mp hL] at ht
      exact (hlink.insts t ht i hi).2
  · rcases List.mem_append.mp hL with hL | hL
    · exact hrule.kept _ _ L (hl.prop L hL) (hkept L hL)
    · rw [List.mem_singleton.mp hL]
      exact hrule.kept _ _ _ (hrule.call body iter _ _ _ hQ hcall)
        fun t _ => ⟨htile t, fun i _ => hinst i⟩
  · have hB : Blank b.link.st.heap := by
      rw [hst]
      exact (hblank hl.blank).link
    clear hinst htile hinsts hkept
    change Blank (b.tileVec.foldl (fun h t => h.setSubgraph g t) b.link.st.heap)
    generalize b.link.st.heap = h₁ at hB
    induction b.tileVec generalizing h₁ with
    | nil => exact hB
    | cons t L ih => exact ih _ (hB.setSubgraph g t)

theorem Listed.addLoops (hrule : ListRule T Q K) (loops : List (LoopHeader × List TileNode))
    (hQ : ∀ l ∈ loops, BodyLeaves Q l.2) (hl : Listed K st lists)
    (h : addLoops T iter g loops st = .ok (st', tiles)) :
    ∃ new, tiles = new.flatten ∧ Listed K st' (lists ++ new) := by
  induction loops generalizing st lists tiles with
  | nil =>
      cases h
      exact ⟨[], rfl, by rwa [List.append_nil]⟩
  | cons l ls ih =>
      rw [Model.addLoops] at h
      obtain ⟨⟨st₁, tiles₁⟩, hfirst, h⟩ := bind_eq_ok.mp h
      obtain ⟨⟨st₂, tiles₂⟩, hrest, h⟩ := bind_eq_ok.mp h
      cases h
      have h₁ := hl.addLoop hrule (hQ l List.mem_cons_self) hfirst
      obtain ⟨new, rfl, h₂⟩ := ih (fun l hl => hQ l (List.mem_cons_of_mem _ hl)) h₁ hrest
      refine ⟨tiles₁ :: new, rfl, ?_⟩
      rwa [List.append_assoc, List.singleton_append] at h₂

/-- The tile lists of the subgraphs. -/
theorem Listed.addSubgraphs (hrule : ListRule T Q K) {coreOf : ℕ → ℤ}
    {loops : List (LoopHeader × List TileNode)} (hQ : ∀ l ∈ loops, BodyLeaves Q l.2)
    {subs : List (SubGraphPlan ℕ)} (iters : List LoopIter) (hl : Listed K st lists)
    (h : addSubgraphs T coreOf loops iters g st = .ok (st', subs)) :
    ∃ new : List (List (List ℕ)), List.Forall₂ (fun sub (ls : List (List ℕ)) =>
        sub.tiles = ls.flatten) subs new ∧ Listed K st' (lists ++ new.flatten) ∧
      subs.map (·.id) = List.range' g subs.length := by
  induction iters generalizing st lists subs g with
  | nil =>
      cases h
      exact ⟨[], .nil, by rwa [List.flatten_nil, List.append_nil], rfl⟩
  | cons iter iters ih =>
      rw [Model.addSubgraphs] at h
      obtain ⟨⟨st₁, tiles₁⟩, hfirst, h⟩ := bind_eq_ok.mp h
      obtain ⟨⟨st₂, subs₂⟩, hrest, h⟩ := bind_eq_ok.mp h
      cases h
      obtain ⟨ls, hls, h₁⟩ := hl.addLoops hrule loops hQ hfirst
      obtain ⟨new, hnew, h₂, hids⟩ := ih h₁ hrest
      refine ⟨ls :: new, .cons hls hnew, ?_, ?_⟩
      · rwa [List.append_assoc, ← List.flatten_cons] at h₂
      · rw [List.map_cons, hids, List.length_cons, List.range'_succ]

end Lists

/-! ## The graph -/

section Graph

variable {Q : ℕ → List ℕ → Prop} {K : CoreHeap ℕ ℕ → List ℕ → Prop} {coreOf : ℕ → ℤ} {g : ℕ}
  {file : List TileNode} {subs : List (SubGraphPlan ℕ)}

theorem bodyLeaves_loopNodes_zero (nodes : List TileNode) (hQ : BodyLeaves Q nodes) :
    ∀ l ∈ loopNodes 0 nodes, BodyLeaves Q l.2 := by
  rw [loopNodes]
  induction nodes with
  | nil =>
      intro l hl
      exact absurd hl List.not_mem_nil
  | cons node nodes ih =>
      rw [BodyLeaves] at hQ
      intro l hl
      cases node with
      | loop id child header body =>
          rcases List.mem_cons.mp hl with rfl | hl
          · have hnode := hQ.1
            rwa [NodeLeaves] at hnode
          · exact ih hQ.2 l hl
      | _ => exact ih hQ.2 l hl

theorem bodyLeaves_loopNodes (depth : ℕ) (nodes : List TileNode) (hQ : BodyLeaves Q nodes) :
    ∀ l ∈ loopNodes depth nodes, BodyLeaves Q l.2 := by
  induction depth generalizing nodes with
  | zero => exact bodyLeaves_loopNodes_zero nodes hQ
  | succ depth ih =>
      rw [loopNodes]
      intro l hl
      obtain ⟨l', hl', hl⟩ := List.mem_flatMap.mp hl
      exact ih l'.2 (bodyLeaves_loopNodes_zero nodes hQ l' hl') l hl

theorem bodyLeaves_registerTiles {nodes : List TileNode} (hQ : BodyLeaves Q file)
    (h : registerTiles file = .ok nodes) : BodyLeaves Q nodes := by
  induction file with
  | nil =>
      cases h
      exact hQ
  | cons node rest ih =>
      rw [BodyLeaves] at hQ
      cases node with
      | loop id child header body =>
          rw [registerTiles] at h
          split at h
          · cases h
            rw [BodyLeaves, BodyLeaves]
            exact ⟨hQ.1, trivial⟩
          · cases h
      | _ => exact ih hQ.2 h

/-- **The tiles of a file**: every subgraph is made of tile lists with the property. -/
theorem tileGraphParser_listed (hrule : ∀ T, ListRule T Q K) (hQ : BodyLeaves Q file)
    (h : tileGraphParser T coreOf g file = .ok (st, subs)) :
    ∃ lists : List (List (List ℕ)), List.Forall₂ (fun sub (ls : List (List ℕ)) =>
        sub.tiles = ls.flatten) subs lists ∧ Listed K st lists.flatten ∧
      subs.map (·.id) = List.range' g subs.length := by
  have hinit : Listed K .init [] := by
    refine ⟨List.nodup_nil, ?_, ?_, ?_, ⟨?_, ?_, ?_, ?_, ?_⟩⟩ <;> simp [ParserState.init]
  unfold tileGraphParser at h
  obtain ⟨nodes, hnodes, h⟩ := bind_eq_ok.mp h
  dsimp only at h
  split at h
  · cases h
    exact ⟨[], .nil, by simpa using hinit, rfl⟩
  · split at h
    · cases h
    · obtain ⟨iters, -, h⟩ := bind_eq_ok.mp h
      have hloops := bodyLeaves_loopNodes ((outerRanges nodes).length - 1) nodes
        (bodyLeaves_registerTiles hQ hnodes)
      obtain ⟨new, hnew, hl, hids⟩ := hinit.addSubgraphs (hrule _) hloops iters h
      exact ⟨new, hnew, by simpa using hl, hids⟩

end Graph

end PyTorchSim.Analysis
