import PyTorchSim.Analysis.InstructionFinish
import PyTorchSim.Library.CountedGraph
import PyTorchSim.Library.Runs
import PyTorchSim.Model.TogParser

/-!
# What the expansion of a loop body does

The four kinds of nodes that become instructions do one of two things, `LeafStep`.  The rule
`expandBody_rule` says what has to be checked of a property of a body under expansion, so that
the recursion over the nodes and the loop over the iterations are taken apart once.
`BodyFrame` is the first such property: an expansion writes only to objects that it made.
-/

set_option autoImplicit false

namespace PyTorchSim.Model.CoreHeap

open PyTorchSim.Library

variable {τ ι : Type} [DecidableEq τ] [DecidableEq ι] (h : CoreHeap τ ι) {i j k : ι} {t u p c : τ}

omit [DecidableEq τ] in
@[simp] theorem addChild_tile (i j : ι) : (h.addChild i j).tile = h.tile := rfl

omit [DecidableEq τ] in
/-- A new child of `i` is listed among its children and counts one more parent. -/
theorem addChild_inst (hnew : j ∉ (h.inst i).childInst) (k : ι) :
    (h.addChild i j).inst k = { h.inst k with
      readyCounter := (h.inst k).readyCounter + if k = j then 1 else 0
      childInst := (h.inst k).childInst ++ if k = i then [j] else [] } := by
  unfold addChild
  dsimp only
  by_cases hij : j = i
  · subst hij
    by_cases hk : k = j
    · subst hk
      simp [hnew]
    · simp [setInst_inst_of_ne, hk]
  · rw [setInst_inst_of_ne _ _ (Ne.symm hij), if_neg hnew]
    by_cases hk : k = i
    · subst hk
      simp [Ne.symm hij]
    · rw [setInst_inst_of_ne _ _ hk, if_neg hk, List.append_nil]
      by_cases hkj : k = j
      · subst hkj
        simp
      · simp [setInst_inst_of_ne _ _ hkj, hkj]

omit [DecidableEq τ] in
theorem addChild_inst_of_ne (hi : k ≠ i) (hj : k ≠ j) : (h.addChild i j).inst k = h.inst k := by
  unfold addChild
  dsimp only
  rw [setInst_inst_of_ne _ _ hi, setInst_inst_of_ne _ _ hj]

omit [DecidableEq τ] in
theorem foldl_addChild_tile (E : List (ι × ι)) :
    (E.foldl (fun h e => h.addChild e.1 e.2) h).tile = h.tile := by
  induction E generalizing h with
  | nil => rfl
  | cons e E ih => exact ih _

omit [DecidableEq τ] in
theorem foldl_addChild_inst_of_ne (E : List (ι × ι)) (hk : ∀ e ∈ E, k ≠ e.1 ∧ k ≠ e.2) :
    (E.foldl (fun h e => h.addChild e.1 e.2) h).inst k = h.inst k := by
  induction E generalizing h with
  | nil => rfl
  | cons e E ih =>
      have he := hk e List.mem_cons_self
      rw [List.foldl_cons, ih _ fun e he => hk e (List.mem_cons_of_mem _ he),
        addChild_inst_of_ne h he.1 he.2]

omit [DecidableEq τ] in
/-- New edges are listed at the parents and counted at the children. -/
theorem foldl_addChild_inst {E : List (ι × ι)} (hE : E.Nodup)
    (hnew : ∀ e ∈ E, e.2 ∉ (h.inst e.1).childInst) (k : ι) :
    (E.foldl (fun h e => h.addChild e.1 e.2) h).inst k = { h.inst k with
      readyCounter := (h.inst k).readyCounter + (parents E k).length
      childInst := (h.inst k).childInst ++ children E k } := by
  induction E generalizing h with
  | nil => simp [parents, children]
  | cons e E ih =>
      obtain ⟨i, j⟩ := e
      obtain ⟨hnot, hE⟩ := List.nodup_cons.mp hE
      have hfirst := h.addChild_inst (hnew (i, j) List.mem_cons_self)
      have hrest : ∀ e ∈ E, e.2 ∉ ((h.addChild i j).inst e.1).childInst := by
        intro e he
        rw [hfirst, List.mem_append, not_or]
        refine ⟨hnew e (List.mem_cons_of_mem _ he), fun hmem => ?_⟩
        by_cases hei : e.1 = i
        · rw [if_pos hei, List.mem_singleton] at hmem
          exact hnot ((Prod.ext hei hmem : e = (i, j)) ▸ he)
        · rw [if_neg hei] at hmem
          exact List.not_mem_nil hmem
      rw [List.foldl_cons, ih _ hE hrest, hfirst]
      simp only [length_parents_cons, children_cons, Nat.add_assoc, List.append_assoc]

@[simp] theorem appendInstruction_tile_self (t : τ) (i : ι) :
    (h.appendInstruction t i).tile t = (h.tile t).appendInstruction i := by
  simp [appendInstruction]

theorem appendInstruction_tile_of_ne (i : ι) (hne : u ≠ t) :
    (h.appendInstruction t i).tile u = h.tile u := by
  unfold appendInstruction
  rw [setTile_tile_of_ne _ _ hne, setInst_tile]

@[simp] theorem appendInstruction_inst_self (t : τ) (i : ι) :
    (h.appendInstruction t i).inst i = { h.inst i with owner := t } := by
  simp [appendInstruction]

theorem appendInstruction_inst_of_ne (t : τ) (hne : j ≠ i) :
    (h.appendInstruction t i).inst j = h.inst j := by
  unfold appendInstruction
  rw [setTile_inst, setInst_inst_of_ne _ _ hne]

omit [DecidableEq ι] in
@[simp] theorem appendChildTile_inst (p c : τ) : (h.appendChildTile p c).inst = h.inst := rfl

omit [DecidableEq ι] in
/-- A new edge is listed at the parent and counted at the child. -/
theorem appendChildTile_tile (p c u : τ) : (h.appendChildTile p c).tile u = { h.tile u with
    readyCounter := (h.tile u).readyCounter + if u = c then 1 else 0
    childTiles := (h.tile u).childTiles ++ if u = p then [c] else [] } := by
  unfold appendChildTile
  dsimp only
  by_cases hu : u = p
  · subst hu
    by_cases huc : u = c
    · subst huc
      simp
    · simp [setTile_tile_of_ne _ _ huc, huc]
  · rw [setTile_tile_of_ne _ _ hu]
    by_cases huc : u = c
    · subst huc
      simp [hu]
    · simp [setTile_tile_of_ne _ _ huc, huc, hu]

omit [DecidableEq ι] in
/-- New edges are listed at the parents and counted at the children. -/
theorem foldl_appendChildTile_tile (E : List (τ × τ)) (u : τ) :
    (E.foldl (fun h e => h.appendChildTile e.1 e.2) h).tile u = { h.tile u with
      readyCounter := (h.tile u).readyCounter + (parents E u).length
      childTiles := (h.tile u).childTiles ++ children E u } := by
  induction E generalizing h with
  | nil => simp [parents, children]
  | cons e E ih =>
      rw [List.foldl_cons, ih, appendChildTile_tile]
      simp only [length_parents_cons, children_cons, Nat.add_assoc, List.append_assoc]

end PyTorchSim.Model.CoreHeap

namespace PyTorchSim.Analysis

open PyTorchSim.Model PyTorchSim.Library

variable {T : ParserTables} {iter : LoopIter} {node : TileNode} {nodes : List TileNode}
  {b b' : BodyState} {st st' st₀ : ParserState}

/-! ## Nodes that become instructions -/

/-- The number and the children of a node that becomes an instruction. -/
def leaf? : TileNode → Option (ℕ × List ℕ)
  | .load id child _ => some (id, child)
  | .store id child _ => some (id, child)
  | .wait id child _ => some (id, child)
  | .compute id child _ => some (id, child)
  | .loop .. => none

/-- The tables of the parser change, but no object.  Names are only added. -/
structure SameObjects (st st' : ParserState) : Prop where
  heap : st'.heap = st.heap
  nextTile : st'.nextTile = st.nextTile
  nextInst : st'.nextInst = st.nextInst
  iterations : st'.iterations = st.iterations
  addrNames : st.addrNames <+: st'.addrNames

/-- The tables may change further. -/
theorem SameObjects.tables (h : SameObjects st st') {st'' : ParserState}
    (heap : st''.heap = st'.heap := by rfl) (nextTile : st''.nextTile = st'.nextTile := by rfl)
    (nextInst : st''.nextInst = st'.nextInst := by rfl)
    (iterations : st''.iterations = st'.iterations := by rfl)
    (addrNames : st''.addrNames = st'.addrNames := by rfl) : SameObjects st st'' :=
  ⟨heap.trans h.heap, nextTile.trans h.nextTile, nextInst.trans h.nextInst,
    iterations.trans h.iterations, addrNames ▸ h.addrNames⟩

/-- An instruction that was just made. -/
structure NewInst (inst : Instruction ℕ ℕ) : Prop where
  childInst : inst.childInst = []
  readyCounter : inst.readyCounter = 0
  finished : inst.finished = false
  nrWaitingRequest : inst.nrWaitingRequest = 0

/-- A node is dropped, or it becomes an instruction of the current tile. -/
inductive LeafStep (iter : LoopIter) (id : ℕ) (child : List ℕ) (b : BodyState) :
    BodyState → Prop
  | dropped (st : ParserState) : SameObjects b.st st →
      st.record = b.st.record ++ [⟨id, iter, none⟩] → LeafStep iter id child b { b with st := st }
  | appended (st : ParserState) (inst : Instruction ℕ ℕ) : SameObjects b.st st →
      st.record = b.st.record → NewInst inst →
      LeafStep iter id child b ({ b with st := st }.append id child iter inst)

theorem registerAddrName_same (st : ParserState) (name : String) :
    SameObjects st (st.registerAddrName name).1 ∧
      (st.registerAddrName name).1.record = st.record := by
  unfold ParserState.registerAddrName
  split
  · exact ⟨⟨rfl, rfl, rfl, rfl, List.prefix_refl _⟩, rfl⟩
  · exact ⟨⟨rfl, rfl, rfl, rfl, List.prefix_append _ _⟩, rfl⟩

theorem expandLoad_step {id : ℕ} {child : List ℕ} {m : TileMemoryNode}
    (h : expandLoad T id child m iter b = .ok b') : LeafStep iter id child b b' := by
  obtain ⟨hsame, hrecord⟩ := registerAddrName_same b.st m.baseAddrName
  unfold expandLoad at h
  obtain ⟨addr, -, h⟩ := bind_eq_ok.mp h
  obtain ⟨accum, -, h⟩ := bind_eq_ok.mp h
  obtain ⟨tag, -, h⟩ := bind_eq_ok.mp h
  obtain ⟨numa, -, h⟩ := bind_eq_ok.mp h
  obtain ⟨offset, -, h⟩ := bind_eq_ok.mp h
  dsimp only at h
  split at h
  · cases h
    exact .dropped _ hsame.tables (congrArg (· ++ _) hrecord)
  · cases h
    exact .appended _ _ hsame.tables hrecord ⟨rfl, rfl, rfl, rfl⟩

theorem expandStore_step {id : ℕ} {child : List ℕ} {m : TileMemoryNode}
    (h : expandStore T id child m iter b = .ok b') : LeafStep iter id child b b' := by
  obtain ⟨hsame, hrecord⟩ := registerAddrName_same b.st m.baseAddrName
  unfold expandStore at h
  obtain ⟨addr, -, h⟩ := bind_eq_ok.mp h
  obtain ⟨numa, -, h⟩ := bind_eq_ok.mp h
  obtain ⟨offset, -, h⟩ := bind_eq_ok.mp h
  cases h
  exact .appended _ _ hsame.tables hrecord ⟨rfl, rfl, rfl, rfl⟩

theorem expandWait_step {id : ℕ} {child : List ℕ} {m : TileMemoryWaitNode}
    (h : expandWait T id child m iter b = .ok b') : LeafStep iter id child b b' := by
  obtain ⟨hsame, hrecord⟩ := registerAddrName_same b.st m.baseAddrName
  unfold expandWait at h
  obtain ⟨lists, -, h⟩ := bind_eq_ok.mp h
  obtain ⟨offset, -, h⟩ := bind_eq_ok.mp h
  cases h
  exact .appended _ _ hsame hrecord ⟨rfl, rfl, rfl, rfl⟩

/-- **A node is dropped or becomes an instruction.** -/
theorem expandNode_leaf {id : ℕ} {child : List ℕ} (hleaf : leaf? node = some (id, child))
    (h : expandNode T node iter b = .ok b') : LeafStep iter id child b b' := by
  cases node with
  | load _ _ m =>
      cases hleaf
      exact expandLoad_step (by rwa [expandNode] at h)
  | store _ _ m =>
      cases hleaf
      exact expandStore_step (by rwa [expandNode] at h)
  | wait _ _ m =>
      cases hleaf
      exact expandWait_step (by rwa [expandNode] at h)
  | compute _ _ m =>
      cases hleaf
      rw [expandNode] at h
      cases h
      exact .appended b.st _ ⟨rfl, rfl, rfl, rfl, List.prefix_refl _⟩ rfl ⟨rfl, rfl, rfl, rfl⟩
  | loop => cases hleaf

/-! ## The rule for expansions -/

mutual

/-- A property holds of the children lists of all nodes that become instructions. -/
def NodeLeaves (Q : ℕ → List ℕ → Prop) : TileNode → Prop
  | .load id child _ => Q id child
  | .store id child _ => Q id child
  | .wait id child _ => Q id child
  | .compute id child _ => Q id child
  | .loop _ _ _ body => BodyLeaves Q body

/-- The same for the nodes of a body. -/
def BodyLeaves (Q : ℕ → List ℕ → Prop) : List TileNode → Prop
  | [] => True
  | node :: nodes => NodeLeaves Q node ∧ BodyLeaves Q nodes

end

theorem NodeLeaves.leaf {Q : ℕ → List ℕ → Prop} {id : ℕ} {child : List ℕ}
    (h : NodeLeaves Q node) (hleaf : leaf? node = some (id, child)) : Q id child := by
  cases node with
  | loop => cases hleaf
  | _ =>
      cases hleaf
      rwa [NodeLeaves] at h

/-- A property of a body under expansion that started in some state, `I`, and one that holds
while the iterations of a loop are added, `J`. -/
structure ExpansionRule (Q : ℕ → List ℕ → Prop) (I : ParserState → BodyState → Prop)
    (J : ParserState → LoopType → ℕ → Option ℕ → BodyState → Prop) : Prop where
  start : ∀ st, I st (.start st)
  leaf : ∀ st b b' iter id child, Q id child → I st b → LeafStep iter id child b b' → I st b'
  enter : ∀ st b loopType, I st b → J st loopType b.st.nextTile
    (b.enterLoop.st.heap.tile b.enterLoop.back).instructions.getLast? b.enterLoop
  iterate : ∀ st loopType child last b ret, J st loopType child last b → I b.st ret →
    J st loopType child last (b.addIteration loopType child last ret.link)
  exit : ∀ st loopType child last b, J st loopType child last b → I st (b.exitLoop child)

section Rule

variable {Q : ℕ → List ℕ → Prop} {I : ParserState → BodyState → Prop}
  {J : ParserState → LoopType → ℕ → Option ℕ → BodyState → Prop}

mutual

theorem expandNode_rule (hrule : ExpansionRule Q I J) :
    ∀ (node : TileNode), NodeLeaves Q node → ∀ (iter : LoopIter) (st : ParserState)
      (b b' : BodyState), I st b → expandNode T node iter b = .ok b' → I st b'
  | .load _ _ _, hQ, iter, st, b, b', hI, h =>
      hrule.leaf st b b' iter _ _ (hQ.leaf rfl) hI (expandNode_leaf rfl h)
  | .store _ _ _, hQ, iter, st, b, b', hI, h =>
      hrule.leaf st b b' iter _ _ (hQ.leaf rfl) hI (expandNode_leaf rfl h)
  | .wait _ _ _, hQ, iter, st, b, b', hI, h =>
      hrule.leaf st b b' iter _ _ (hQ.leaf rfl) hI (expandNode_leaf rfl h)
  | .compute _ _ _, hQ, iter, st, b, b', hI, h =>
      hrule.leaf st b b' iter _ _ (hQ.leaf rfl) hI (expandNode_leaf rfl h)
  | .loop _ _ header body, hQ, iter, st, b, b', hI, h => by
      rw [NodeLeaves] at hQ
      rw [expandNode] at h
      obtain ⟨values, -, h⟩ := bind_eq_ok.mp h
      obtain ⟨c, hc, h⟩ := bind_eq_ok.mp h
      cases h
      refine hrule.exit st header.loopType _ _ c (foldlM_invariant values hc
        (hrule.enter st b header.loopType hI) fun d value d' _ hJ hd => ?_)
      obtain ⟨ret, hret, hd⟩ := bind_eq_ok.mp hd
      cases hd
      exact hrule.iterate st header.loopType _ _ d ret hJ
        (expandBody_rule hrule body hQ _ d.st _ ret (hrule.start d.st) hret)

/-- **The rule for expansions**: a property that a leaf step and a loop keep holds of every
body that was expanded. -/
theorem expandBody_rule (hrule : ExpansionRule Q I J) :
    ∀ (nodes : List TileNode), BodyLeaves Q nodes → ∀ (iter : LoopIter) (st : ParserState)
      (b b' : BodyState), I st b → expandBody T nodes iter b = .ok b' → I st b'
  | [], _, _, _, _, _, hI, h => by
      rw [expandBody] at h
      cases h
      exact hI
  | node :: nodes, hQ, iter, st, b, b', hI, h => by
      rw [BodyLeaves] at hQ
      rw [expandBody] at h
      obtain ⟨c, hc, h⟩ := bind_eq_ok.mp h
      exact expandBody_rule hrule nodes hQ.2 iter st c b'
        (expandNode_rule hrule node hQ.1 iter st b c hI hc) h

end

end Rule

/-! ## Links -/

/-- The edges between the instructions of the current tile. -/
def linkEdges (m : List LinkEntry) : List (ℕ × ℕ) :=
  m.flatMap fun e => e.child.filterMap fun c => (BodyState.find? m c).map (e.inst, ·)

theorem link_heap (b : BodyState) : b.link.st.heap =
    (linkEdges b.linkMap).foldl (fun h e => h.addChild e.1 e.2) b.st.heap := by
  unfold BodyState.link linkEdges
  rw [List.foldl_flatMap]
  refine List.foldl_ext _ _ _ fun h e _ => ?_
  induction e.child generalizing h with
  | nil => rfl
  | cons c l ih =>
      rw [List.foldl_cons, List.filterMap_cons]
      cases BodyState.find? b.linkMap c with
      | none => exact ih h
      | some j => exact ih _

theorem mem_of_find? {m : List LinkEntry} {c j : ℕ} (h : BodyState.find? m c = some j) :
    j ∈ m.map (·.inst) := by
  unfold BodyState.find? at h
  obtain ⟨e, he, rfl⟩ := Option.map_eq_some_iff.mp h
  exact List.mem_map_of_mem (List.mem_of_find?_eq_some he)

/-- An edge joins two instructions of the current tile. -/
theorem mem_linkEdges {m : List LinkEntry} {e : ℕ × ℕ} (h : e ∈ linkEdges m) :
    e.1 ∈ m.map (·.inst) ∧ e.2 ∈ m.map (·.inst) := by
  obtain ⟨entry, hentry, h⟩ := List.mem_flatMap.mp h
  obtain ⟨c, -, h⟩ := List.mem_filterMap.mp h
  obtain ⟨j, hj, rfl⟩ := Option.map_eq_some_iff.mp h
  exact ⟨List.mem_map_of_mem hentry, mem_of_find? hj⟩

/-! ## Splices -/

/-- What a splice does to tiles and, apart from the instructions it moves and the last one
before the loop, to instructions. -/
theorem splice_frame (back : ℕ) (last : Option ℕ) (l : List ℕ) (h : CoreHeap ℕ ℕ) :
    (∀ t, (splice back last l h).tile t = { h.tile t with
      nrInsts := (h.tile t).nrInsts + if t = back then l.length else 0
      instructions := (h.tile t).instructions ++ if t = back then l else [] }) ∧
    ∀ k, k ∉ l → last ≠ some k → (splice back last l h).inst k = h.inst k := by
  induction l generalizing h with
  | nil => simp [splice]
  | cons i l ih =>
      have hstep : splice back last (i :: l) h = splice back last l (spliceOne back last h i) :=
        rfl
      have htile : ∀ t, (spliceOne back last h i).tile t = { h.tile t with
          nrInsts := (h.tile t).nrInsts + if t = back then 1 else 0
          instructions := (h.tile t).instructions ++ if t = back then [i] else [] } := by
        intro t
        have happend : (h.appendInstruction back i).tile t = { h.tile t with
            nrInsts := (h.tile t).nrInsts + if t = back then 1 else 0
            instructions := (h.tile t).instructions ++ if t = back then [i] else [] } := by
          by_cases ht : t = back
          · subst ht
            simp [Tile.appendInstruction]
          · simp [h.appendInstruction_tile_of_ne i ht, ht]
        cases last <;> exact happend
      rw [hstep]
      refine ⟨fun t => ?_, fun k hk hlast => ?_⟩
      · rw [(ih _).1 t, htile t]
        by_cases ht : t = back
        · simp [ht, Nat.add_assoc, Nat.add_comm]
        · simp [ht]
      · rw [(ih _).2 k (fun hmem => hk (List.mem_cons_of_mem _ hmem)) hlast]
        have hki : k ≠ i := fun heq => hk (heq ▸ List.mem_cons_self)
        cases last with
        | none => exact h.appendInstruction_inst_of_ne back hki
        | some a =>
            have hka : k ≠ a := fun heq => hlast (heq ▸ rfl)
            exact (CoreHeap.addChild_inst_of_ne _ hka hki).trans
              (h.appendInstruction_inst_of_ne back hki)

/-! ## Appended instructions -/

section Append

variable (b) (id : ℕ) (child : List ℕ) (iter : LoopIter) (inst : Instruction ℕ ℕ)

theorem append_tile (t : ℕ) : (b.append id child iter inst).st.heap.tile t =
    { b.st.heap.tile t with
      nrInsts := (b.st.heap.tile t).nrInsts + if t = b.back then 1 else 0
      instructions := (b.st.heap.tile t).instructions ++
        if t = b.back then [b.st.nextInst] else [] } := by
  change ((b.st.heap.setInst b.st.nextInst _).appendInstruction b.back b.st.nextInst).tile t = _
  by_cases ht : t = b.back
  · subst ht
    rw [CoreHeap.appendInstruction_tile_self, CoreHeap.setInst_tile]
    simp [Tile.appendInstruction]
  · rw [CoreHeap.appendInstruction_tile_of_ne _ _ ht, CoreHeap.setInst_tile]
    simp [ht]

theorem append_inst (i : ℕ) : (b.append id child iter inst).st.heap.inst i =
    if i = b.st.nextInst then { inst with id := b.st.nextInst, owner := b.back }
    else b.st.heap.inst i := by
  change ((b.st.heap.setInst b.st.nextInst _).appendInstruction b.back b.st.nextInst).inst i = _
  by_cases hi : i = b.st.nextInst
  · subst hi
    rw [CoreHeap.appendInstruction_inst_self, CoreHeap.setInst_inst_self, if_pos rfl]
  · rw [CoreHeap.appendInstruction_inst_of_ne _ _ hi, CoreHeap.setInst_inst_of_ne _ _ hi,
      if_neg hi]

end Append

/-! ## The objects of an expansion -/

/-- An expansion that started in `st₀` writes to tiles and instructions that it made. -/
structure BodyFrame (st₀ : ParserState) (b : BodyState) : Prop where
  nextTile : st₀.nextTile ≤ b.st.nextTile
  nextInst : st₀.nextInst ≤ b.st.nextInst
  tiles : ∀ t ∈ b.tileVec, st₀.nextTile ≤ t ∧ t < b.st.nextTile
  insts : ∀ t ∈ b.tileVec, ∀ i ∈ (b.st.heap.tile t).instructions,
    st₀.nextInst ≤ i ∧ i < b.st.nextInst
  links : ∀ i ∈ b.linkMap.map (·.inst), i ∈ (b.st.heap.tile b.back).instructions
  tile : ∀ t < st₀.nextTile, b.st.heap.tile t = st₀.heap.tile t
  inst : ∀ i < st₀.nextInst, b.st.heap.inst i = st₀.heap.inst i

/-- The same while the iterations of a loop are added. -/
structure LoopFrame (st₀ : ParserState) (child : ℕ) (last : Option ℕ) (b : BodyState) : Prop
    extends BodyFrame st₀ b where
  child_new : st₀.nextTile ≤ child ∧ child < b.st.nextTile
  child_out : child ∉ b.tileVec
  child_free : (b.st.heap.tile child).instructions = []
  last_new : ∀ l, last = some l → st₀.nextInst ≤ l ∧ l < b.st.nextInst
  back_mem : b.back ∈ b.done
  unlinked : b.linkMap = []

theorem back_mem_tileVec (b : BodyState) : b.back ∈ b.tileVec := by
  simp [BodyState.tileVec]

theorem front_mem_tileVec (b : BodyState) : b.front ∈ b.tileVec := by
  unfold BodyState.front BodyState.tileVec
  cases b.done <;> simp

theorem BodyFrame.link {b : BodyState} (h : BodyFrame st₀ b) : BodyFrame st₀ b.link := by
  have htile : b.link.st.heap.tile = b.st.heap.tile := by
    rw [link_heap, CoreHeap.foldl_addChild_tile]
  refine ⟨h.nextTile, h.nextInst, h.tiles, ?_, ?_, ?_, fun i hi => ?_⟩
  · rw [htile]
    exact h.insts
  · rw [htile]
    exact h.links
  · rw [htile]
    exact h.tile
  · rw [link_heap, CoreHeap.foldl_addChild_inst_of_ne, h.inst i hi]
    intro e he
    obtain ⟨h₁, h₂⟩ := mem_linkEdges he
    have h₁' := (h.insts _ (back_mem_tileVec b) _ (h.links _ h₁)).1
    have h₂' := (h.insts _ (back_mem_tileVec b) _ (h.links _ h₂)).1
    omega

theorem mem_enterLoop {t : ℕ} (b : BodyState) : t ∈ b.enterLoop.tileVec ↔ t ∈ b.tileVec := by
  simp only [BodyState.tileVec, BodyState.enterLoop, BodyState.link, List.mem_append,
    List.mem_singleton]
  exact ⟨fun h => h.elim id .inr, .inl⟩

theorem enterLoop_tile (b : BodyState) (t : ℕ) : b.enterLoop.st.heap.tile t =
    if t = b.st.nextTile then {} else b.st.heap.tile t := by
  change ((b.link.st.heap.setTile b.st.nextTile {}).tile t) = _
  by_cases ht : t = b.st.nextTile
  · subst ht
    rw [CoreHeap.setTile_tile_self, if_pos rfl]
  · rw [CoreHeap.setTile_tile_of_ne _ _ ht, if_neg ht, link_heap, CoreHeap.foldl_addChild_tile]

theorem BodyFrame.enterLoop (h : BodyFrame st₀ b) : BodyFrame st₀ b.enterLoop := by
  have hlink := h.link
  have hle := h.nextTile
  have hold : ∀ t ∈ b.tileVec, b.enterLoop.st.heap.tile t = b.st.heap.tile t := by
    intro t ht
    have hlt := (h.tiles t ht).2
    rw [enterLoop_tile, if_neg (by omega)]
  refine ⟨hle.trans (Nat.le_succ _), h.nextInst, fun t ht => ?_, fun t ht i hi => ?_,
    by simp [BodyState.enterLoop], fun t ht => ?_, hlink.inst⟩
  · have hlt := h.tiles t ((mem_enterLoop b).mp ht)
    exact ⟨hlt.1, hlt.2.trans (Nat.lt_succ_self _)⟩
  · have hmem := (mem_enterLoop b).mp ht
    rw [hold t hmem] at hi
    exact h.insts t hmem i hi
  · rw [enterLoop_tile, if_neg (by omega), h.tile t ht]

/-- The iterations of a loop before the first one. -/
theorem BodyFrame.loopFrame (h : BodyFrame st₀ b) : LoopFrame st₀ b.st.nextTile
    (b.enterLoop.st.heap.tile b.enterLoop.back).instructions.getLast? b.enterLoop := by
  have henter := h.enterLoop
  refine ⟨henter, ⟨h.nextTile, Nat.lt_succ_self _⟩, fun hmem => ?_, ?_, fun l hl => ?_, ?_, rfl⟩
  · exact Nat.lt_irrefl _ (h.tiles _ ((mem_enterLoop b).mp hmem)).2
  · rw [enterLoop_tile, if_pos rfl]
  · exact henter.insts _ (back_mem_tileVec _) l (List.mem_of_getLast? hl)
  · exact List.mem_append_right _ (List.mem_singleton_self _)

/-- **An expansion writes only to objects that it made.** -/
theorem bodyFrame_rule : ExpansionRule (fun _ _ => True) BodyFrame
    fun st₀ _ child last b => LoopFrame st₀ child last b where
  start st := by
    refine ⟨Nat.le_succ _, le_refl _, ?_, ?_, by simp [BodyState.start], ?_, fun _ _ => rfl⟩
    · intro t ht
      have heq : t = st.nextTile := by
        simpa [BodyState.tileVec, BodyState.start, ParserState.newTile] using ht
      subst heq
      exact ⟨le_refl _, Nat.lt_succ_self _⟩
    · intro t ht i hi
      have heq : t = st.nextTile := by
        simpa [BodyState.tileVec, BodyState.start, ParserState.newTile] using ht
      subst heq
      simp [BodyState.start, ParserState.newTile] at hi
    · intro t ht
      exact CoreHeap.setTile_tile_of_ne _ _ (Nat.ne_of_lt ht)
  leaf st b b' iter id child _ hI hstep := by
    cases hstep with
    | dropped st' hsame hrecord =>
        obtain ⟨hheap, htile, hinst, -⟩ := hsame
        refine ⟨?_, ?_, ?_, ?_, ?_, ?_, ?_⟩ <;> simp only [hheap, htile, hinst]
        · exact hI.nextTile
        · exact hI.nextInst
        · exact hI.tiles
        · exact hI.insts
        · exact hI.links
        · exact hI.tile
        · exact hI.inst
    | appended st' inst hsame hrecord hnew =>
        obtain ⟨hheap, htile, hinst, -⟩ := hsame
        have hle := hI.nextInst
        refine ⟨?_, ?_, fun t ht => ?_, fun t ht i hi => ?_, fun i hi => ?_, fun t ht => ?_,
          fun i hi => ?_⟩
        · exact htile.symm ▸ hI.nextTile
        · exact (hinst.symm ▸ hle).trans (Nat.le_succ _)
        · exact htile.symm ▸ hI.tiles t ht
        · rw [append_tile] at hi
          change st.nextInst ≤ i ∧ i < st'.nextInst + 1
          simp only [hheap, hinst, List.mem_append] at hi ⊢
          rcases hi with hi | hi
          · have hold := hI.insts t ht i hi
            omega
          · split at hi
            · rw [List.mem_singleton] at hi
              omega
            · exact absurd hi List.not_mem_nil
        · rw [append_tile]
          change i ∈ (b.linkMap ++ [LinkEntry.mk id child st'.nextInst]).map (·.inst) at hi
          change i ∈ (st'.heap.tile b.back).instructions ++
            if b.back = b.back then [st'.nextInst] else []
          rw [List.map_append, List.mem_append] at hi
          rw [if_pos rfl, hheap, List.mem_append]
          exact hi.imp (hI.links i) fun h => h
        · have hback := (hI.tiles _ (back_mem_tileVec b)).1
          have hne : t ≠ b.back := by omega
          rw [append_tile]
          simp [hne, hheap, hI.tile t ht]
        · rw [append_inst, if_neg (by simp only [hinst]; omega)]
          exact (congrArg (·.inst i) hheap).trans (hI.inst i hi)
  enter st b loopType hI := hI.loopFrame
  iterate st loopType child last b ret hJ hret := by
    have hlink := hret.link
    have htile₀ := hJ.nextTile
    have hinst₀ := hJ.nextInst
    have hchild := hJ.child_new
    have hkeep : ∀ t ∈ b.tileVec, ret.link.st.heap.tile t = b.st.heap.tile t :=
      fun t ht => hlink.tile t (hJ.tiles t ht).2
    unfold BodyState.addIteration
    by_cases hinner : loopType = .innerLoop
    · rw [if_pos hinner]
      obtain ⟨hsplice, hother⟩ := splice_frame b.back last
        (ret.link.tileVec.flatMap fun t => (ret.link.st.heap.tile t).instructions) ret.link.st.heap
      have hmoved : ∀ i ∈ ret.link.tileVec.flatMap fun t => (ret.link.st.heap.tile t).instructions,
          b.st.nextInst ≤ i ∧ i < ret.link.st.nextInst := by
        intro i hi
        obtain ⟨t, ht, hi⟩ := List.mem_flatMap.mp hi
        exact hlink.insts t ht i hi
      have hnext := hlink.nextInst
      refine ⟨⟨htile₀.trans hlink.nextTile, hinst₀.trans hlink.nextInst, fun t ht => ?_,
        fun t ht i hi => ?_, ?_, fun t ht => ?_, fun i hi => ?_⟩,
        ⟨hchild.1, hchild.2.trans_le hlink.nextTile⟩, hJ.child_out, ?_, fun l hl => ?_,
        hJ.back_mem, hJ.unlinked⟩
      · exact ⟨(hJ.tiles t ht).1, (hJ.tiles t ht).2.trans_le hlink.nextTile⟩
      · change st.nextInst ≤ i ∧ i < ret.link.st.nextInst
        simp only [hsplice, List.mem_append] at hi
        rcases hi with hi | hi
        · rw [hkeep t ht] at hi
          have hold := hJ.insts t ht i hi
          omega
        · split at hi
          · have hold := hmoved i hi
            omega
          · exact absurd hi List.not_mem_nil
      · change ∀ i ∈ b.linkMap.map (·.inst), _
        simp [hJ.unlinked]
      · have hback := (hJ.tiles _ (back_mem_tileVec b)).1
        have hne : t ≠ b.back := by omega
        rw [hsplice]
        simp [hne, hlink.tile t (by omega), hJ.tile t ht]
      · rw [hother i, hlink.inst i (by omega), hJ.inst i hi]
        · exact fun hmem => absurd (hmoved i hmem).1 (by omega)
        · exact fun hl => absurd (hJ.last_new i hl).1 (by omega)
      · have hne : child ≠ b.back := fun heq => hJ.child_out (heq ▸ back_mem_tileVec b)
        rw [hsplice]
        simp [hne, hlink.tile child hchild.2, hJ.child_free]
      · have hold := hJ.last_new l hl
        exact ⟨hold.1, hold.2.trans_le hnext⟩
    · rw [if_neg hinner]
      have hmem : ∀ t, t ∈ (b.done ++ ret.link.tileVec) ++ [b.back] →
          t ∈ b.tileVec ∨ t ∈ ret.link.tileVec := by
        intro t ht
        simp only [BodyState.tileVec, List.mem_append] at ht ⊢
        tauto
      have hinsts : ∀ t, (((ret.link.st.heap.appendChildTile b.back ret.link.front).appendChildTile
          ret.link.back child).tile t).instructions =
            (ret.link.st.heap.tile t).instructions := by
        intro t
        rw [CoreHeap.appendChildTile_tile, CoreHeap.appendChildTile_tile]
      have hfront : ret.link.front ∈ ret.link.tileVec := front_mem_tileVec _
      have hnext := hlink.nextInst
      refine ⟨⟨htile₀.trans hlink.nextTile, hinst₀.trans hnext, fun t ht => ?_,
        fun t ht i hi => ?_, ?_, fun t ht => ?_, fun i hi => ?_⟩,
        ⟨hchild.1, hchild.2.trans_le hlink.nextTile⟩, fun hout => ?_, ?_, fun l hl => ?_,
        List.mem_append_left _ hJ.back_mem, hJ.unlinked⟩
      · rcases hmem t ht with ht | ht
        · exact ⟨(hJ.tiles t ht).1, (hJ.tiles t ht).2.trans_le hlink.nextTile⟩
        · exact ⟨htile₀.trans (hlink.tiles t ht).1, (hlink.tiles t ht).2⟩
      · rw [hinsts] at hi
        rcases hmem t ht with ht | ht
        · rw [hkeep t ht] at hi
          have hold := hJ.insts t ht i hi
          exact ⟨hold.1, hold.2.trans_le hnext⟩
        · have hold := hlink.insts t ht i hi
          exact ⟨hinst₀.trans hold.1, hold.2⟩
      · change ∀ i ∈ b.linkMap.map (·.inst), _
        simp [hJ.unlinked]
      · have hback := (hJ.tiles _ (back_mem_tileVec b)).1
        have hrfront := (hlink.tiles _ hfront).1
        have hrback := (hlink.tiles _ (back_mem_tileVec _)).1
        have h₁ : t ≠ b.back := by omega
        have h₂ : t ≠ ret.link.front := by omega
        have h₃ : t ≠ ret.link.back := by omega
        have h₄ : t ≠ child := by omega
        rw [CoreHeap.appendChildTile_tile, CoreHeap.appendChildTile_tile]
        simp [h₁, h₂, h₃, h₄, hlink.tile t (by omega), hJ.tile t ht]
      · exact (hlink.inst i (by omega)).trans (hJ.inst i hi)
      · rcases hmem child hout with hout | hout
        · exact hJ.child_out hout
        · exact absurd (hlink.tiles child hout).1 (by omega)
      · rw [hinsts, hlink.tile child hchild.2]
        exact hJ.child_free
      · have hold := hJ.last_new l hl
        exact ⟨hold.1, hold.2.trans_le hnext⟩
  exit st loopType child last b hJ := by
    have hchild := hJ.child_new
    have hmem : ∀ t, t ∈ b.done ++ [child] → t ∈ b.tileVec ∨ t = child := by
      intro t ht
      simp only [BodyState.tileVec, List.mem_append, List.mem_singleton] at ht ⊢
      tauto
    have hinsts : ∀ t, ((b.st.heap.appendChildTile b.back child).tile t).instructions =
        (b.st.heap.tile t).instructions := by
      intro t
      rw [CoreHeap.appendChildTile_tile]
    refine ⟨hJ.nextTile, hJ.nextInst, fun t ht => ?_, fun t ht i hi => ?_, ?_, fun t ht => ?_,
      hJ.inst⟩
    · rcases hmem t ht with ht | rfl
      · exact hJ.tiles t ht
      · exact hchild
    · rw [BodyState.exitLoop, hinsts] at hi
      rcases hmem t ht with ht | rfl
      · exact hJ.insts t ht i hi
      · rw [hJ.child_free] at hi
        exact absurd hi List.not_mem_nil
    · change ∀ i ∈ b.linkMap.map (·.inst), _
      simp [hJ.unlinked]
    · have hback := (hJ.tiles _ (back_mem_tileVec b)).1
      have h₁ : t ≠ b.back := by omega
      have h₂ : t ≠ child := by omega
      rw [BodyState.exitLoop, CoreHeap.appendChildTile_tile]
      simp [h₁, h₂, hJ.tile t ht]

/-- What is proved of every body holds of a call of `get_tiles_from_iter`. -/
theorem getTilesFromIter_rule {Q : ℕ → List ℕ → Prop} {I : ParserState → BodyState → Prop}
    {J : ParserState → LoopType → ℕ → Option ℕ → BodyState → Prop} (hrule : ExpansionRule Q I J)
    (hQ : BodyLeaves Q nodes) {tiles : List ℕ}
    (h : getTilesFromIter T nodes iter st = .ok (st', tiles)) :
    ∃ b : BodyState, I st b ∧ st' = b.link.st ∧ tiles = b.tileVec := by
  unfold getTilesFromIter at h
  obtain ⟨b, hb, h⟩ := bind_eq_ok.mp h
  cases h
  exact ⟨b, expandBody_rule hrule nodes hQ iter st _ b (hrule.start st) hb, rfl, rfl⟩

end PyTorchSim.Analysis
