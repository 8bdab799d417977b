import PyTorchSim.Analysis.TileExpansion

/-!
# The shape of an expansion

The tiles of an expansion have one source and one sink, the front and the back of the list,
and the ready counter of a tile is the number of its parents.  An inner loop only moves
instructions; the tiles of any other loop are inserted between the tile before the loop and
the tile behind it.
-/

set_option autoImplicit false

namespace PyTorchSim.Analysis

open PyTorchSim.Model PyTorchSim.Library

variable {T : ParserTables} {iter : LoopIter} {nodes : List TileNode} {b ret : BodyState}
  {st st' st₀ : ParserState} {child : ℕ} {last : Option ℕ} {loopType : LoopType}

/-- The tiles of a body under expansion. -/
structure BodyShape (b : BodyState) : Prop where
  counted : Counted b.tileVec (fun t => (b.st.heap.tile t).childTiles)
    fun t => (b.st.heap.tile t).readyCounter
  terminal : TwoTerminal b.tileVec (fun t => (b.st.heap.tile t).childTiles) b.front b.back

/-- The tiles while the iterations of a loop are added. -/
structure LoopShape (child : ℕ) (b : BodyState) : Prop where
  counted : Counted (child :: b.done) (fun t => (b.st.heap.tile t).childTiles)
    fun t => (b.st.heap.tile t).readyCounter
  growing : Growing (child :: b.done) (fun t => (b.st.heap.tile t).childTiles) b.front b.back child

/-- The edges and counters of tiles are the same. -/
theorem BodyShape.congr {b' : BodyState} (h : BodyShape b) (hdone : b'.done = b.done)
    (hback : b'.back = b.back)
    (htile : ∀ t ∈ b.tileVec, (b'.st.heap.tile t).childTiles = (b.st.heap.tile t).childTiles ∧
      (b'.st.heap.tile t).readyCounter = (b.st.heap.tile t).readyCounter) : BodyShape b' := by
  have hvec : b'.tileVec = b.tileVec := by
    unfold BodyState.tileVec
    rw [hdone, hback]
  have hfront : b'.front = b.front := by
    unfold BodyState.front
    rw [hdone, hback]
  refine ⟨?_, ?_⟩
  · rw [hvec]
    exact h.counted.congr (fun t ht => (htile t ht).1) fun t ht => (htile t ht).2
  · rw [hvec, hfront, hback]
    exact h.terminal.congr fun t ht => (htile t ht).1

theorem BodyShape.link (h : BodyShape b) : BodyShape b.link := by
  have htile : b.link.st.heap.tile = b.st.heap.tile := by
    rw [link_heap, CoreHeap.foldl_addChild_tile]
  refine h.congr rfl rfl fun t _ => ?_
  rw [htile]
  exact ⟨rfl, rfl⟩

/-- The tile behind a loop is put next to the tiles before it. -/
theorem BodyShape.enterLoop (h : BodyShape b) (hf : BodyFrame st₀ b) :
    LoopShape b.st.nextTile b.enterLoop := by
  have hnew : b.st.nextTile ∉ b.tileVec := fun hmem => Nat.lt_irrefl _ (hf.tiles _ hmem).2
  have hold : ∀ t ∈ b.tileVec, b.enterLoop.st.heap.tile t = b.st.heap.tile t := by
    intro t ht
    have hlt := (hf.tiles t ht).2
    rw [enterLoop_tile, if_neg (by omega)]
  have hchild : b.enterLoop.st.heap.tile b.st.nextTile = {} := by
    rw [enterLoop_tile, if_pos rfl]
  have hcounted : Counted b.tileVec (fun t => (b.enterLoop.st.heap.tile t).childTiles)
      fun t => (b.enterLoop.st.heap.tile t).readyCounter :=
    h.counted.congr (fun t ht => by rw [hold t ht]) fun t ht => by rw [hold t ht]
  have hterminal : TwoTerminal b.tileVec (fun t => (b.enterLoop.st.heap.tile t).childTiles)
      b.front b.back := h.terminal.congr fun t ht => by rw [hold t ht]
  have hfront : b.enterLoop.front = b.front := by
    unfold BodyState.front BodyState.enterLoop
    cases hdone : b.done <;> simp [BodyState.link, hdone]
  refine ⟨?_, ?_⟩
  · refine Counted.append (Counted.single ?_ ?_) hcounted ?_
    · rw [hchild]
    · rw [hchild]
    · intro t ht ht'
      have hmem : t ∈ b.tileVec := ht'
      rw [List.mem_singleton.mp ht] at hmem
      exact hnew hmem
  · rw [hfront]
    exact hterminal.growing hcounted hnew (by rw [hchild])

/-- The tiles of an inner loop are dropped. -/
theorem LoopShape.addInner (h : LoopShape child b) (hf : LoopFrame st₀ child last b)
    (hret : BodyFrame b.st ret) : LoopShape child (b.addIteration .innerLoop child last ret) := by
  have htile : ∀ t ∈ child :: b.done,
      ((b.addIteration .innerLoop child last ret).st.heap.tile t).childTiles =
          (b.st.heap.tile t).childTiles ∧
        ((b.addIteration .innerLoop child last ret).st.heap.tile t).readyCounter =
          (b.st.heap.tile t).readyCounter := by
    intro t ht
    have hlt : t < b.st.nextTile := by
      rcases List.mem_cons.mp ht with rfl | ht
      · exact hf.child_new.2
      · exact (hf.tiles t (List.mem_append_left _ ht)).2
    have hsplice := (splice_frame b.back last
      (ret.tileVec.flatMap fun t => (ret.st.heap.tile t).instructions) ret.st.heap).1 t
    change ((splice b.back last _ ret.st.heap).tile t).childTiles = _ ∧
      ((splice b.back last _ ret.st.heap).tile t).readyCounter = _
    rw [hsplice, hret.tile t hlt]
    exact ⟨rfl, rfl⟩
  exact ⟨h.counted.congr (fun t ht => (htile t ht).1) fun t ht => (htile t ht).2,
    h.growing.congr fun t ht => (htile t ht).1⟩

/-- **The tiles of an iteration are inserted** between the tile before the loop and the tile
behind it. -/
theorem LoopShape.addOuter (h : LoopShape child b) (hf : LoopFrame st₀ child last b)
    (hret : BodyFrame b.st ret) (hshape : BodyShape ret) (hne : loopType ≠ .innerLoop) :
    LoopShape child (b.addIteration loopType child last ret) := by
  have hlt : ∀ t ∈ child :: b.done, t < b.st.nextTile := by
    intro t ht
    rcases List.mem_cons.mp ht with rfl | ht
    · exact hf.child_new.2
    · exact (hf.tiles t (List.mem_append_left _ ht)).2
  have hdisj : (child :: b.done).Disjoint ret.tileVec := by
    intro t ht ht'
    have hge := (hret.tiles t ht').1
    have hless := hlt t ht
    omega
  have hkeep : ∀ t ∈ child :: b.done, ret.st.heap.tile t = b.st.heap.tile t :=
    fun t ht => hret.tile t (hlt t ht)
  have hb : b.back ∈ child :: b.done := List.mem_cons_of_mem _ hf.back_mem
  have hfront : ret.front ∈ ret.tileVec := front_mem_tileVec ret
  have hback : ret.back ∈ ret.tileVec := back_mem_tileVec ret
  have hE : ([(b.back, ret.front), (ret.back, child)] : List (ℕ × ℕ)).Nodup := by
    rw [List.nodup_cons]
    refine ⟨fun hmem => ?_, List.nodup_singleton _⟩
    rw [List.mem_singleton, Prod.mk.injEq] at hmem
    exact hdisj hb (hmem.1 ▸ hback)
  have heq : b.addIteration loopType child last ret = { b with
      st := { ret.st with
        heap := (ret.st.heap.appendChildTile b.back ret.front).appendChildTile ret.back child
        iterations := ret.st.iterations ++ [⟨ret.tileVec, child⟩] }
      done := b.done ++ ret.tileVec } := if_neg hne
  have hheap : (b.addIteration loopType child last ret).st.heap =
      [(b.back, ret.front), (ret.back, child)].foldl (fun h e => h.appendChildTile e.1 e.2)
        ret.st.heap := by
    rw [heq]
    rfl
  have hchildren : ∀ t, ((b.addIteration loopType child last ret).st.heap.tile t).childTiles =
      (ret.st.heap.tile t).childTiles ++
        children [(b.back, ret.front), (ret.back, child)] t := by
    intro t
    rw [hheap, CoreHeap.foldl_appendChildTile_tile]
  have hcounter : ∀ t, ((b.addIteration loopType child last ret).st.heap.tile t).readyCounter =
      (ret.st.heap.tile t).readyCounter +
        (parents [(b.back, ret.front), (ret.back, child)] t).length := by
    intro t
    rw [hheap, CoreHeap.foldl_appendChildTile_tile]
  have hcounted : Counted (child :: b.done ++ ret.tileVec)
      (fun t => (ret.st.heap.tile t).childTiles) fun t => (ret.st.heap.tile t).readyCounter := by
    refine Counted.append (h.counted.congr ?_ ?_) hshape.counted hdisj
    · exact fun t ht => by rw [hkeep t ht]
    · exact fun t ht => by rw [hkeep t ht]
  have hgrowing : Growing (child :: b.done) (fun t => (ret.st.heap.tile t).childTiles)
      b.front b.back child := h.growing.congr fun t ht => by rw [hkeep t ht]
  have hfront' : (b.addIteration loopType child last ret).front = b.front := by
    rw [heq]
    unfold BodyState.front
    cases hdone : b.done with
    | nil =>
        have hmem := hf.back_mem
        rw [hdone] at hmem
        exact absurd hmem List.not_mem_nil
    | cons t rest => rfl
  have hdone : child :: (b.addIteration loopType child last ret).done =
      child :: b.done ++ ret.tileVec := by
    rw [heq]
    rfl
  refine ⟨?_, ?_⟩
  · rw [hdone]
    refine hcounted.addEdges hE ?_ ?_ (fun t _ => hchildren t) fun t _ => hcounter t
    · intro e he
      simp only [List.mem_cons, List.not_mem_nil, or_false] at he
      rcases he with rfl | rfl
      · exact ⟨List.mem_append_left _ hb, List.mem_append_right _ hfront⟩
      · exact ⟨List.mem_append_right _ hback, List.mem_append_left _ List.mem_cons_self⟩
    · intro e he
      simp only [List.mem_cons, List.not_mem_nil, or_false] at he
      rcases he with rfl | rfl
      · intro hmem
        rw [hkeep b.back hb] at hmem
        exact hdisj (h.counted.child_mem b.back hb _ hmem) hfront
      · intro hmem
        exact hdisj List.mem_cons_self (hshape.counted.child_mem _ hback _ hmem)
  · rw [hdone, hfront']
    have hbk : (b.addIteration loopType child last ret).back = b.back := by rw [heq]
    rw [hbk]
    exact hgrowing.insert hshape.terminal hshape.counted hdisj fun t _ => hchildren t

/-- The tile behind the loop is joined to the tile before it. -/
theorem LoopShape.exitLoop (h : LoopShape child b) (hf : LoopFrame st₀ child last b) :
    BodyShape (b.exitLoop child) := by
  have hheap : (b.exitLoop child).st.heap =
      [(b.back, child)].foldl (fun h e => h.appendChildTile e.1 e.2) b.st.heap := rfl
  have hchildren : ∀ t, ((b.exitLoop child).st.heap.tile t).childTiles =
      (b.st.heap.tile t).childTiles ++ children [(b.back, child)] t := by
    intro t
    rw [hheap, CoreHeap.foldl_appendChildTile_tile]
  have hcounter : ∀ t, ((b.exitLoop child).st.heap.tile t).readyCounter =
      (b.st.heap.tile t).readyCounter + (parents [(b.back, child)] t).length := by
    intro t
    rw [hheap, CoreHeap.foldl_appendChildTile_tile]
  have hperm : (b.exitLoop child).tileVec.Perm (child :: b.done) :=
    List.perm_append_singleton child b.done
  have hfront : (b.exitLoop child).front = b.front := by
    unfold BodyState.front BodyState.exitLoop
    cases hdone : b.done with
    | nil =>
        have hmem := hf.back_mem
        rw [hdone] at hmem
        exact absurd hmem List.not_mem_nil
    | cons t rest => rfl
  have hb : b.back ∈ child :: b.done := List.mem_cons_of_mem _ hf.back_mem
  refine ⟨Counted.perm ?_ hperm, TwoTerminal.perm ?_ hperm⟩
  · refine h.counted.addEdges (List.nodup_singleton _) ?_ ?_ (fun t _ => hchildren t)
      fun t _ => hcounter t
    · intro e he
      rw [List.mem_singleton.mp he]
      exact ⟨hb, List.mem_cons_self⟩
    · intro e he
      rw [List.mem_singleton.mp he]
      exact h.growing.unjoined
  · rw [hfront]
    exact h.growing.close fun t _ => hchildren t

/-- **Every body keeps its shape.** -/
theorem bodyShape_rule : ExpansionRule (fun _ _ => True)
    (fun st b => BodyFrame st b ∧ BodyShape b)
    fun st _ child last b => LoopFrame st child last b ∧ LoopShape child b where
  start st := by
    refine ⟨bodyFrame_rule.start st, ?_, ?_⟩
    · refine Counted.single ?_ ?_ <;> simp [BodyState.start, ParserState.newTile]
    · refine TwoTerminal.single ?_
      simp [BodyState.start, ParserState.newTile]
  leaf st b b' iter id child hQ hI hstep := by
    refine ⟨bodyFrame_rule.leaf st b b' iter id child hQ hI.1 hstep, ?_⟩
    cases hstep with
    | dropped st' hsame hrecord =>
        refine hI.2.congr rfl rfl fun t _ => ?_
        simp only [hsame.heap, and_self]
    | appended st' inst hsame hrecord hnew =>
        refine hI.2.congr rfl rfl fun t _ => ?_
        rw [append_tile]
        simp only [hsame.heap, and_self]
  enter st b loopType hI := ⟨bodyFrame_rule.enter st b loopType hI.1, hI.2.enterLoop hI.1⟩
  iterate st loopType child last b ret hJ hret := by
    refine ⟨bodyFrame_rule.iterate st loopType child last b ret hJ.1 hret.1, ?_⟩
    by_cases hinner : loopType = .innerLoop
    · subst hinner
      exact hJ.2.addInner hJ.1 hret.1.link
    · exact hJ.2.addOuter hJ.1 hret.1.link hret.2.link hinner
  exit st loopType child last b hJ :=
    ⟨bodyFrame_rule.exit st loopType child last b hJ.1, hJ.2.exitLoop hJ.1⟩

mutual

theorem nodeLeaves_true : ∀ node : TileNode, NodeLeaves (fun _ _ => True) node
  | .load _ _ _ | .store _ _ _ | .wait _ _ _ | .compute _ _ _ => by
      rw [NodeLeaves]
      trivial
  | .loop _ _ _ body => by
      rw [NodeLeaves]
      exact bodyLeaves_true body

theorem bodyLeaves_true : ∀ nodes : List TileNode, BodyLeaves (fun _ _ => True) nodes
  | [] => by
      rw [BodyLeaves]
      trivial
  | node :: nodes => by
      rw [BodyLeaves]
      exact ⟨nodeLeaves_true node, bodyLeaves_true nodes⟩

end

end PyTorchSim.Analysis
