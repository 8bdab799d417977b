import PyTorchSim.Analysis.DependencyCounters
import PyTorchSim.Analysis.DispatchInvariant

/-!
# The order of the tiles of a loop

From each tile of an iteration a path of dependency edges leads to the tile behind the loop.  A
tile whose ready counter is 0 has parents that are finished, these were handed out, and so on: it is
released only after all tiles from which a path leads to it have finished.
-/

set_option autoImplicit false

namespace PyTorchSim.Analysis

open PyTorchSim.Model PyTorchSim.Library

variable {T : ParserTables} {iter : LoopIter} {nodes : List TileNode} {b ret : BodyState}
  {st st' st₀ : ParserState} {child : ℕ} {last : Option ℕ} {loopType : LoopType} {L R : List ℕ}

/-- The children of a tile. -/
def childrenOf (st : ParserState) (t : ℕ) : List ℕ := (st.heap.tile t).childTiles

/-! ## Iterations -/

/-- A path leads from each tile of an iteration to the tile behind the loop. -/
def Precedes (L : List ℕ) (st : ParserState) (it : Iteration) : Prop :=
  ∀ t ∈ it.tiles, t ≠ it.next ∧ PathIn L (childrenOf st) t it.next

/-- What was recorded since `st₀` is in order, as far as the tile behind the loop is in the list. -/
def IterationsOrdered (st₀ : ParserState) (L : List ℕ) (st : ParserState) : Prop :=
  ∃ new, st.iterations = st₀.iterations ++ new ∧
    ∀ it ∈ new, st₀.nextTile ≤ it.next ∧ it.next < st.nextTile ∧ (it.next ∈ L → Precedes L st it)

theorem Precedes.mono {it : Iteration} (h : Precedes L st it) (hL : L ⊆ R)
    (hchild : ∀ t ∈ L, childrenOf st t ⊆ childrenOf st' t) : Precedes R st' it := by
  intro t ht
  obtain ⟨hne, hpath⟩ := h t ht
  exact ⟨hne, hpath.mono hL hchild⟩

/-- Tiles that are newer than those of the record are added, and edges. -/
theorem IterationsOrdered.mono (h : IterationsOrdered st₀ L st)
    (hiter : st'.iterations = st.iterations) (hnext : st.nextTile ≤ st'.nextTile) (hL : L ⊆ R)
    (hold : ∀ t ∈ R, t < st.nextTile → t ∈ L)
    (hchild : ∀ t ∈ L, childrenOf st t ⊆ childrenOf st' t) : IterationsOrdered st₀ R st' := by
  obtain ⟨new, hnew, hits⟩ := h
  refine ⟨new, hiter.trans hnew, fun it hit => ?_⟩
  obtain ⟨hge, hlt, hpath⟩ := hits it hit
  refine ⟨hge, Nat.lt_of_lt_of_le hlt hnext, fun hmem => ?_⟩
  exact (hpath (hold _ hmem hlt)).mono hL hchild

theorem childrenOf_link (b : BodyState) : childrenOf b.link.st = childrenOf b.st := by
  unfold childrenOf
  rw [link_heap, CoreHeap.foldl_addChild_tile]

/-- The tiles of an inner loop are in no list. -/
theorem IterationsOrdered.addInner (h : IterationsOrdered st₀ (child :: b.done) b.st)
    (hf : LoopFrame st₀ child last b) (hret : BodyFrame b.st ret)
    (hshape : IterationsOrdered b.st ret.tileVec ret.st) :
    IterationsOrdered st₀ (child :: b.done) (b.addIteration .innerLoop child last ret).st := by
  obtain ⟨new, hnew, hits⟩ := h
  obtain ⟨new', hnew', hits'⟩ := hshape
  have hlt : ∀ t ∈ child :: b.done, t < b.st.nextTile := by
    intro t ht
    rcases List.mem_cons.mp ht with rfl | ht
    · exact hf.child_new.2
    · exact (hf.tiles t (List.mem_append_left _ ht)).2
  have htile : ∀ t ∈ child :: b.done,
      childrenOf (b.addIteration .innerLoop child last ret).st t = childrenOf b.st t := by
    intro t ht
    have hsplice := (splice_frame b.back last
      (ret.tileVec.flatMap fun t => (ret.st.heap.tile t).instructions) ret.st.heap).1 t
    change ((splice b.back last _ ret.st.heap).tile t).childTiles = _
    rw [hsplice, hret.tile t (hlt t ht)]
    rfl
  refine ⟨new ++ new', ?_, fun it hit => ?_⟩
  · rw [← List.append_assoc, ← hnew]
    exact hnew'
  · rcases List.mem_append.mp hit with hit | hit
    · obtain ⟨hge, hless, hpath⟩ := hits it hit
      refine ⟨hge, Nat.lt_of_lt_of_le hless hret.nextTile, fun hmem => ?_⟩
      refine (hpath hmem).mono (List.Subset.refl _) fun t ht => ?_
      rw [htile t ht]
      exact List.Subset.refl _
    · obtain ⟨hge, hless, -⟩ := hits' it hit
      refine ⟨hf.nextTile.trans hge, hless, fun hmem => ?_⟩
      exact absurd (hlt _ hmem) (Nat.not_lt.mpr hge)

/-- **The tiles of an iteration come before the tile behind the loop.** -/
theorem IterationsOrdered.addOuter (h : IterationsOrdered st₀ (child :: b.done) b.st)
    (hf : LoopFrame st₀ child last b) (hret : BodyFrame b.st ret) (hterminal : BodyShape ret)
    (hshape : IterationsOrdered b.st ret.tileVec ret.st) (hne : loopType ≠ .innerLoop) :
    IterationsOrdered st₀ (child :: (b.addIteration loopType child last ret).done)
      (b.addIteration loopType child last ret).st := by
  obtain ⟨new, hnew, hits⟩ := h
  obtain ⟨new', hnew', hits'⟩ := hshape
  have hlt : ∀ t ∈ child :: b.done, t < b.st.nextTile := by
    intro t ht
    rcases List.mem_cons.mp ht with rfl | ht
    · exact hf.child_new.2
    · exact (hf.tiles t (List.mem_append_left _ ht)).2
  have heq : b.addIteration loopType child last ret = { b with
      st := { ret.st with
        heap := (ret.st.heap.appendChildTile b.back ret.front).appendChildTile ret.back child
        iterations := ret.st.iterations ++ [⟨ret.tileVec, child⟩] }
      done := b.done ++ ret.tileVec } := if_neg hne
  rw [heq]
  dsimp only
  set st' : ParserState := { ret.st with
    heap := (ret.st.heap.appendChildTile b.back ret.front).appendChildTile ret.back child
    iterations := ret.st.iterations ++ [⟨ret.tileVec, child⟩] } with hst'
  have hchildren : ∀ t, childrenOf st' t = childrenOf ret.st t ++
      children [(b.back, ret.front), (ret.back, child)] t := by
    intro t
    have hheap : st'.heap = [(b.back, ret.front), (ret.back, child)].foldl
        (fun h e => h.appendChildTile e.1 e.2) ret.st.heap := rfl
    unfold childrenOf
    rw [hheap, CoreHeap.foldl_appendChildTile_tile]
  have hgrow : ∀ t, childrenOf ret.st t ⊆ childrenOf st' t := by
    intro t
    rw [hchildren]
    exact List.subset_append_left _ _
  have hkeep : ∀ t ∈ child :: b.done, childrenOf b.st t ⊆ childrenOf st' t := by
    intro t ht
    have hold : childrenOf ret.st t = childrenOf b.st t := by
      unfold childrenOf
      rw [hret.tile t (hlt t ht)]
    rw [← hold]
    exact hgrow t
  have hleft : child :: b.done ⊆ child :: (b.done ++ ret.tileVec) := by
    rw [← List.cons_append]
    exact List.subset_append_left _ _
  have hright : ret.tileVec ⊆ child :: (b.done ++ ret.tileVec) := by
    rw [← List.cons_append]
    exact List.subset_append_right _ _
  -- the last edge of the path
  have hedge : EdgeIn (child :: (b.done ++ ret.tileVec)) (childrenOf st') ret.back child := by
    refine ⟨hright (back_mem_tileVec ret), ?_⟩
    rw [hchildren, List.mem_append, mem_children]
    exact .inr (List.mem_cons_of_mem _ List.mem_cons_self)
  refine ⟨new ++ new' ++ [⟨ret.tileVec, child⟩], ?_, fun it hit => ?_⟩
  · change ret.st.iterations ++ _ = _
    rw [hnew', hnew]
    simp only [List.append_assoc]
  · rcases List.mem_append.mp hit with hit | hit
    · rcases List.mem_append.mp hit with hit | hit
      · obtain ⟨hge, hless, hpath⟩ := hits it hit
        refine ⟨hge, Nat.lt_of_lt_of_le hless hret.nextTile, fun hmem => ?_⟩
        rw [← List.cons_append] at hmem
        rcases List.mem_append.mp hmem with hmem | hmem
        · exact (hpath hmem).mono hleft hkeep
        · exact absurd hless (Nat.not_lt.mpr (hret.tiles _ hmem).1)
      · obtain ⟨hge, hless, hpath⟩ := hits' it hit
        refine ⟨hf.nextTile.trans hge, hless, fun hmem => ?_⟩
        rw [← List.cons_append] at hmem
        rcases List.mem_append.mp hmem with hmem | hmem
        · exact absurd (hlt _ hmem) (Nat.not_lt.mpr hge)
        · exact (hpath hmem).mono hright fun t _ => hgrow t
    · rw [List.mem_singleton.mp hit]
      refine ⟨hf.child_new.1, Nat.lt_of_lt_of_le hf.child_new.2 hret.nextTile, fun _ t ht => ?_⟩
      refine ⟨fun heq => ?_, ?_⟩
      · have hge := (hret.tiles t ht).1
        have hless := hf.child_new.2
        change t = child at heq
        omega
      · exact ((hterminal.terminal.to_sink t ht).mono hright fun t _ => hgrow t).tail hedge

/-- **Every body keeps its iterations in order.** -/
theorem iterations_rule : ExpansionRule (fun _ _ => True)
    (fun st b => BodyFrame st b ∧ BodyShape b ∧ IterationsOrdered st b.tileVec b.st)
    fun st _ child last b => LoopFrame st child last b ∧ LoopShape child b ∧
      IterationsOrdered st (child :: b.done) b.st where
  start st := by
    obtain ⟨hframe, hshape⟩ := bodyShape_rule.start st
    exact ⟨hframe, hshape, [], (List.append_nil _).symm, nofun⟩
  leaf st b b' iter id child hQ hI hstep := by
    obtain ⟨hframe, hshape⟩ := bodyShape_rule.leaf st b b' iter id child hQ ⟨hI.1, hI.2.1⟩ hstep
    refine ⟨hframe, hshape, ?_⟩
    cases hstep with
    | dropped st' hsame hrecord =>
        refine hI.2.2.mono hsame.iterations hsame.nextTile.symm.le (List.Subset.refl _)
          (fun t ht _ => ht) fun t _ => ?_
        unfold childrenOf
        rw [hsame.heap]
        exact List.Subset.refl _
    | appended st' inst hsame hrecord hnew =>
        refine hI.2.2.mono hsame.iterations hsame.nextTile.symm.le (List.Subset.refl _)
          (fun t ht _ => ht) fun t _ => ?_
        unfold childrenOf
        rw [append_tile]
        dsimp only
        rw [hsame.heap]
        exact List.Subset.refl _
  enter st b loopType hI := by
    obtain ⟨hframe, hshape⟩ := bodyShape_rule.enter st b loopType ⟨hI.1, hI.2.1⟩
    refine ⟨hframe, hshape, hI.2.2.mono rfl (Nat.le_succ _) (List.subset_cons_self _ _)
      (fun t ht hlt => ?_) fun t ht => ?_⟩
    · rcases List.mem_cons.mp ht with rfl | ht
      · exact absurd hlt (Nat.lt_irrefl _)
      · exact ht
    · have hlt := (hI.1.tiles t ht).2
      unfold childrenOf
      rw [enterLoop_tile, if_neg (Nat.ne_of_lt hlt)]
      exact List.Subset.refl _
  iterate st loopType child last b ret hJ hret := by
    obtain ⟨hframe, hshape⟩ := bodyShape_rule.iterate st loopType child last b ret
      ⟨hJ.1, hJ.2.1⟩ ⟨hret.1, hret.2.1⟩
    refine ⟨hframe, hshape, ?_⟩
    have hlink : IterationsOrdered b.st ret.link.tileVec ret.link.st :=
      hret.2.2.mono rfl le_rfl (List.Subset.refl _) (fun t ht _ => ht) fun t _ => by
        rw [childrenOf_link]
        exact List.Subset.refl _
    by_cases hinner : loopType = .innerLoop
    · subst hinner
      exact hJ.2.2.addInner hJ.1 hret.1.link hlink
    · exact hJ.2.2.addOuter hJ.1 hret.1.link hret.2.1.link hlink hinner
  exit st loopType child last b hJ := by
    obtain ⟨hframe, hshape⟩ := bodyShape_rule.exit st loopType child last b ⟨hJ.1, hJ.2.1⟩
    have hperm : (b.exitLoop child).tileVec.Perm (child :: b.done) :=
      List.perm_append_singleton child b.done
    refine ⟨hframe, hshape, hJ.2.2.mono rfl le_rfl hperm.symm.subset
      (fun t ht _ => hperm.subset ht) fun t _ => ?_⟩
    have hheap : (b.exitLoop child).st.heap =
        [(b.back, child)].foldl (fun h e => h.appendChildTile e.1 e.2) b.st.heap := rfl
    unfold childrenOf
    rw [hheap, CoreHeap.foldl_appendChildTile_tile]
    exact List.subset_append_left _ _

/-! ## Runs -/

section Runs

variable {τ ι : Type} [DecidableEq τ] {P : TilePlan τ ι} {s : Dispatch τ ι} {M : List τ}
  {next : τ → List τ} {t u : τ}

/-- A tile from which a path leads to a released tile is finished. -/
theorem finished_of_path (h : Reach Dispatch.step Dispatch.Legal (Dispatch.init P) s)
    (hedges : ∀ v ∈ M, ∀ w ∈ next v, (v, w) ∈ P.edges) (hpath : PathIn M next t u) (hne : t ≠ u)
    (hready : (s.sched.heap.tile u).readyCounter = 0) : t ∈ s.sched.finished := by
  have hinv := DispatchInv.of_reach h
  rw [hinv.heap.readyCounter] at hready
  induction hpath with
  | refl => exact absurd rfl hne
  | @tail v u _ hedge ih =>
    have hv : v ∈ s.sched.finished :=
      pendingParents_eq_zero.mp hready v (hedges v hedge.1 u hedge.2)
    by_cases htv : t = v
    · rwa [htv]
    · exact ih htv (hinv.heap.handed_ready v (hinv.heap.finished_handed v hv))

end Runs

/-! ## Expansions -/

/-- **Tile expansion preserves loop order**: the first tile of an expansion is the only one without
a parent and the last the only one without a child, every tile is between them, ready counters are
numbers of parents, and the scheduler of a plan with these edges releases the tile behind a loop
only after all tiles of all its iterations have finished.
SOURCE: TileGraphParser.cc:336-672, Tile.cc:8-36 -/
theorem tile_expansion_order (T : ParserTables) (nodes : List TileNode) (iter : LoopIter)
    (st st' : ParserState) (tiles : List ℕ)
    (h : getTilesFromIter T nodes iter st = .ok (st', tiles)) :
    ∃ front back, tiles.head? = some front ∧ tiles.getLast? = some back ∧
      (∀ t ∈ tiles, (∀ u ∈ tiles, t ∉ childrenOf st' u) ↔ t = front) ∧
      (∀ t ∈ tiles, (∀ u ∈ tiles, u ∉ childrenOf st' t) ↔ t = back) ∧
      (∀ t ∈ tiles, PathIn tiles (childrenOf st') front t ∧
        PathIn tiles (childrenOf st') t back) ∧
      (∀ t ∈ tiles, (st'.heap.tile t).readyCounter =
        tiles.countP fun u => t ∈ childrenOf st' u) ∧
      ∀ (P : TilePlan ℕ ℕ) (s : Dispatch ℕ ℕ),
        (∀ t ∈ tiles, ∀ u ∈ childrenOf st' t, (t, u) ∈ P.edges) →
        Reach Dispatch.step Dispatch.Legal (Dispatch.init P) s →
        ∀ it ∈ st'.iterations.drop st.iterations.length, it.next ∈ tiles →
          (s.sched.heap.tile it.next).readyCounter = 0 → ∀ t ∈ it.tiles, t ∈ s.sched.finished := by
  obtain ⟨b, ⟨hframe, hshape, horder⟩, rfl, rfl⟩ := getTilesFromIter_rule iterations_rule
    (bodyLeaves_true nodes) h
  have hlinked := hshape.link
  have hterminal : TwoTerminal b.tileVec (childrenOf b.link.st) b.front b.back :=
    hlinked.terminal
  refine ⟨b.front, b.back, ?_, ?_, fun t ht => hterminal.source_iff ht, fun t ht => ?_,
    fun t ht => ⟨hterminal.from_source t ht, hterminal.to_sink t ht⟩,
    hlinked.counted.counter, fun P s hedges hreach it hit hmem hready t ht => ?_⟩
  · unfold BodyState.front BodyState.tileVec
    cases b.done <;> rfl
  · exact List.getLast?_concat
  · refine Iff.trans ⟨fun hfree => ?_, fun hnil u _ => ?_⟩ (hterminal.sink_iff ht)
    · refine List.eq_nil_iff_forall_not_mem.mpr fun u hu => ?_
      exact hfree u (hlinked.counted.child_mem t ht u hu) hu
    · rw [hnil]
      exact List.not_mem_nil
  · obtain ⟨new, hnew, hits⟩ := horder
    have hdrop : b.link.st.iterations.drop st.iterations.length = new := by
      rw [show b.link.st.iterations = b.st.iterations from rfl, hnew, List.drop_left]
    rw [hdrop] at hit
    obtain ⟨hne, hpath⟩ := (hits it hit).2.2 hmem t ht
    rw [← childrenOf_link] at hpath
    exact finished_of_path hreach hedges hpath hne hready

/-- A multiplication before a loop with two iterations. -/
def multiplyTwice : List TileNode :=
  [.compute 1 [] ⟨4, 0, MATMUL⟩,
    .loop 2 [] ⟨"k", 0, 2, 1, .accumulationLoop⟩ [.compute 3 [] ⟨4, 0, MATMUL⟩]]

/-- The kernel with the tiles of `multiplyTwice`. -/
def diamondKernel : TilePlan ℕ ℕ :=
  .ofFresh [{ subgraphs := [{ id := 0, tiles := [0, 2, 3, 1] }] }]
    [(0, 2), (2, 1), (0, 3), (3, 1), (0, 1)] (by decide) (by decide) (by decide) (by simp)

/-- The tile behind the loop is released when those of both iterations are finished. -/
theorem tile_expansion_order_multiplyTwice : ∃ (st : ParserState) (s : Dispatch ℕ ℕ),
    getTilesFromIter noTables multiplyTwice (fun _ => none) .init = .ok (st, [0, 2, 3, 1]) ∧
      Reach Dispatch.step Dispatch.Legal (Dispatch.init diamondKernel) s ∧
      (s.sched.heap.tile 1).readyCounter = 0 ∧ 2 ∈ s.sched.finished ∧ 3 ∈ s.sched.finished := by
  obtain ⟨⟨st, tiles⟩, hexpand, hvalue⟩ := exists_ok_of_map
    (x := getTilesFromIter noTables multiplyTwice (fun _ => none) .init)
    (f := fun r => (r.2, r.1.iterations.map fun it => (it.tiles, it.next),
      [0, 1, 2, 3].map (childrenOf r.1)))
    (c := ([0, 2, 3, 1], [([2], 1), ([3], 1)], [[2, 3, 1], [], [1], [1]])) (by decide +kernel)
  simp only [List.map_cons, List.map_nil, Prod.mk.injEq, List.cons.injEq, and_true] at hvalue
  obtain ⟨rfl, hiter, h0, h1, h2, h3⟩ := hvalue
  have hfirst : Reach Dispatch.step Dispatch.Legal (Dispatch.init diamondKernel) _ :=
    .of_foldlM [.launch 0, .peek 0 0 0 0 .wsMesh, .issue 0 0 0 0 .wsMesh] .init rfl (by
      intro s a ha
      simp only [List.mem_cons, List.not_mem_nil, or_false] at ha
      rcases ha with rfl | rfl | rfl <;> trivial)
  have hsecond := (hfirst.step (.finish 0) (by exact ⟨by decide, by decide⟩) rfl).step
    (.issue 0 0 0 0 .wsMesh) (by trivial) rfl
  have hthird := (hsecond.step (.finish 2) (by exact ⟨by decide, by decide⟩) rfl).step
    (.issue 0 0 0 0 .wsMesh) (by trivial) rfl
  obtain ⟨s, hreach, hready⟩ : ∃ s : Dispatch ℕ ℕ,
      Reach Dispatch.step Dispatch.Legal (Dispatch.init diamondKernel) s ∧
        (s.sched.heap.tile 1).readyCounter = 0 :=
    ⟨_, hthird.step (.finish 3) (by exact ⟨by decide, by decide⟩) rfl, by decide⟩
  obtain ⟨-, -, -, -, -, -, -, -, horder⟩ := tile_expansion_order noTables multiplyTwice _ .init
    st [0, 2, 3, 1] hexpand
  have hedges : ∀ t ∈ [0, 2, 3, 1], ∀ u ∈ childrenOf st t, (t, u) ∈ diamondKernel.edges := by
    simp [h0, h1, h2, h3, diamondKernel, TilePlan.ofFresh]
  have hmem (t : ℕ) (ht : ([t], 1) ∈ [([2], 1), ([3], 1)]) : ∃ it ∈ st.iterations.drop 0,
      it.tiles = [t] ∧ it.next = 1 := by
    rw [← hiter] at ht
    obtain ⟨it, hit, heq⟩ := List.mem_map.mp ht
    obtain ⟨htiles, hnext⟩ := Prod.mk.inj heq
    exact ⟨it, hit, htiles, hnext⟩
  refine ⟨st, s, hexpand, hreach, hready, ?_, ?_⟩
  · obtain ⟨it, hit, htiles, hnext⟩ := hmem 2 (by decide)
    refine horder diamondKernel _ hedges hreach it hit (by rw [hnext]; decide) ?_ 2 ?_
    · rwa [hnext]
    · rw [htiles]
      exact List.mem_singleton_self 2
  · obtain ⟨it, hit, htiles, hnext⟩ := hmem 3 (by decide)
    refine horder diamondKernel _ hedges hreach it hit (by rw [hnext]; decide) ?_ 3 ?_
    · rwa [hnext]
    · rw [htiles]
      exact List.mem_singleton_self 3

end PyTorchSim.Analysis
