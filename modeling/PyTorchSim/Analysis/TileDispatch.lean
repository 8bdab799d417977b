import PyTorchSim.Analysis.DispatchInvariant

/-!
# Tile dispatch is exactly once and respects dependencies

The results are about every state a scheduler reaches by the calls of the simulator, for
any kernels, any cores and slots and any order of the calls.
-/

set_option autoImplicit false

namespace PyTorchSim.Analysis

open PyTorchSim.Model PyTorchSim.Library

variable {τ ι : Type} [DecidableEq τ]

/-- At the time of the event, a tile handed out has no unfinished parent. -/
def ParentsFinished (P : TilePlan τ ι) (before : List (DispatchEvent τ)) :
    DispatchEvent τ → Prop
  | .handedOut t => ∀ p ∈ parents P.edges t, p ∈ finishedIn before
  | _ => True

omit [DecidableEq τ] in
/-- A refresh adds at most the completion of a kernel to the record. -/
theorem atEach_refreshStatus {Q : List (DispatchEvent τ) → DispatchEvent τ → Prop}
    {q : Scheduler τ ι} {now : ℕ} (h : AtEach Q q.events)
    (hQ : ∀ G rest m n, q.tileGraph = G :: rest → G.isFinished q.heap = true →
      Q q.events (.completed G m n)) : AtEach Q (q.refreshStatus now).events := by
  rcases Scheduler.refreshStatus_cases q now with ⟨heq, -⟩ | ⟨G, rest, m, n, hq, hfin, heq⟩
  · rwa [heq]
  · rw [heq]
    exact atEach_concat.mpr ⟨h, hQ G rest m n hq hfin⟩

/-- Tiles are handed out only after their parents finished. -/
theorem parents_finished {P : TilePlan τ ι} {s : Dispatch τ ι}
    (h : Reach Dispatch.step Dispatch.Legal (Dispatch.init P) s) :
    AtEach (ParentsFinished P) s.sched.events := by
  refine @Reach.invariant _ _ _ _ _ _ _ (fun s => AtEach (ParentsFinished P) s.sched.events) h atEach_nil
    fun s a s' hr hI ha hs => ?_
  have hinv := DispatchInv.of_reach hr
  obtain ⟨s'', hs', heffect⟩ := hinv.effect a ha
  rw [hs] at hs'
  cases hs'
  cases heffect with
  | idle => exact hI
  | bind => exact hI
  | launch now hp => exact atEach_refreshStatus hI fun _ _ _ _ _ _ => trivial
  | handOut now core slot tie ctype hq hgraphs hlen hsg halloc ht hready =>
      refine atEach_refreshStatus (atEach_concat.mpr ⟨hI, fun p hp => ?_⟩)
        fun _ _ _ _ _ _ => trivial
      have hsgP : _ ∈ P.subgraphs := List.mem_flatMap.mpr ⟨_, by simp [hgraphs], hsg⟩
      exact pendingParents_eq_zero.mp (hinv.heap.ready _ hsgP _ hready) p (by simpa using hp)
  | finish => exact atEach_concat.mpr ⟨hI, trivial⟩

/-- **Tile dispatch is exactly once and respects dependencies**: a tile is handed out at
most once, and only when its parents are finished; its ready counter is the number of its
unfinished parents; until it is handed out it is in one place, the ready queue or the
pending set of its subgraph; and a subgraph is in one place, the waiting vector, the entry
of one core and slot, or the finished vector.
SOURCE: TileGraph.cc:7-121, Tile.cc:8-36, Simulator.cc:97-123 -/
theorem tile_dispatch_exactly_once (P : TilePlan τ ι) (s : Dispatch τ ι)
    (h : Reach Dispatch.step Dispatch.Legal (Dispatch.init P) s) :
    s.sched.handedOut.Nodup ∧
      AtEach (ParentsFinished P) s.sched.events ∧
      (∀ t, (s.sched.heap.tile t).readyCounter =
        ((parents P.edges t).filter (· ∉ s.sched.finished)).length) ∧
      (∀ sg ∈ P.subgraphs, ∀ t ∈ sg.tiles, t ∉ s.sched.handedOut →
        Xor (t ∈ (s.sched.heap.subgraph sg.id).tileSet)
          (t ∈ (s.sched.heap.subgraph sg.id).readyTileQueue) ∧
        ((s.sched.heap.subgraph sg.id).tileSet ++
          (s.sched.heap.subgraph sg.id).readyTileQueue).count t = 1) ∧
      (s.sched.completed ++ s.sched.tileGraph ++ s.pending).map (·.subgraphs) =
        P.graphs.map (fun G => G.subgraphs.map (·.id)) ∧
      ∀ G ∈ s.sched.completed ++ s.sched.tileGraph ++ s.pending, ∀ g ∈ G.subgraphs,
        (G.subgraphVec ++ G.allocated ++ G.finishedSubgraphVec).count g = 1 := by
  have hI := DispatchInv.of_reach h
  have hgraphs := hI.graphs
  rw [← List.append_assoc] at hgraphs
  refine ⟨hI.heap.handed_nodup, parents_finished h, fun t => ?_, fun sg hsg t ht hnot => ?_, ?_,
    fun G hG g hg => ?_⟩
  · rw [hI.heap.readyCounter, pendingParents, List.countP_eq_length_filter]
  · have hcount : ((s.sched.heap.subgraph sg.id).tileSet ++
        (s.sched.heap.subgraph sg.id).readyTileQueue).count t = 1 := by
      have hone := List.count_eq_one_of_mem (P.nodup_tiles hsg) ht
      rw [← (hI.heap.placed sg hsg).count_eq t] at hone
      have hzero : (s.sched.handedOut.filter (· ∈ sg.tiles)).count t = 0 :=
        List.count_eq_zero_of_not_mem fun hmem => hnot (List.mem_filter.mp hmem).1
      simp only [List.count_append] at hone ⊢
      omega
    refine ⟨?_, hcount⟩
    simp only [List.count_append] at hcount
    by_cases hset : t ∈ (s.sched.heap.subgraph sg.id).tileSet
    · have hpos := List.count_pos_iff.mpr hset
      refine .inl ⟨hset, fun hready => ?_⟩
      have hpos' := List.count_pos_iff.mpr hready
      omega
    · rw [List.count_eq_zero_of_not_mem hset] at hcount
      refine .inr ⟨?_, hset⟩
      exact List.count_pos_iff.mp (by omega)
  · have hmap : List.Forall₂ (fun (plan : GraphPlan τ) (G : TileGraph) =>
        plan.subgraphs.map (·.id) = G.subgraphs) P.graphs
        (s.sched.completed ++ s.sched.tileGraph ++ s.pending) :=
      hgraphs.imp fun plan G hG => hG.subgraphs.symm
    have heq := List.forall₂_map_left_iff.mpr (List.forall₂_map_right_iff.mpr hmap)
    rw [List.forall₂_eq_eq_eq] at heq
    exact heq.symm
  · obtain ⟨plan, hplan, hinv⟩ : ∃ plan ∈ P.graphs, GraphInv s.sched.handedOut plan G := by
      obtain ⟨i, hi, rfl⟩ := List.getElem_of_mem hG
      have hlen := hgraphs.length_eq
      exact ⟨P.graphs[i], List.getElem_mem _, hgraphs.get (by omega) hi⟩
    rw [hinv.placed.count_eq]
    refine List.count_eq_one_of_mem ?_ hg
    rw [hinv.subgraphs]
    have hids := P.ids_nodup
    rw [List.map_flatMap] at hids
    exact (List.nodup_flatMap.mp hids).1 plan hplan

/-- A kernel with one subgraph in which tile 1 waits for tile 0. -/
def chainKernel : TilePlan ℕ ℕ :=
  .ofFresh [{ subgraphs := [{ id := 0, tiles := [0, 1] }] }] [(0, 1)]
    (by decide) (by decide) (by decide) (by simp)

/-- A run that hands out tile 0. -/
theorem chainKernel_reach : ∃ s,
    Reach Dispatch.step Dispatch.Legal (Dispatch.init chainKernel) s ∧
      s.sched.handedOut = [0] := by
  refine ⟨_, Reach.of_foldlM [.launch 0, .peek 0 0 0 0 .wsMesh, .issue 0 0 0 0 .wsMesh]
    .init rfl ?_, by decide⟩
  intro s a ha
  simp only [List.mem_cons, List.not_mem_nil, or_false] at ha
  rcases ha with rfl | rfl | rfl <;> trivial

/-- After tile 0 is handed out, tile 1 still waits. -/
theorem tile_dispatch_exactly_once_chain : ∃ s : Dispatch ℕ ℕ,
    s.sched.handedOut = [0] ∧ s.sched.handedOut.Nodup ∧
      (s.sched.heap.tile 1).readyCounter =
        ((parents chainKernel.edges 1).filter (· ∉ s.sched.finished)).length := by
  obtain ⟨s, hreach, hhanded⟩ := chainKernel_reach
  have hall := tile_dispatch_exactly_once chainKernel s hreach
  exact ⟨s, hhanded, hall.1, hall.2.2.1 1⟩

end PyTorchSim.Analysis
