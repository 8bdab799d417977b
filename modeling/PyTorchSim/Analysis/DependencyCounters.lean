import PyTorchSim.Analysis.ParsedGraph
import PyTorchSim.Analysis.WakeUps

/-!
# Dependency counters are exact

The tiles that the parser leaves behind are a program for a core, and its counters are the
numbers of parents.  So in every state of a core that is given these tiles, the ready counter
of an instruction is the number of its unfinished parents, and the instruction is put in the
ready list of its tile once, when the tile is there and the counter is 0.
-/

set_option autoImplicit false

namespace PyTorchSim.Analysis

open PyTorchSim.Model PyTorchSim.Library

variable {T : ParserTables} {coreOf : ℕ → ℤ} {g : ℕ} {file : List TileNode} {st : ParserState}
  {subs : List (SubGraphPlan ℕ)} {L : List ℕ} {h : CoreHeap ℕ ℕ} {t i : ℕ}

/-- No node of a file lists the same producer twice, so no node lists a child twice. -/
abbrev ProducersOnce (file : List TileNode) : Prop := BodyLeaves (fun _ child => child.Nodup) file

/-- The tiles of a tile graph. -/
def tilesOfGraph (subs : List (SubGraphPlan ℕ)) : List ℕ := subs.flatMap (·.tiles)

/-- The objects that a tile graph keeps: its tiles and their instructions. -/
def keptHeap (h : CoreHeap ℕ ℕ) (L : List ℕ) : CoreHeap ℕ ℕ where
  tile t := if t ∈ L then h.tile t else {}
  inst i := if i ∈ L.flatMap (fun t => (h.tile t).instructions) then h.inst i
    else { id := i, opcode := .comp, owner := 0 }

theorem keptHeap_tile (ht : t ∈ L) : (keptHeap h L).tile t = h.tile t := if_pos ht

theorem keptHeap_tile_of_notMem (ht : t ∉ L) : (keptHeap h L).tile t = {} := if_neg ht

theorem keptHeap_inst (ht : t ∈ L) (hi : i ∈ (h.tile t).instructions) :
    (keptHeap h L).inst i = h.inst i := if_pos (List.mem_flatMap.mpr ⟨t, ht, hi⟩)

/-- Every tile of a list has exact counters. -/
theorem tileInsts_listRule (T : ParserTables) :
    ListRule T (fun _ child => child.Nodup) fun h L => ∀ t ∈ L, TileInsts h t where
  call body iter st st' tiles hQ hcall := by
    obtain ⟨b, ⟨⟨hf, -⟩, hb⟩, rfl, rfl⟩ := getTilesFromIter_rule bodyInsts_rule hQ hcall
    exact hb.link hf
  kept h h' L hT hkept t ht := by
    obtain ⟨⟨g, hg⟩, hinst⟩ := hkept t ht
    refine (hT t ht).congr ?_ ?_ fun i hi => ?_
    · rw [hg]
    · rw [hg]
    · obtain ⟨g', hg'⟩ := hinst i hi
      rw [hg']
      exact ⟨rfl, rfl, rfl⟩

/-- **The tiles of a file have exact counters.** -/
theorem parsed_tileInsts (hQ : ProducersOnce file)
    (hparse : tileGraphParser T coreOf g file = .ok (st, subs)) :
    (∀ t ∈ tilesOfGraph subs, TileInsts st.heap t) ∧ Blank st.heap := by
  obtain ⟨lists, hlists, hl, -⟩ := tileGraphParser_listed tileInsts_listRule hQ hparse
  refine ⟨fun t ht => ?_, hl.blank⟩
  obtain ⟨sub, hsub, ht⟩ := List.mem_flatMap.mp ht
  obtain ⟨n, hn, rfl⟩ := List.getElem_of_mem hsub
  have hlen := hlists.length_eq
  have htiles := hlists.get hn (by omega)
  simp only [List.get_eq_getElem] at htiles
  rw [htiles] at ht
  obtain ⟨l, hmem, ht⟩ := List.mem_flatten.mp ht
  exact hl.prop l (List.mem_flatten.mpr ⟨_, List.getElem_mem _, hmem⟩) t ht

/-- The tiles of a file as a program for a core. -/
def programOf (hQ : ProducersOnce file)
    (hparse : tileGraphParser T coreOf g file = .ok (st, subs)) : TileProgram ℕ ℕ where
  heap := keptHeap st.heap (tilesOfGraph subs)
  insts_nodup t := by
    by_cases ht : t ∈ tilesOfGraph subs
    · rw [keptHeap_tile ht]
      exact ((parsed_tileInsts hQ hparse).1 t ht).counted.nodup
    · rw [keptHeap_tile_of_notMem ht]
      exact List.nodup_nil
  owner t i hi := by
    by_cases ht : t ∈ tilesOfGraph subs
    · rw [keptHeap_tile ht] at hi
      rw [keptHeap_inst ht hi]
      exact ((parsed_tileInsts hQ hparse).1 t ht).owner i hi
    · rw [keptHeap_tile_of_notMem ht] at hi
      exact absurd hi List.not_mem_nil
  nrInsts t := by
    by_cases ht : t ∈ tilesOfGraph subs
    · rw [keptHeap_tile ht]
      exact ((parsed_tileInsts hQ hparse).1 t ht).nrInsts
    · rw [keptHeap_tile_of_notMem ht]
      rfl
  nrFinishedInsts t := by
    by_cases ht : t ∈ tilesOfGraph subs
    · rw [keptHeap_tile ht]
      exact (parsed_tileInsts hQ hparse).2.nrFinished t
    · rw [keptHeap_tile_of_notMem ht]
  readyQueue t := by
    by_cases ht : t ∈ tilesOfGraph subs
    · rw [keptHeap_tile ht]
      exact (parsed_tileInsts hQ hparse).2.readyQueue t
    · rw [keptHeap_tile_of_notMem ht]
  finished i := by
    unfold keptHeap
    dsimp only
    split
    · exact (parsed_tileInsts hQ hparse).2.finished i
    · rfl
  nrWaitingRequest i := by
    unfold keptHeap
    dsimp only
    split
    · exact (parsed_tileInsts hQ hparse).2.waiting i
    · rfl
  child_nodup i := by
    unfold keptHeap
    dsimp only
    split
    · rename_i hi
      obtain ⟨t, ht, hi⟩ := List.mem_flatMap.mp hi
      exact ((parsed_tileInsts hQ hparse).1 t ht).counted.child_nodup i hi
    · exact List.nodup_nil
  child_mem t i hi j hj := by
    by_cases ht : t ∈ tilesOfGraph subs
    · rw [keptHeap_tile ht] at hi ⊢
      rw [keptHeap_inst ht hi] at hj
      exact ((parsed_tileInsts hQ hparse).1 t ht).counted.child_mem i hi j hj
    · rw [keptHeap_tile_of_notMem ht] at hi
      exact absurd hi List.not_mem_nil
  readyCounter t j hj := by
    by_cases ht : t ∈ tilesOfGraph subs
    · rw [keptHeap_tile ht] at hj ⊢
      have hT := (parsed_tileInsts hQ hparse).1 t ht
      rw [keptHeap_inst ht hj, hT.counted.counter j hj]
      refine le_of_eq (List.countP_congr fun i hi => ?_)
      rw [keptHeap_inst ht hi]
    · rw [keptHeap_tile_of_notMem ht] at hj
      exact absurd hj List.not_mem_nil

/-- The counters of the program are the numbers of parents. -/
theorem exactCounters_programOf (hQ : ProducersOnce file)
    (hparse : tileGraphParser T coreOf g file = .ok (st, subs)) :
    ExactCounters (programOf hQ hparse) := by
  intro t j hj
  change j ∈ ((keptHeap st.heap (tilesOfGraph subs)).tile t).instructions at hj
  change ((keptHeap st.heap (tilesOfGraph subs)).inst j).readyCounter =
    (((keptHeap st.heap (tilesOfGraph subs)).tile t).instructions.filter _).length
  by_cases ht : t ∈ tilesOfGraph subs
  · rw [keptHeap_tile ht] at hj ⊢
    have hT := (parsed_tileInsts hQ hparse).1 t ht
    rw [keptHeap_inst ht hj, hT.counted.counter j hj, ← List.countP_eq_length_filter]
    refine List.countP_congr fun i hi => ?_
    have hinst : (programOf hQ hparse).heap.inst i = st.heap.inst i := keptHeap_inst ht hi
    have hkind : (kindOf (programOf hQ hparse) i).childInst = (st.heap.inst i).childInst :=
      congrArg Instruction.childInst hinst
    rw [hinst, hkind, (parsed_tileInsts hQ hparse).2.finished i]
    simp
  · rw [keptHeap_tile_of_notMem ht] at hj
    exact absurd hj List.not_mem_nil

/-- **Instruction dependency counters are exact**: in every state of a core that runs the tiles
of a file, the counter of an instruction is the number of its unfinished parents, a parent
belongs to the same tile, and an instruction was put in the ready list of its tile once if the
tile was given to the core and its counter is 0, and otherwise never; and it was issued after
its parents were finished.
SOURCE: Instruction.cc:52-61, TileGraphParser.cc:573-672, Core.cc:28-38 -/
theorem dependency_counters_exact (hQ : ProducersOnce file)
    (hparse : tileGraphParser T coreOf g file = .ok (st, subs)) (cfg : CoreConfig)
    (s : CoreSystem ℕ ℕ)
    (h : Reach (CoreSystem.step cfg) CoreSystem.Legal (CoreSystem.init (programOf hQ hparse)) s) :
    (∀ t ∈ tilesOfGraph subs, ∀ j ∈ (s.core.heap.tile t).instructions,
      (s.core.heap.inst j).readyCounter = (s.core.heap.tile t).instructions.countP
        (fun i => !(s.core.heap.inst i).finished && j ∈ (s.core.heap.inst i).childInst) ∧
      (∀ u ∈ tilesOfGraph subs, ∀ i ∈ (s.core.heap.tile u).instructions,
        j ∈ (s.core.heap.inst i).childInst → u = t) ∧
      timesReady s.core t j =
        if t ∈ s.issuedTiles ∧ (s.core.heap.inst j).readyCounter = 0 then 1 else 0) ∧
      AtEach (Timely (programOf hQ hparse)) s.core.events := by
  obtain ⟨hI, hW⟩ := wakeInv_of_reach (exactCounters_programOf hQ hparse) h
  refine ⟨fun t ht j hj => ?_, hW.timely⟩
  rw [hI.placement.insts] at hj ⊢
  have hchild : ∀ i, (s.core.heap.inst i).childInst =
      (kindOf (programOf hQ hparse) i).childInst :=
    fun i => congrArg InstKind.childInst (hI.placement.kind i)
  refine ⟨?_, fun u hu i hi hmem => ?_, hW.entered t j hj⟩
  · rw [hW.exact t j hj, unfinishedParents, ← List.countP_eq_length_filter]
    simp only [hchild]
  · rw [hI.placement.insts] at hi
    rw [hchild] at hmem
    have hju := (programOf hQ hparse).child_mem u i hi j hmem
    exact ((programOf hQ hparse).owner u j hju).symm.trans ((programOf hQ hparse).owner t j hj)

/-- A multiplication before an inner loop with another one, in two iterations of an outer
loop. -/
def multiplyThenLoop : List TileNode :=
  [.loop 0 [] ⟨"i", 0, 2, 1, .parallelLoop⟩
    [.compute 1 [2] ⟨4, 0, MATMUL⟩,
      .loop 2 [] ⟨"j", 0, 2, 1, .innerLoop⟩ [.compute 3 [] ⟨4, 0, MATMUL⟩]]]

/-- Tables without addresses. -/
def noTables : ParserTables where
  loopSizeMap := fun _ => {}
  argToAddress := fun _ => 0
  argNumaStride := fun _ => []
  systolicSize := 128
  sparseTileSet := fun _ => false

/-- Once the first tile is given to a core, the multiplication before the inner loop is ready,
and the two of the inner loop wait for it. -/
theorem dependency_counters_exact_multiply : ∃ (st : ParserState) (subs : List (SubGraphPlan ℕ))
    (s : CoreSystem ℕ ℕ), tileGraphParser noTables (fun _ => -1) 0 multiplyThenLoop =
        .ok (st, subs) ∧ tilesOfGraph subs = [0, 1, 4, 5] ∧ s.issuedTiles = [0] ∧
      ∀ t ∈ tilesOfGraph subs, ∀ j ∈ (s.core.heap.tile t).instructions,
        (s.core.heap.inst j).readyCounter = (s.core.heap.tile t).instructions.countP
          (fun i => !(s.core.heap.inst i).finished && j ∈ (s.core.heap.inst i).childInst) ∧
        timesReady s.core t j =
          if t ∈ s.issuedTiles ∧ (s.core.heap.inst j).readyCounter = 0 then 1 else 0 := by
  obtain ⟨⟨st, subs⟩, hparse, htiles⟩ := exists_ok_of_map
    (x := tileGraphParser noTables (fun _ => -1) 0 multiplyThenLoop)
    (f := fun r => tilesOfGraph r.2) (c := [0, 1, 4, 5]) (by decide +kernel)
  have hQ : ProducersOnce multiplyThenLoop := by
    simp [ProducersOnce, multiplyThenLoop, BodyLeaves, NodeLeaves]
  obtain ⟨s, hreach, hissued⟩ : ∃ s, Reach (CoreSystem.step {}) CoreSystem.Legal
      (CoreSystem.init (programOf hQ hparse)) s ∧ s.issuedTiles = [0] :=
    ⟨_, .step (.issue 0) .init List.not_mem_nil rfl, rfl⟩
  have hall := (dependency_counters_exact hQ hparse {} s hreach).1
  exact ⟨st, subs, s, hparse, htiles, hissued,
    fun t ht j hj => ⟨(hall t ht j hj).1, (hall t ht j hj).2.2⟩⟩

end PyTorchSim.Analysis
