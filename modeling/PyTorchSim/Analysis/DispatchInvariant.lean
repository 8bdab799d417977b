import Mathlib.Data.List.Forall2
import PyTorchSim.Analysis.TileHeap
import PyTorchSim.Library.Runs

/-!
# The invariant of a scheduler

`GraphInv` says where the subgraphs of one tile graph are, `DispatchInv` adds the heap and
the order of the graphs: those completed, those in the queue and those still to be
launched are the graphs of the plan, and only tiles of a completed graph or of the graph in
front are handed out.  Every legal call keeps it and none fails.
-/

set_option autoImplicit false

namespace PyTorchSim.Analysis

open PyTorchSim.Model PyTorchSim.Library

variable {τ ι : Type}

/-! ## One tile graph -/

/-- Where the subgraphs of a graph are. -/
structure GraphInv (handed : List τ) (plan : GraphPlan τ) (G : TileGraph) : Prop where
  subgraphs : G.subgraphs = plan.subgraphs.map (·.id)
  placed : (G.subgraphVec ++ G.allocated ++ G.finishedSubgraphVec).Perm G.subgraphs
  slots_nodup : G.slots.Nodup
  missing : ∀ k ∉ G.slots, G.cpuGraphMap k = none
  waiting : ∀ sg ∈ plan.subgraphs, sg.id ∈ G.subgraphVec → ∀ t ∈ sg.tiles, t ∉ handed
  drained : ∀ sg ∈ plan.subgraphs, sg.id ∈ G.finishedSubgraphVec → ∀ t ∈ sg.tiles, t ∈ handed

/-- The list of a map over the keys, with one key taken out. -/
theorem perm_filterMap_erase {κ β : Type} [BEq κ] [LawfulBEq κ] {ks : List κ} {k : κ} (hk : k ∈ ks)
    (m : κ → Option β) : (ks.filterMap m).Perm ((m k).toList ++ (ks.erase k).filterMap m) := by
  refine ((List.perm_cons_erase hk).filterMap m).trans (List.Perm.of_eq ?_)
  cases hm : m k <;> simp [hm]

namespace TileGraph

/-- Writing a slot replaces the subgraph bound there. -/
theorem allocated_setSlot {G : TileGraph} (hnodup : G.slots.Nodup)
    (hmissing : ∀ k ∉ G.slots, G.cpuGraphMap k = none) (k : ℕ × ℕ) (v : Option ℕ) :
    ((G.setSlot k v).allocated ++ (G.cpuGraphMap k).toList).Perm (v.toList ++ G.allocated) := by
  unfold Model.TileGraph.setSlot Model.TileGraph.allocated
  by_cases hk : k ∈ G.slots
  · have hold := perm_filterMap_erase hk G.cpuGraphMap
    have hnew := perm_filterMap_erase hk (Function.update G.cpuGraphMap k v)
    have hrest : (G.slots.erase k).filterMap (Function.update G.cpuGraphMap k v) =
        (G.slots.erase k).filterMap G.cpuGraphMap := by
      refine List.filterMap_congr fun j hj => ?_
      have hne : j ≠ k := fun h => hnodup.not_mem_erase (h ▸ hj)
      exact Function.update_of_ne hne _ _
    rw [Function.update_self, hrest] at hnew
    simp only [if_pos hk]
    refine (hnew.append_right _).trans ?_
    rw [List.append_assoc]
    refine List.Perm.append_left _ ?_
    exact List.perm_append_comm.trans hold.symm
  · have hrest : G.slots.filterMap (Function.update G.cpuGraphMap k v) =
        G.slots.filterMap G.cpuGraphMap := by
      refine List.filterMap_congr fun j hj => ?_
      have hne : j ≠ k := fun h => hk (h ▸ hj)
      exact Function.update_of_ne hne _ _
    simp only [if_neg hk, List.filterMap_append, hrest, hmissing k hk, Option.toList_none,
      List.append_nil]
    refine List.perm_append_comm.trans (List.Perm.append_right _ (List.Perm.of_eq ?_))
    cases v <;> simp

end TileGraph

namespace GraphInv

variable {h : Heap τ ι} {handed : List τ} {plan : GraphPlan τ} {G : TileGraph} {t : τ}

/-- The graph the parser leaves. -/
theorem init (plan : GraphPlan τ) : GraphInv [] plan plan.graph := by
  have hfold : ∀ (sgs : List (SubGraphPlan τ)) (G : TileGraph),
      sgs.foldl (fun g sg => g.appendSubgraph sg.id) G =
        { G with
          subgraphs := G.subgraphs ++ sgs.map (·.id)
          subgraphVec := G.subgraphVec ++ sgs.map (·.id) } := by
    intro sgs
    induction sgs with
    | nil => intro G; simp
    | cons sg sgs ih =>
        intro G
        rw [List.foldl_cons, ih]
        simp [TileGraph.appendSubgraph]
  unfold GraphPlan.graph
  rw [hfold]
  refine ⟨by simp, by simp [TileGraph.allocated], by simp, by simp, by simp, by simp⟩

/-- A subgraph with the number of a waiting, bound or finished one is one of the plan. -/
theorem mem_plan (hG : GraphInv handed plan G) {g : ℕ}
    (hg : g ∈ G.subgraphVec ++ G.allocated ++ G.finishedSubgraphVec) :
    ∃ sg ∈ plan.subgraphs, sg.id = g := by
  rw [hG.placed.mem_iff, hG.subgraphs] at hg
  simpa using hg

/-- The subgraph bound to a slot. -/
theorem mem_allocated (hG : GraphInv handed plan G) {k : ℕ × ℕ} {g : ℕ}
    (hk : G.cpuGraphMap k = some g) : g ∈ G.allocated := by
  refine List.mem_filterMap.mpr ⟨k, ?_, hk⟩
  by_contra hnot
  rw [hG.missing k hnot] at hk
  cases hk

/-- Handing out a tile that is in no waiting subgraph of the graph. -/
theorem mono (hG : GraphInv handed plan G)
    (ht : ∀ sg ∈ plan.subgraphs, sg.id ∈ G.subgraphVec → t ∉ sg.tiles) :
    GraphInv (handed ++ [t]) plan G := by
  refine ⟨hG.subgraphs, hG.placed, hG.slots_nodup, hG.missing, ?_, ?_⟩
  · intro sg hsg hid u hu hmem
    rcases List.mem_append.mp hmem with hmem | hmem
    · exact hG.waiting sg hsg hid u hu hmem
    · rw [List.mem_singleton.mp hmem] at hu
      exact ht sg hsg hid hu
  · intro sg hsg hid u hu
    exact List.mem_append_left _ (hG.drained sg hsg hid u hu)

/-- Binding the next waiting subgraph to a slot whose subgraph is drained. -/
theorem allocate (hG : GraphInv handed plan G) {core slot : ℕ}
    (hold : ∀ sg ∈ plan.subgraphs, G.cpuGraphMap (core, slot) = some sg.id →
      ∀ t ∈ sg.tiles, t ∈ handed) :
    GraphInv handed plan (G.allocateSubgraph h core slot) := by
  unfold Model.TileGraph.allocateSubgraph
  set v := ({ G with finishedSubgraphVec :=
    G.finishedSubgraphVec ++ (G.cpuGraphMap (core, slot)).toList } : TileGraph).nextSubgraph h core
    with hv
  have hvmem : ∀ g, v = some g → g ∈ G.subgraphVec := by
    intro g hg
    exact List.mem_of_find?_eq_some (hv.symm.trans hg)
  have hsub : G.subgraphVec.Perm (v.toList ++ (v.map G.subgraphVec.erase).getD G.subgraphVec) := by
    cases hcase : v with
    | none => simp
    | some g => simpa using List.perm_cons_erase (hvmem g hcase)
  have halloc := TileGraph.allocated_setSlot hG.slots_nodup hG.missing (core, slot) v
  refine ⟨hG.subgraphs, ?_, ?_, ?_, ?_, ?_⟩
  · refine List.Perm.trans ?_ hG.placed
    change (((v.map G.subgraphVec.erase).getD G.subgraphVec ++ (G.setSlot (core, slot) v).allocated)
      ++ (G.finishedSubgraphVec ++ (G.cpuGraphMap (core, slot)).toList)).Perm _
    rw [List.perm_iff_count] at hsub halloc ⊢
    intro g
    have h1 := hsub g
    have h2 := halloc g
    simp only [List.count_append] at h1 h2 ⊢
    omega
  · change (if (core, slot) ∈ G.slots then G.slots else G.slots ++ [(core, slot)]).Nodup
    split
    · exact hG.slots_nodup
    · rename_i hnot
      exact List.nodup_append.mpr ⟨hG.slots_nodup, by simp, by
        intro a ha b hb hab
        rw [List.mem_singleton.mp hb] at hab
        exact hnot (hab ▸ ha)⟩
  · intro k hk
    change k ∉ (if (core, slot) ∈ G.slots then G.slots else G.slots ++ [(core, slot)]) at hk
    have hne : k ≠ (core, slot) ∧ k ∉ G.slots := by
      split at hk
      · rename_i hmem
        exact ⟨fun h => hk (h ▸ hmem), hk⟩
      · simp only [List.mem_append, List.mem_singleton, not_or] at hk
        exact ⟨hk.2, hk.1⟩
    change Function.update G.cpuGraphMap (core, slot) v k = none
    rw [Function.update_of_ne hne.1]
    exact hG.missing k hne.2
  · intro sg hsg hid
    refine hG.waiting sg hsg ?_
    rw [hsub.mem_iff]
    exact List.mem_append_right _ hid
  · intro sg hsg hid
    rcases List.mem_append.mp hid with hid | hid
    · exact hG.drained sg hsg hid
    · exact hold sg hsg (by simpa using hid)

end GraphInv

/-! ## The scheduler -/

/-- A list split at one of its elements, and what is related to it. -/
theorem forall₂_append_cons {α β : Type} {R : α → β → Prop} {l : List α} {xs ys : List β} {y : β}
    (h : List.Forall₂ R l (xs ++ y :: ys)) : ∃ as a bs, l = as ++ a :: bs ∧
      List.Forall₂ R as xs ∧ R a y ∧ List.Forall₂ R bs ys := by
  induction xs generalizing l with
  | nil =>
      rw [List.nil_append] at h
      cases h with
      | cons hay hrest => exact ⟨[], _, _, rfl, .nil, hay, hrest⟩
  | cons x xs ih =>
      rw [List.cons_append] at h
      cases h with
      | cons hx hrest =>
          obtain ⟨as, a, bs, rfl, hxs, hay, hys⟩ := ih hrest
          exact ⟨_ :: as, a, bs, rfl, .cons hx hxs, hay, hys⟩

namespace Scheduler

variable {s s' : Scheduler τ ι} {now core slot tie : ℕ} {ctype : CoreType} {t : τ}

@[simp] theorem log_heap (s : Scheduler τ ι) (e : DispatchEvent τ) :
    (s.log e).heap = s.heap := rfl

@[simp] theorem log_tileGraph (s : Scheduler τ ι) (e : DispatchEvent τ) :
    (s.log e).tileGraph = s.tileGraph := rfl

@[simp] theorem log_events (s : Scheduler τ ι) (e : DispatchEvent τ) :
    (s.log e).events = s.events ++ [e] := rfl

/-- A tile that is handed out is recorded. -/
@[simp] theorem handedOut_log (s : Scheduler τ ι) (t : τ) :
    (s.log (.handedOut t)).handedOut = s.handedOut ++ [t] ∧
      (s.log (.handedOut t)).finished = s.finished ∧
      (s.log (.handedOut t)).completed = s.completed := by
  simp [Model.Scheduler.handedOut, Model.Scheduler.finished, finishedIn, Model.Scheduler.completed]

/-- A tile that is reported finished is recorded. -/
@[simp] theorem finished_log (s : Scheduler τ ι) (t : τ) :
    (s.log (.finished t)).handedOut = s.handedOut ∧
      (s.log (.finished t)).finished = s.finished ++ [t] ∧
      (s.log (.finished t)).completed = s.completed := by
  simp [Model.Scheduler.handedOut, Model.Scheduler.finished, finishedIn, Model.Scheduler.completed]

/-- A graph that is removed is recorded. -/
@[simp] theorem completed_log (s : Scheduler τ ι) (G : TileGraph) (m n : ℕ) :
    (s.log (.completed G m n)).handedOut = s.handedOut ∧
      (s.log (.completed G m n)).finished = s.finished ∧
      (s.log (.completed G m n)).completed = s.completed ++ [G] := by
  simp [Model.Scheduler.handedOut, Model.Scheduler.finished, finishedIn, Model.Scheduler.completed]

/-- A refresh leaves the scheduler or removes the graph in front, which is finished. -/
theorem refreshStatus_cases (s : Scheduler τ ι) (now : ℕ) :
    s.refreshStatus now = s ∧ (∀ G rest, s.tileGraph = G :: rest → G.isFinished s.heap = false) ∨
      ∃ G rest m n, s.tileGraph = G :: rest ∧ G.isFinished s.heap = true ∧
        s.refreshStatus now = { s with tileGraph := rest }.log (.completed G m n) := by
  unfold Model.Scheduler.refreshStatus
  cases hq : s.tileGraph with
  | nil => exact .inl ⟨rfl, fun G rest h => by cases h⟩
  | cons G rest =>
      cases hfin : G.isFinished s.heap with
      | false =>
          refine .inl ⟨by simp [hfin], fun G' rest' h => ?_⟩
          obtain ⟨rfl, rfl⟩ := List.cons.inj h
          exact hfin
      | true => exact .inr ⟨G, rest, _, _, rfl, hfin, if_pos hfin⟩

/-- What `peek_tile` does when it shows a tile. -/
theorem peekTile_eq_some (h : s.peekTile now core slot tie ctype = (some t, s')) :
    s' = s ∧ ∃ G rest g, s.tileGraph = G :: rest ∧ G.cpuGraphMap (core, slot) = some g ∧
      (s.heap.subgraph g).isFinished = false ∧ s.heap.topReadyTile g tie = some t := by
  unfold Model.Scheduler.peekTile at h
  cases hq : s.tileGraph with
  | nil => simp [hq] at h
  | cons G rest =>
      simp only [hq, Model.TileGraph.peekTile] at h
      split at h
      · simp at h
      · split at h
        · cases hk : G.cpuGraphMap (core, slot) with
          | none => simp [hk] at h
          | some g =>
              cases hfin : (s.heap.subgraph g).isFinished with
              | true => simp [hk, hfin] at h
              | false =>
                  simp only [hk, hfin, Bool.false_eq_true, if_false, Prod.mk.injEq] at h
                  obtain ⟨htop, rfl⟩ := h
                  refine ⟨?_, G, rest, g, rfl, hk, hfin, htop⟩
                  rw [← hq]
        · simp at h

/-- What `peek_tile` does otherwise: nothing, or it binds the next subgraph to a slot that
holds none or a finished one. -/
theorem peekTile_cases (s : Scheduler τ ι) (now core slot tie : ℕ) (ctype : CoreType) :
    (s.peekTile now core slot tie ctype).2 = s ∨
      ∃ G rest, s.tileGraph = G :: rest ∧
        (∀ g, G.cpuGraphMap (core, slot) = some g → (s.heap.subgraph g).isFinished = true) ∧
        s.peekTile now core slot tie ctype =
          (none, { s with tileGraph := G.allocateSubgraph s.heap core slot :: rest }) := by
  unfold Model.Scheduler.peekTile
  cases hq : s.tileGraph with
  | nil => exact .inl rfl
  | cons G rest =>
      simp only [Model.TileGraph.peekTile]
      split
      · exact .inl rfl
      · split
        · cases hk : G.cpuGraphMap (core, slot) with
          | none => exact .inr ⟨G, rest, rfl, by simp [hk], rfl⟩
          | some g =>
              cases hfin : (s.heap.subgraph g).isFinished with
              | true =>
                  refine .inr ⟨G, rest, rfl, fun g' hg' => ?_, by simp [hfin]⟩
                  rw [hk] at hg'
                  exact Option.some.inj hg' ▸ hfin
              | false =>
                  refine .inl ?_
                  simp only [hfin, Bool.false_eq_true, if_false]
                  rw [← hq]
        · exact .inl rfl

end Scheduler

section Dispatch

variable [DecidableEq τ]

namespace Scheduler

variable {s : Scheduler τ ι} {now core slot tie : ℕ} {t : τ}

/-- The scheduler after a tile of subgraph `g` of the graph `G` in front left the ready
queue, before the status is refreshed. -/
def handOut (s : Scheduler τ ι) (now g : ℕ) (G : TileGraph) (rest : List TileGraph) (t : τ) :
    Scheduler τ ι :=
  { s with
    heap := s.heap.setSubgraph g { s.heap.subgraph g with
      readyTileQueue := (s.heap.subgraph g).readyTileQueue.erase t }
    tileGraph := (if G.startTime = 0 then { G with startTime := now } else G) :: rest }.log
      (.handedOut t)

/-- `get_tile` hands out the tile that `peek_tile` showed. -/
theorem getTile_of_peek {G : TileGraph} {rest : List TileGraph} {g : ℕ}
    (hq : s.tileGraph = G :: rest) (hslot : (core, slot) ∈ G.slots)
    (hk : G.cpuGraphMap (core, slot) = some g)
    (hfin : (s.heap.subgraph g).isFinished = false)
    (htop : s.heap.topReadyTile g tie = some t) :
    s.getTile now core slot tie =
      .ok (some t, (handOut s now g G rest t).refreshStatus now) := by
  have hempty : s.emptyFor core = false := by
    have hall : (G.slots.all fun k => k.1 != core || (G.cpuGraphMap k).isNone) = false := by
      rw [List.all_eq_false]
      exact ⟨(core, slot), hslot, by simp [hk]⟩
    simp [Model.Scheduler.emptyFor, hq, Model.TileGraph.empty, hall]
  have hget : G.getTile s.heap core slot tie =
      .ok (some t, s.heap.setSubgraph g { s.heap.subgraph g with
        readyTileQueue := (s.heap.subgraph g).readyTileQueue.erase t }, G) := by
    simp [Model.TileGraph.getTile, hslot, hk, hfin, Model.Heap.popReadyTile, htop]
  unfold Model.Scheduler.getTile
  rw [hempty, hq]
  simp only [Bool.false_eq_true, if_false, hget]
  rfl

end Scheduler

omit [DecidableEq τ] in
/-- The top of a ready queue is in the queue. -/
theorem Heap.mem_of_topReadyTile {h : Heap τ ι} {g tie : ℕ} {t : τ}
    (ht : h.topReadyTile g tie = some t) : t ∈ (h.subgraph g).readyTileQueue :=
  (List.mem_filter.mp (List.mem_of_getElem? ht)).1

/-- The invariant of a scheduler and the kernels still to be launched. -/
structure DispatchInv (P : TilePlan τ ι) (s : Dispatch τ ι) : Prop where
  heap : HeapInv P s.sched.heap s.sched.handedOut s.sched.finished
  finished_nodup : s.sched.finished.Nodup
  graphs : List.Forall₂ (GraphInv s.sched.handedOut) P.graphs
    (s.sched.completed ++ (s.sched.tileGraph ++ s.pending))
  later : ∀ plan ∈ P.graphs.drop (s.sched.completed.length + min 1 s.sched.tileGraph.length),
    ∀ t ∈ plan.tiles, t ∉ s.sched.handedOut

/-- What a legal call does: nothing, or it binds the next subgraph to a slot that holds none
or a finished one, launches a kernel, hands out a ready tile of a bound subgraph of the graph
in front, or notes that a tile is finished. -/
inductive DispatchEffect (P : TilePlan τ ι) (s : Dispatch τ ι) :
    DispatchCall τ → Dispatch τ ι → Prop
  | idle (a : DispatchCall τ) : DispatchEffect P s a s
  | bind (a : DispatchCall τ) {G : TileGraph} {rest : List TileGraph} (core slot : ℕ)
      (hq : s.sched.tileGraph = G :: rest)
      (hfin : ∀ g, G.cpuGraphMap (core, slot) = some g →
        (s.sched.heap.subgraph g).isFinished = true) :
      DispatchEffect P s a { s with sched := { s.sched with
        tileGraph := G.allocateSubgraph s.sched.heap core slot :: rest } }
  | launch (now : ℕ) {G : TileGraph} {rest : List TileGraph} (hp : s.pending = G :: rest) :
      DispatchEffect P s (.launch now)
        { sched := s.sched.enqueueGraph now G, pending := rest }
  | handOut (now core slot tie : ℕ) (ctype : CoreType) {t : τ} {G : TileGraph}
      {rest : List TileGraph} {as bs : List (GraphPlan τ)} {plan : GraphPlan τ}
      {sg : SubGraphPlan τ} (hq : s.sched.tileGraph = G :: rest)
      (hgraphs : P.graphs = as ++ plan :: bs) (hlen : as.length = s.sched.completed.length)
      (hsg : sg ∈ plan.subgraphs) (halloc : sg.id ∈ G.allocated) (ht : t ∈ sg.tiles)
      (hready : t ∈ (s.sched.heap.subgraph sg.id).readyTileQueue)
      (hpeek : s.sched.peekTile now core slot tie ctype = (some t, s.sched)) :
      DispatchEffect P s (.issue now core slot tie ctype)
        { s with sched := (Scheduler.handOut s.sched now sg.id G rest t).refreshStatus now }
  | finish {t : τ} {heap : Heap τ ι} (ht : t ∈ s.sched.handedOut) (hfin : t ∉ s.sched.finished)
      (hrun : s.sched.heap.finishTile t = .ok heap) :
      DispatchEffect P s (.finish t)
        { s with sched := { s.sched with heap := heap }.log (.finished t) }

/-- A finished graph has handed out every tile. -/
theorem GraphInv.handed_of_isFinished {P : TilePlan τ ι} {h : Heap τ ι} {handed fin : List τ}
    {plan : GraphPlan τ} {G : TileGraph} (hG : GraphInv handed plan G)
    (hI : HeapInv P h handed fin) (hplan : plan ∈ P.graphs) (hfin : G.isFinished h = true) :
    ∀ t ∈ plan.tiles, t ∈ handed := by
  intro t ht
  obtain ⟨sg, hsg, htsg⟩ := List.mem_flatMap.mp ht
  have hsgP : sg ∈ P.subgraphs := List.mem_flatMap.mpr ⟨plan, hplan, hsg⟩
  simp only [Model.TileGraph.isFinished, Bool.and_eq_true, List.isEmpty_iff] at hfin
  have hmem : sg.id ∈ G.subgraphVec ++ G.allocated ++ G.finishedSubgraphVec := by
    rw [hG.placed.mem_iff, hG.subgraphs]
    exact List.mem_map.mpr ⟨sg, hsg, rfl⟩
  rw [hfin.1, List.nil_append, List.mem_append] at hmem
  rcases hmem with hmem | hmem
  · exact (hI.isFinished_iff hsgP).mp (List.all_eq_true.mp hfin.2 sg.id hmem) t htsg
  · exact hG.drained sg hsg hmem t htsg

/-- A graph whose subgraphs all have a tile is finished once every tile is handed out,
whether or not the tiles are finished. -/
theorem GraphInv.isFinished_of_handed {P : TilePlan τ ι} {h : Heap τ ι} {handed fin : List τ}
    {plan : GraphPlan τ} {G : TileGraph} (hG : GraphInv handed plan G)
    (hI : HeapInv P h handed fin) (hplan : plan ∈ P.graphs) (hP : P.Populated)
    (hall : ∀ t ∈ plan.tiles, t ∈ handed) : G.isFinished h = true := by
  have hmemP : ∀ sg ∈ plan.subgraphs, sg ∈ P.subgraphs := fun sg hsg =>
    List.mem_flatMap.mpr ⟨plan, hplan, hsg⟩
  have htiles : ∀ sg ∈ plan.subgraphs, ∀ t ∈ sg.tiles, t ∈ handed := fun sg hsg t ht =>
    hall t (List.mem_flatMap.mpr ⟨sg, hsg, ht⟩)
  simp only [Model.TileGraph.isFinished, Bool.and_eq_true, List.isEmpty_iff]
  constructor
  · rw [List.eq_nil_iff_forall_not_mem]
    intro g hg
    obtain ⟨sg, hsg, rfl⟩ := hG.mem_plan
      (List.mem_append_left _ (List.mem_append_left _ hg))
    obtain ⟨t, ht⟩ := List.exists_mem_of_ne_nil _ (hP sg (hmemP sg hsg))
    exact hG.waiting sg hsg hg t ht (htiles sg hsg t ht)
  · rw [List.all_eq_true]
    intro g hg
    obtain ⟨sg, hsg, rfl⟩ := hG.mem_plan
      (List.mem_append_left _ (List.mem_append_right _ hg))
    exact (hI.isFinished_iff (hmemP sg hsg)).mpr (htiles sg hsg)

namespace DispatchInv

variable {P : TilePlan τ ι} {s : Dispatch τ ι} {t : τ}

/-- The state before the first kernel is launched. -/
theorem init (P : TilePlan τ ι) : DispatchInv P (Dispatch.init P) := by
  refine ⟨HeapInv.init P, List.nodup_nil, ?_, by simp [Dispatch.init, Scheduler.handedOut]⟩
  change List.Forall₂ (GraphInv []) P.graphs (P.graphs.map (·.graph))
  rw [List.forall₂_map_right_iff]
  exact List.forall₂_same.mpr fun plan _ => GraphInv.init plan

/-- The plan of the graph in front. -/
theorem front (hI : DispatchInv P s) {G : TileGraph} {rest : List TileGraph}
    (hG : s.sched.tileGraph = G :: rest) :
    ∃ as plan bs, P.graphs = as ++ plan :: bs ∧
      List.Forall₂ (GraphInv s.sched.handedOut) as s.sched.completed ∧
      GraphInv s.sched.handedOut plan G ∧
      List.Forall₂ (GraphInv s.sched.handedOut) bs (rest ++ s.pending) := by
  have h := hI.graphs
  rw [hG, List.cons_append] at h
  exact forall₂_append_cons h

/-- Another graph object in front, with the same subgraphs at places that are as good. -/
theorem replaceFront (hI : DispatchInv P s) {G G' : TileGraph} {rest : List TileGraph}
    (hG : s.sched.tileGraph = G :: rest)
    (hnew : ∀ plan ∈ P.graphs, GraphInv s.sched.handedOut plan G →
      GraphInv s.sched.handedOut plan G') :
    DispatchInv P { s with sched := { s.sched with tileGraph := G' :: rest } } := by
  obtain ⟨as, plan, bs, hgraphs, hdone, hfront, hrest⟩ := hI.front hG
  have hplan : plan ∈ P.graphs := by simp [hgraphs]
  refine ⟨hI.heap, hI.finished_nodup, ?_, ?_⟩
  · rw [hgraphs]
    exact List.rel_append hdone (.cons (hnew plan hplan hfront) hrest)
  · have hlater := hI.later
    rw [hG] at hlater
    exact hlater

/-- Removing the graph in front, or leaving it. -/
theorem refresh (hI : DispatchInv P s) (now : ℕ) :
    DispatchInv P { s with sched := s.sched.refreshStatus now } := by
  rcases Scheduler.refreshStatus_cases s.sched now with ⟨heq, -⟩ | ⟨G, rest, m, n, hq, -, heq⟩
  · rw [heq]
    exact hI
  · rw [heq]
    refine ⟨?_, ?_, ?_, ?_⟩
    · simpa [Model.Scheduler.handedOut, Model.Scheduler.finished, finishedIn] using hI.heap
    · simpa [Model.Scheduler.finished, finishedIn] using hI.finished_nodup
    · have h := hI.graphs
      rw [hq] at h
      simpa [Model.Scheduler.handedOut, Model.Scheduler.completed] using h
    · intro plan hplan
      have hlen : ({ s.sched with tileGraph := rest }.log (.completed G m n)).completed.length =
          s.sched.completed.length + 1 := by
        simp [Model.Scheduler.completed]
      rw [hlen] at hplan
      have hmem : plan ∈ P.graphs.drop (s.sched.completed.length + 1) := by
        rw [← List.drop_drop] at hplan
        exact List.mem_of_mem_drop hplan
      have hlater := hI.later plan
      rw [hq, List.length_cons, Nat.min_eq_left (by omega)] at hlater
      simpa [Model.Scheduler.handedOut] using hlater hmem

/-- Appending a launched kernel to the queue. -/
theorem queue (hI : DispatchInv P s) {G : TileGraph} {rest : List TileGraph}
    (hp : s.pending = G :: rest) :
    DispatchInv P
      { sched := { s.sched with tileGraph := s.sched.tileGraph ++ [G] }, pending := rest } := by
  refine ⟨hI.heap, hI.finished_nodup, ?_, fun plan hplan => hI.later plan ?_⟩
  · have h := hI.graphs
    rw [hp] at h
    simpa [Model.Scheduler.handedOut, Model.Scheduler.completed] using h
  · have hdrop : ∀ m n, m ≤ n → plan ∈ P.graphs.drop n → plan ∈ P.graphs.drop m := by
      intro m n hmn hmem
      have heq : n = m + (n - m) := by omega
      rw [heq, ← List.drop_drop] at hmem
      exact List.mem_of_mem_drop hmem
    refine hdrop _ _ ?_ hplan
    change s.sched.completed.length + min 1 s.sched.tileGraph.length ≤
      s.sched.completed.length + min 1 (s.sched.tileGraph ++ [G]).length
    rw [List.length_append]
    omega

/-- Launching a kernel. -/
theorem launch (hI : DispatchInv P s) {G : TileGraph} {rest : List TileGraph}
    (hp : s.pending = G :: rest) (now : ℕ) :
    DispatchInv P { sched := s.sched.enqueueGraph now G, pending := rest } :=
  (hI.queue hp).refresh now

/-- Binding the next subgraph to a slot. -/
theorem bind (hI : DispatchInv P s) {G : TileGraph} {rest : List TileGraph} {core slot : ℕ}
    (hq : s.sched.tileGraph = G :: rest)
    (hfin : ∀ g, G.cpuGraphMap (core, slot) = some g →
      (s.sched.heap.subgraph g).isFinished = true) :
    DispatchInv P { s with sched := { s.sched with
      tileGraph := G.allocateSubgraph s.sched.heap core slot :: rest } } := by
  refine hI.replaceFront hq fun plan hplan hG => hG.allocate fun sg hsg hk => ?_
  have hsgP : sg ∈ P.subgraphs := List.mem_flatMap.mpr ⟨plan, hplan, hsg⟩
  exact (hI.heap.isFinished_iff hsgP).mp (hfin sg.id hk)

/-- The tile that `peek_tile` shows is a ready tile of a bound subgraph of the graph in
front. -/
theorem peek_some (hI : DispatchInv P s) {now core slot tie : ℕ} {ctype : CoreType}
    {sched' : Scheduler τ ι} (h : s.sched.peekTile now core slot tie ctype = (some t, sched')) :
    sched' = s.sched ∧ ∃ G rest as plan bs sg, s.sched.tileGraph = G :: rest ∧
      P.graphs = as ++ plan :: bs ∧ as.length = s.sched.completed.length ∧
      GraphInv s.sched.handedOut plan G ∧ sg ∈ plan.subgraphs ∧ sg.id ∈ G.allocated ∧
      t ∈ sg.tiles ∧ t ∈ (s.sched.heap.subgraph sg.id).readyTileQueue ∧
      s.sched.getTile now core slot tie =
        .ok (some t, (Scheduler.handOut s.sched now sg.id G rest t).refreshStatus now) := by
  obtain ⟨rfl, G, rest, g, hq, hk, hfin, htop⟩ := Scheduler.peekTile_eq_some h
  obtain ⟨as, plan, bs, hgraphs, hdone, hfront, -⟩ := hI.front hq
  have halloc : g ∈ G.allocated := hfront.mem_allocated hk
  have hslot : (core, slot) ∈ G.slots := by
    by_contra hnot
    rw [hfront.missing _ hnot] at hk
    cases hk
  obtain ⟨sg, hsg, rfl⟩ := hfront.mem_plan
    (List.mem_append_left _ (List.mem_append_right _ halloc))
  have hready := Heap.mem_of_topReadyTile htop
  have hsgP : sg ∈ P.subgraphs :=
    List.mem_flatMap.mpr ⟨plan, by simp [hgraphs], hsg⟩
  refine ⟨rfl, G, rest, as, plan, bs, sg, hq, hgraphs, hdone.length_eq, hfront, hsg, halloc,
    (hI.heap.mem_tiles_iff hsgP).mpr (.inl hready), hready, ?_⟩
  exact Scheduler.getTile_of_peek hq hslot hk hfin htop

/-- Handing out a ready tile of a bound subgraph of the graph in front. -/
theorem handOut (hI : DispatchInv P s) {G : TileGraph} {rest : List TileGraph}
    {as bs : List (GraphPlan τ)} {plan : GraphPlan τ} {sg : SubGraphPlan τ} (now : ℕ)
    (hq : s.sched.tileGraph = G :: rest) (hgraphs : P.graphs = as ++ plan :: bs)
    (hlen : as.length = s.sched.completed.length) (hsg : sg ∈ plan.subgraphs)
    (halloc : sg.id ∈ G.allocated) (ht : t ∈ sg.tiles)
    (hready : t ∈ (s.sched.heap.subgraph sg.id).readyTileQueue) :
    DispatchInv P { s with sched := Scheduler.handOut s.sched now sg.id G rest t } := by
  have hsgP : sg ∈ P.subgraphs := List.mem_flatMap.mpr ⟨plan, by simp [hgraphs], hsg⟩
  have hplan : t ∈ plan.tiles := List.mem_flatMap.mpr ⟨sg, hsg, ht⟩
  have hother := P.not_mem_other hgraphs hplan
  obtain ⟨as', plan', bs', hgraphs', hdone, hfront, hrest⟩ := hI.front hq
  obtain ⟨rfl, hcons⟩ := List.append_inj (hgraphs.symm.trans hgraphs')
    (hlen.trans hdone.length_eq.symm)
  obtain ⟨rfl, rfl⟩ := List.cons.inj hcons
  have hmono : ∀ other ∈ as ++ bs, ∀ H, GraphInv s.sched.handedOut other H →
      GraphInv (s.sched.handedOut ++ [t]) other H := by
    intro other hmem H hH
    refine hH.mono fun sg' hsg' _ ht' => ?_
    exact hother other hmem (List.mem_flatMap.mpr ⟨sg', hsg', ht'⟩)
  have hfront' : GraphInv (s.sched.handedOut ++ [t]) plan G := by
    refine hfront.mono fun sg' hsg' hvec ht' => ?_
    have hsgP' : sg' ∈ P.subgraphs := List.mem_flatMap.mpr ⟨plan, by simp [hgraphs], hsg'⟩
    rw [P.eq_of_mem_tiles hsgP' hsgP ht' ht] at hvec
    have hnodup : G.subgraphs.Nodup := by
      rw [hfront.subgraphs]
      have h := P.ids_nodup
      rw [hgraphs, List.flatMap_append, List.flatMap_cons, List.map_append, List.map_append] at h
      exact (List.nodup_append.mp (List.nodup_append.mp h).2.1).1
    rw [← hfront.placed.nodup_iff, List.append_assoc] at hnodup
    exact (List.nodup_append.mp hnodup).2.2 _ hvec _ (List.mem_append_left _ halloc) rfl
  refine ⟨?_, ?_, ?_, ?_⟩
  · simpa [Scheduler.handOut, Model.Scheduler.handedOut, Model.Scheduler.finished, finishedIn] using
      hI.heap.handOut hsgP hready
  · simpa [Scheduler.handOut, Model.Scheduler.finished, finishedIn] using hI.finished_nodup
  · have hstart : GraphInv (s.sched.handedOut ++ [t]) plan
        (if G.startTime = 0 then { G with startTime := now } else G) := by
      split
      · exact ⟨hfront'.subgraphs, hfront'.placed, hfront'.slots_nodup, hfront'.missing,
          hfront'.waiting, hfront'.drained⟩
      · exact hfront'
    have hall : List.Forall₂ (GraphInv (s.sched.handedOut ++ [t])) P.graphs
        (s.sched.completed ++ ((if G.startTime = 0 then { G with startTime := now } else G) ::
          rest ++ s.pending)) := by
      rw [hgraphs]
      refine List.rel_append ?_ (.cons hstart ?_)
      · exact List.forall₂_iff_zip.mpr ⟨hdone.length_eq, fun {a b} hab =>
          hmono a (List.mem_append_left _ (List.of_mem_zip hab).1) b
            ((List.forall₂_iff_zip.mp hdone).2 hab)⟩
      · exact List.forall₂_iff_zip.mpr ⟨hrest.length_eq, fun {a b} hab =>
          hmono a (List.mem_append_right _ (List.of_mem_zip hab).1) b
            ((List.forall₂_iff_zip.mp hrest).2 hab)⟩
    simpa [Scheduler.handOut, Model.Scheduler.handedOut, Model.Scheduler.completed] using hall
  · have hcompleted : (Scheduler.handOut s.sched now sg.id G rest t).completed =
        s.sched.completed := by
      simp [Scheduler.handOut, Model.Scheduler.completed]
    have hhanded : (Scheduler.handOut s.sched now sg.id G rest t).handedOut =
        s.sched.handedOut ++ [t] := by
      simp [Scheduler.handOut, Model.Scheduler.handedOut]
    intro other hmem u hu
    have hlater := hI.later other
    rw [hq, List.length_cons, Nat.min_eq_left (by omega)] at hlater
    have hone : min 1 (Scheduler.handOut s.sched now sg.id G rest t).tileGraph.length = 1 := by
      simp [Scheduler.handOut]
    rw [hcompleted, hone] at hmem
    have hunhanded := hlater hmem u hu
    have hbs : other ∈ bs := by
      rw [← hlen, hgraphs] at hmem
      simpa [List.drop_append, List.drop_eq_nil_of_le (Nat.le_succ as.length)] using hmem
    rw [hhanded, List.mem_append, not_or]
    refine ⟨hunhanded, fun h => ?_⟩
    rw [List.mem_singleton.mp h] at hu
    exact hother other (List.mem_append_right _ hbs) hu

/-- A core reports a tile it was given. -/
theorem finish (hI : DispatchInv P s) (ht : t ∈ s.sched.handedOut) (hfin : t ∉ s.sched.finished) :
    ∃ heap, s.sched.heap.finishTile t = .ok heap ∧ DispatchInv P
      { s with sched := { s.sched with heap := heap }.log (.finished t) } := by
  obtain ⟨heap, hrun, hheap⟩ := hI.heap.finish ht hfin
  refine ⟨heap, hrun, ?_, ?_, ?_, ?_⟩
  · simpa [Model.Scheduler.handedOut, Model.Scheduler.finished, finishedIn] using hheap
  · have hnodup := List.nodup_append.mpr ⟨hI.finished_nodup, List.nodup_singleton t, by
      intro a ha b hb hab
      rw [List.mem_singleton.mp hb] at hab
      exact hfin (hab ▸ ha)⟩
    simpa [Model.Scheduler.finished, finishedIn] using hnodup
  · simpa [Model.Scheduler.handedOut, Model.Scheduler.completed] using hI.graphs
  · simpa [Model.Scheduler.handedOut, Model.Scheduler.completed] using hI.later

/-- A `peek_tile` alone is idle or binds a subgraph. -/
theorem effect_peek (a : DispatchCall τ) (now core slot tie : ℕ) (ctype : CoreType) :
    DispatchEffect P s a
      { s with sched := (s.sched.peekTile now core slot tie ctype).2 } := by
  rcases Scheduler.peekTile_cases s.sched now core slot tie ctype with
    heq | ⟨G, rest, hq, hfin, heq⟩
  · rw [heq]
    exact .idle a
  · rw [heq]
    exact .bind a core slot hq hfin

/-- **A legal call** does not fail and has one of the effects. -/
theorem effect (hI : DispatchInv P s) (a : DispatchCall τ) (ha : s.Legal a) :
    ∃ s', s.step a = .ok s' ∧ DispatchEffect P s a s' := by
  cases a with
  | launch now =>
      unfold Model.Dispatch.step
      cases hp : s.pending with
      | nil => exact ⟨s, rfl, .idle _⟩
      | cons G rest => exact ⟨_, rfl, .launch now hp⟩
  | peek now core slot tie ctype => exact ⟨_, rfl, effect_peek _ now core slot tie ctype⟩
  | issue now core slot tie ctype =>
      unfold Model.Dispatch.step
      rcases hpeek : s.sched.peekTile now core slot tie ctype with ⟨shown, sched'⟩
      cases shown with
      | none =>
          refine ⟨_, by simp only [hpeek]; rfl, ?_⟩
          have h := @effect_peek _ _ _ P s (.issue now core slot tie ctype)
            now core slot tie ctype
          rwa [hpeek] at h
      | some t =>
          obtain ⟨rfl, G, rest, as, plan, bs, sg, hq, hgraphs, hlen, -, hsg, halloc, ht, hready,
            hget⟩ := hI.peek_some hpeek
          refine ⟨_, ?_, .handOut now core slot tie ctype hq hgraphs hlen hsg halloc ht hready
            hpeek⟩
          simp only [hpeek, hI.heap.status t, ne_eq, not_true_eq_false, if_false, hget]
          rfl
  | finish t =>
      obtain ⟨heap, hrun, -⟩ := hI.finish ha.1 ha.2
      refine ⟨_, ?_, .finish ha.1 ha.2 hrun⟩
      unfold Model.Dispatch.step Model.Scheduler.finishTile
      simp only [hrun]
      rfl

/-- The effects keep the invariant. -/
theorem of_effect (hI : DispatchInv P s) {a : DispatchCall τ} {s' : Dispatch τ ι}
    (h : DispatchEffect P s a s') : DispatchInv P s' := by
  cases h with
  | idle => exact hI
  | bind _ core slot hq hfin => exact hI.bind hq hfin
  | launch now hp => exact hI.launch hp now
  | handOut now _ _ _ _ hq hgraphs hlen hsg halloc ht hready =>
      exact (hI.handOut now hq hgraphs hlen hsg halloc ht hready).refresh now
  | finish ht hfin hrun =>
      obtain ⟨heap, hrun', hnew⟩ := hI.finish ht hfin
      rw [hrun] at hrun'
      cases hrun'
      exact hnew

/-- The invariant holds in every state a scheduler reaches. -/
theorem of_reach (h : Reach Dispatch.step Dispatch.Legal (Dispatch.init P) s) :
    DispatchInv P s := by
  refine h.invariant (init P) fun s a s' _ hI ha hs => ?_
  obtain ⟨s'', hs', heffect⟩ := hI.effect a ha
  rw [hs] at hs'
  cases hs'
  exact hI.of_effect heffect

end DispatchInv

end Dispatch

end PyTorchSim.Analysis
