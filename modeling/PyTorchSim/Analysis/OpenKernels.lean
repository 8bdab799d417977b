import PyTorchSim.Analysis.KernelRetirement

/-!
# The kernel in front is open

When every kernel has a tile, the graph in front of a scheduler has a tile that is not handed out:
the call that hands out the last tile removes the graph.  So a graph whose cores have nothing left
is not in the queue.
-/

set_option autoImplicit false

namespace PyTorchSim.Analysis

open PyTorchSim.Model PyTorchSim.Library

variable {τ ι : Type} [DecidableEq τ] {P : TilePlan τ ι} {d d' : Dispatch τ ι}

/-- Every kernel has a subgraph, and every subgraph a tile. -/
def Filled (P : TilePlan τ ι) : Prop :=
  P.Populated ∧ ∀ plan ∈ P.graphs, plan.subgraphs ≠ []

omit [DecidableEq τ] in
/-- A kernel has a tile. -/
theorem Filled.exists_tile (hP : Filled P) {plan : GraphPlan τ} (hplan : plan ∈ P.graphs) :
    ∃ t, t ∈ plan.tiles := by
  obtain ⟨sg, hsg⟩ := List.exists_mem_of_ne_nil _ (hP.2 plan hplan)
  have hsgP : sg ∈ P.subgraphs := List.mem_flatMap.mpr ⟨plan, hplan, hsg⟩
  obtain ⟨t, ht⟩ := List.exists_mem_of_ne_nil _ (hP.1 sg hsgP)
  exact ⟨t, List.mem_flatMap.mpr ⟨sg, hsg, ht⟩⟩

/-- The graph in front has a tile that is not handed out. -/
def FrontOpen (P : TilePlan τ ι) (d : Dispatch τ ι) : Prop :=
  ∀ G ∈ d.sched.tileGraph.head?, ∃ t ∈ tilesOf P G, t ∉ d.sched.handedOut

/-- The kernels that are retired have handed out all of their tiles. -/
def RetiredDone (P : TilePlan τ ι) (d : Dispatch τ ι) : Prop :=
  ∀ plan ∈ P.graphs.take d.sched.completed.length, ∀ t ∈ plan.tiles, t ∈ d.sched.handedOut

namespace RetiredDone

omit [DecidableEq τ] in
/-- No kernel is retired. -/
theorem of_subset (h : RetiredDone P d) (hcompleted : d'.sched.completed = d.sched.completed)
    (hhanded : d.sched.handedOut ⊆ d'.sched.handedOut) : RetiredDone P d' := by
  intro plan hplan t ht
  rw [hcompleted] at hplan
  exact hhanded (h plan hplan t ht)

/-- The graph that a refresh removes has handed out its tiles. -/
theorem refresh (h : RetiredDone P d) (hI : DispatchInv P d) (now : ℕ) :
    RetiredDone P { d with sched := d.sched.refreshStatus now } := by
  rcases Scheduler.refreshStatus_cases d.sched now with
    ⟨heq, -⟩ | ⟨G, rest, m, n, hq, hfin, heq⟩
  · rw [heq]
    exact h
  · rw [heq]
    obtain ⟨hhanded, -, hcompleted⟩ :=
      Scheduler.completed_log { d.sched with tileGraph := rest } G m n
    obtain ⟨as, plan, bs, hgraphs, hdone, hinv, -⟩ := hI.front hq
    have hplan : plan ∈ P.graphs := by simp [hgraphs]
    have hsame : ({ d.sched with tileGraph := rest } : Scheduler τ ι).completed =
        d.sched.completed := rfl
    intro other hother t ht
    rw [hcompleted, hsame, List.length_append, List.length_singleton, hgraphs,
      ← hdone.length_eq] at hother
    rw [hhanded]
    rcases OnlyNullRetired.mem_take_succ hother with hmem | rfl
    · refine h other ?_ t ht
      rwa [← hdone.length_eq, hgraphs, List.take_left]
    · exact hinv.handed_of_isFinished hI.heap hplan hfin t ht

theorem of_effect (h : RetiredDone P d) (hI : DispatchInv P d) {a : DispatchCall τ}
    (heffect : DispatchEffect P d a d') : RetiredDone P d' := by
  cases heffect with
  | idle => exact h
  | bind => exact h
  | @launch now G rest hp =>
      have hqueued : RetiredDone P
          { sched := { d.sched with tileGraph := d.sched.tileGraph ++ [G] }, pending := rest } := h
      exact hqueued.refresh (hI.queue hp) now
  | @handOut now core slot tie ctype t G rest as bs plan sg hq hgraphs hlen hsg halloc ht hready
      hpeek =>
      have hmid : RetiredDone P
          { d with sched := Scheduler.handOut d.sched now sg.id G rest t } := by
        refine h.of_subset ?_ ?_
        · simp [Scheduler.handOut, Model.Scheduler.completed]
        · simp [Scheduler.handOut, Model.Scheduler.handedOut]
      exact hmid.refresh (hI.handOut now hq hgraphs hlen hsg halloc ht hready) now
  | finish ht hfin hrun =>
      refine h.of_subset ?_ ?_
      · simp [Model.Scheduler.completed]
      · simp [Model.Scheduler.handedOut]

end RetiredDone

namespace FrontOpen

/-- The next graph in the queue is open. -/
theorem next (hP : Filled P) (hI : DispatchInv P d) {G H : TileGraph} {rest : List TileGraph}
    (hq : d.sched.tileGraph = G :: H :: rest) : ∃ t ∈ tilesOf P H, t ∉ d.sched.handedOut := by
  rcases OnlyNullRetired.next_unhanded hI hq with hnull | hopen
  · exfalso
    obtain ⟨as, plan, bs, hgraphs, -, -, hrest⟩ := hI.front hq
    rw [List.cons_append] at hrest
    cases hrest with
    | @cons plan' _ _ _ hnext _ =>
        have hmem : plan' ∈ P.graphs := by simp [hgraphs]
        obtain ⟨t, ht⟩ := hP.exists_tile hmem
        have ht' := (mem_tilesOf hnext hmem).mpr ht
        rw [hnull] at ht'
        exact List.not_mem_nil ht'
  · exact hopen

/-- After a refresh the graph in front is open. -/
theorem refresh (hP : Filled P) (hI : DispatchInv P d) (now : ℕ) :
    FrontOpen P { d with sched := d.sched.refreshStatus now } := by
  rcases Scheduler.refreshStatus_cases d.sched now with ⟨heq, hopen⟩ | ⟨G, rest, m, n, hq, -, heq⟩
  · rw [heq]
    intro G hG
    obtain ⟨rest, hq⟩ := List.head?_eq_some_iff.mp hG
    obtain ⟨as, plan, bs, hgraphs, -, hinv, -⟩ := hI.front hq
    have hplan : plan ∈ P.graphs := by simp [hgraphs]
    by_contra hnone
    push Not at hnone
    have hfin := hinv.isFinished_of_handed hI.heap hplan hP.1
      fun t ht => hnone t ((mem_tilesOf hinv hplan).mpr ht)
    rw [hopen G rest hq] at hfin
    cases hfin
  · rw [heq]
    intro H hH
    obtain ⟨rest', rfl⟩ := List.head?_eq_some_iff.mp hH
    have hnext := next hP hI hq
    rw [(Scheduler.completed_log _ G m n).1]
    exact hnext

/-- Every legal call keeps the graph in front open. -/
theorem of_effect (hP : Filled P) (hI : DispatchInv P d) (hO : FrontOpen P d)
    {a : DispatchCall τ} (h : DispatchEffect P d a d') : FrontOpen P d' := by
  cases h with
  | idle => exact hO
  | @bind _ G rest core slot hq hfin =>
      intro H hH
      have hsame : G.allocateSubgraph d.sched.heap core slot = H := by simpa using hH
      rw [← hsame]
      exact hO G (by simp [hq])
  | launch now hp => exact refresh hP (hI.queue hp) now
  | handOut now core slot tie ctype hq hgraphs hlen hsg halloc ht hready hpeek =>
      exact refresh hP (hI.handOut now hq hgraphs hlen hsg halloc ht hready) now
  | finish ht hfin hrun =>
      intro H hH
      have hfront := hO H hH
      rw [show (Model.Scheduler.log _ (DispatchEvent.finished _)).handedOut = d.sched.handedOut by
        simp [Model.Scheduler.handedOut, Model.Scheduler.log]]
      exact hfront

end FrontOpen

/-- A core takes the tile that it is shown. -/
theorem effect_issue (hI : DispatchInv P d) {now core slot tie : ℕ} {ctype : CoreType}
    {t : τ} {shown taken : Scheduler τ ι} {u : Option τ}
    (hpeek : d.sched.peekTile now core slot tie ctype = (some t, shown))
    (hget : shown.getTile now core slot tie = .ok (u, taken)) :
    DispatchEffect P d (.issue now core slot tie ctype) { d with sched := taken } := by
  obtain ⟨rfl, G, rest, as, plan, bs, sg, hq, hgraphs, hlen, -, hsg, halloc, ht, hready, hget'⟩ :=
    hI.peek_some hpeek
  rw [hget'] at hget
  obtain ⟨-, rfl⟩ := Prod.mk.inj (Except.ok.inj hget)
  exact .handOut now core slot tie ctype hq hgraphs hlen hsg halloc ht hready hpeek

/-! ## The cores of the slots -/

/-- The queued and the pending graphs are bound to cores that `C` holds of. -/
def SlotsOf (C : ℕ → Prop) (d : Dispatch τ ι) : Prop :=
  ∀ G ∈ d.sched.tileGraph ++ d.pending, ∀ k ∈ G.slots, C k.1

namespace SlotsOf

variable {C : ℕ → Prop}

omit [DecidableEq τ] in
/-- No new graphs. -/
theorem of_subset (hS : SlotsOf C d)
    (h : d'.sched.tileGraph ++ d'.pending ⊆ d.sched.tileGraph ++ d.pending) : SlotsOf C d' :=
  fun G hG => hS G (h hG)

theorem init (P : TilePlan τ ι) : SlotsOf C (Dispatch.init P) := by
  intro G hG k hk
  obtain ⟨plan, -, rfl⟩ := List.mem_map.mp (show G ∈ P.graphs.map (·.graph) from hG)
  have hfold : ∀ (sgs : List (SubGraphPlan τ)) (H : TileGraph),
      (sgs.foldl (fun g sg => g.appendSubgraph sg.id) H).slots = H.slots := by
    intro sgs
    induction sgs with
    | nil => exact fun H => rfl
    | cons sg sgs ih => exact fun H => ih _
  unfold GraphPlan.graph at hk
  rw [hfold] at hk
  exact absurd hk List.not_mem_nil

omit [DecidableEq τ] in
/-- A refresh drops the graph in front at most. -/
theorem refreshStatus_subset (q : Scheduler τ ι) (now : ℕ) :
    (q.refreshStatus now).tileGraph ⊆ q.tileGraph := by
  rcases Scheduler.refreshStatus_cases q now with ⟨heq, -⟩ | ⟨G, rest, m, n, hq, -, heq⟩
  · rw [heq]
    exact List.Subset.refl _
  · rw [heq, hq]
    exact List.subset_cons_self _ _

/-- A kernel is launched. -/
theorem launch (hS : SlotsOf C d) {now : ℕ}
    (h : d.step (.launch now) = .ok d') : SlotsOf C d' := by
  dsimp only [Dispatch.step] at h
  split at h
  · cases h
    exact hS
  · rename_i G rest hp
    cases h
    refine hS.of_subset fun H hH => ?_
    rw [hp]
    rcases List.mem_append.mp hH with hH | hH
    · rcases List.mem_append.mp (refreshStatus_subset _ now hH) with hH | hH
      · exact List.mem_append_left _ hH
      · rw [List.mem_singleton.mp hH]
        exact List.mem_append_right _ List.mem_cons_self
    · exact List.mem_append_right _ (List.mem_cons_of_mem G hH)

omit [DecidableEq τ] in
/-- Another graph object in front, bound to the same cores and to one more. -/
theorem replaceFront (hS : SlotsOf C d) {G G' : TileGraph} {rest : List TileGraph}
    (hq : d.sched.tileGraph = G :: rest) (hG : ∀ k ∈ G'.slots, k ∈ G.slots ∨ C k.1)
    {q : Scheduler τ ι} (hnew : q.tileGraph ⊆ G' :: rest) : SlotsOf C { d with sched := q } := by
  intro H hH k hk
  rcases List.mem_append.mp hH with hH | hH
  · rcases List.mem_cons.mp (hnew hH) with rfl | hH
    · rcases hG k hk with hk | hC
      · exact hS G (by simp [hq]) k hk
      · exact hC
    · exact hS H (List.mem_append_left _ (by rw [hq]; exact List.mem_cons_of_mem G hH)) k hk
  · exact hS H (List.mem_append_right _ hH) k hk

omit [DecidableEq τ] in
/-- A core asks for a tile. -/
theorem peek (hS : SlotsOf C d) (now core slot tie : ℕ) (ctype : CoreType) (hC : C core) :
    SlotsOf C { d with sched := (d.sched.peekTile now core slot tie ctype).2 } := by
  rcases Scheduler.peekTile_cases d.sched now core slot tie ctype with heq | ⟨G, rest, hq, -, heq⟩
  · rw [heq]
    exact hS
  · rw [heq]
    refine hS.replaceFront hq (fun k hk => ?_) (List.Subset.refl _)
    unfold Model.TileGraph.allocateSubgraph Model.TileGraph.setSlot at hk
    dsimp only at hk
    split at hk
    · exact .inl hk
    · rcases List.mem_append.mp hk with hk | hk
      · exact .inl hk
      · rw [List.mem_singleton.mp hk]
        exact .inr hC

/-- A core takes the tile that it is shown. -/
theorem issue (hS : SlotsOf C d) (hI : DispatchInv P d) {now core slot tie : ℕ}
    {ctype : CoreType} {t : τ} {shown taken : Scheduler τ ι} {u : Option τ}
    (hpeek : d.sched.peekTile now core slot tie ctype = (some t, shown))
    (hget : shown.getTile now core slot tie = .ok (u, taken)) :
    SlotsOf C { d with sched := taken } := by
  obtain ⟨rfl, G, rest, as, plan, bs, sg, hq, -, -, -, -, -, -, -, hget'⟩ := hI.peek_some hpeek
  rw [hget'] at hget
  obtain ⟨-, rfl⟩ := Prod.mk.inj (Except.ok.inj hget)
  have hfront : ((Scheduler.handOut d.sched now sg.id G rest t).refreshStatus now).tileGraph ⊆
      (if G.startTime = 0 then { G with startTime := now } else G) :: rest :=
    refreshStatus_subset _ now
  refine hS.replaceFront hq (fun k hk => .inl ?_) hfront
  split at hk
  · exact hk
  · exact hk

end SlotsOf

/-- A queue whose front shows nothing to the cores of its slots is empty. -/
theorem tileGraph_nil_of_empty {C : ℕ → Prop} (hI : DispatchInv P d) (hO : FrontOpen P d)
    (hS : SlotsOf C d) (hsome : ∃ core, C core)
    (hempty : ∀ core, C core → d.sched.emptyFor core = true) : d.sched.tileGraph = [] := by
  cases hq : d.sched.tileGraph with
  | nil => rfl
  | cons G rest =>
      exfalso
      have hshows : ∀ core, C core → G.empty core = true := by
        intro core hC
        have h := hempty core hC
        unfold Model.Scheduler.emptyFor at h
        rwa [hq] at h
      have hvec : G.subgraphVec = [] := by
        obtain ⟨core, hC⟩ := hsome
        exact List.isEmpty_iff.mp (Bool.and_eq_true_iff.mp (hshows core hC)).1
      have hslots : G.allocated = [] := by
        refine List.filterMap_eq_nil_iff.mpr fun k hk => ?_
        have hC : C k.1 := hS G (by simp [hq]) k hk
        have hall := (Bool.and_eq_true_iff.mp (hshows k.1 hC)).2
        have hat := List.all_eq_true.mp hall k hk
        simpa using hat
      obtain ⟨as, plan, bs, hgraphs, -, hinv, -⟩ := hI.front hq
      have hplan : plan ∈ P.graphs := by simp [hgraphs]
      obtain ⟨t, ht, hnot⟩ := hO G (by simp [hq])
      obtain ⟨sg, hsg, htsg⟩ := List.mem_flatMap.mp ((mem_tilesOf hinv hplan).mp ht)
      have hplace : sg.id ∈ G.subgraphVec ++ G.allocated ++ G.finishedSubgraphVec := by
        rw [hinv.placed.mem_iff, hinv.subgraphs]
        exact List.mem_map.mpr ⟨sg, hsg, rfl⟩
      rw [hvec, hslots, List.nil_append, List.nil_append] at hplace
      exact hnot (hinv.drained sg hsg hplace t htsg)

end PyTorchSim.Analysis
