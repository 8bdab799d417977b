import Mathlib.Data.List.MinMax
import PyTorchSim.Analysis.OpenKernels
import PyTorchSim.Analysis.TileDispatch

/-!
# The dispatch of tiles goes on

When the tiles of each subgraph depend on each other in no circle and every tile that was handed out
is finished, a kernel in the queue still has a tile for a core: a subgraph that is bound and not
finished has a ready tile, and when there is none, a waiting subgraph is bound to the core that asks
and has one at the next call.
-/

set_option autoImplicit false

namespace PyTorchSim.Analysis

open PyTorchSim.Model PyTorchSim.Library

variable {τ ι : Type} [DecidableEq τ] {P : TilePlan τ ι} {d d' : Dispatch τ ι}

/-! ## The cores of the subgraphs -/

/-- The subgraphs keep their cores. -/
def SameCores (h h' : Heap τ ι) : Prop :=
  ∀ g, (h'.subgraph g).coreId = (h.subgraph g).coreId

namespace SameCores

variable {h h' : Heap τ ι}

omit [DecidableEq τ] in
theorem refl (h : Heap τ ι) : SameCores h h := fun _ => rfl

omit [DecidableEq τ] in
theorem trans {h'' : Heap τ ι} (h₁ : SameCores h h') (h₂ : SameCores h' h'') : SameCores h h'' :=
  fun g => (h₂ g).trans (h₁ g)

omit [DecidableEq τ] in
/-- A subgraph gets other tiles. -/
theorem setSubgraph (h : Heap τ ι) (g : ℕ) {v : TileSubGraph τ}
    (hv : v.coreId = (h.subgraph g).coreId) : SameCores h (h.setSubgraph g v) := by
  intro k
  by_cases hk : k = g
  · simp [hk, hv]
  · rw [Heap.setSubgraph_subgraph_of_ne _ _ hk]

theorem addTile (h : Heap τ ι) (g : ℕ) (t : τ) : SameCores h (h.addTile g t) := by
  have hset := SameCores.setSubgraph h g
    (v := if (h.tile t).readyCounter = 0 then
      { h.subgraph g with readyTileQueue := (h.subgraph g).readyTileQueue ++ [t] }
      else { h.subgraph g with tileSet := (h.subgraph g).tileSet.insert t }) (by split <;> rfl)
  exact hset

theorem addTiles (g : ℕ) (ts : List τ) (h : Heap τ ι) :
    SameCores h (ts.foldl (fun h t => h.addTile g t) h) := by
  induction ts generalizing h with
  | nil => exact refl h
  | cons t ts ih => exact (addTile h g t).trans (ih _)

/-- A tile is finished. -/
theorem finishTile {t : τ} (hrun : h.finishTile t = .ok h') : SameCores h h' := by
  have hqueue : ∀ (cs : List τ) (g : ℕ) (h : Heap τ ι), SameCores h (h.queueReadyChildren g cs) := by
    intro cs g
    induction cs with
    | nil => exact fun h => refl h
    | cons c cs ih =>
        intro h
        unfold Model.Heap.queueReadyChildren at ih ⊢
        rw [List.foldl_cons]
        split_ifs with hcounter
        · exact ih h
        · exact (SameCores.setSubgraph h g (v := (h.subgraph g).makeReady c) rfl).trans (ih _)
  unfold Model.Heap.finishTile at hrun
  obtain ⟨h₁, hdec, hrun⟩ := bind_eq_ok.mp hrun
  cases hrun
  have hsame : SameCores h h₁ := by
    unfold Model.Heap.decChildren at hdec
    refine foldlM_invariant (I := SameCores h) _ hdec (refl h) ?_
    intro h₂ c h₃ _ h₂same hok
    unfold Model.Heap.decReadyCounter at hok
    split at hok
    · cases hok
    · cases hok
      exact h₂same
  exact hsame.trans (hqueue _ _ _)

end SameCores

/-- The subgraphs have the cores of the plan. -/
def CoreIds (P : TilePlan τ ι) (h : Heap τ ι) : Prop :=
  ∀ sg ∈ P.subgraphs, (h.subgraph sg.id).coreId = sg.coreId

theorem coreIds_init (P : TilePlan τ ι) : CoreIds P P.heap := by
  have hadd : ∀ (sgs : List (SubGraphPlan τ)) (h : Heap τ ι), (sgs.map (·.id)).Nodup →
      let h' := sgs.foldl (fun h sg => sg.tiles.foldl (fun h t => h.addTile sg.id t)
        (h.setSubgraph sg.id { coreId := sg.coreId })) h
      (∀ g ∉ sgs.map (·.id), (h'.subgraph g).coreId = (h.subgraph g).coreId) ∧
        ∀ sg ∈ sgs, (h'.subgraph sg.id).coreId = sg.coreId := by
    intro sgs
    induction sgs with
    | nil => simp
    | cons sg sgs ih =>
        intro h hids
        obtain ⟨hnot, hids⟩ := List.nodup_cons.mp hids
        obtain ⟨hother, hin⟩ := ih (sg.tiles.foldl (fun h t => h.addTile sg.id t)
          (h.setSubgraph sg.id { coreId := sg.coreId })) hids
        have hfirst := SameCores.addTiles sg.id sg.tiles
          (h.setSubgraph sg.id { coreId := sg.coreId })
        constructor
        · intro g hg
          rw [List.map_cons, List.mem_cons, not_or] at hg
          rw [List.foldl_cons, hother g hg.2, hfirst g,
            Heap.setSubgraph_subgraph_of_ne _ _ hg.1]
        · intro sg' hsg'
          rw [List.foldl_cons]
          rcases List.mem_cons.mp hsg' with rfl | hsg'
          · rw [hother _ hnot, hfirst, Heap.setSubgraph_subgraph_self]
          · exact hin sg' hsg'
  exact (hadd P.subgraphs _ P.ids_nodup).2

omit [DecidableEq τ] in
theorem SameCores.coreIds {h h' : Heap τ ι} (hsame : SameCores h h') (hP : CoreIds P h) :
    CoreIds P h' :=
  fun sg hsg => (hsame sg.id).trans (hP sg hsg)

/-- Every call keeps the cores of the subgraphs. -/
theorem DispatchEffect.coreIds {a : DispatchCall τ} (h : DispatchEffect P d a d')
    (hP : CoreIds P d.sched.heap) : CoreIds P d'.sched.heap := by
  have hrefresh : ∀ (q : Scheduler τ ι) (now : ℕ), (q.refreshStatus now).heap = q.heap := by
    intro q now
    unfold Model.Scheduler.refreshStatus
    split
    · rfl
    · split_ifs <;> rfl
  cases h with
  | idle => exact hP
  | bind => exact hP
  | launch now hp =>
      unfold Model.Scheduler.enqueueGraph
      rw [hrefresh]
      exact hP
  | @handOut now core slot tie ctype t G rest as bs plan sg =>
      rw [hrefresh]
      exact (SameCores.setSubgraph d.sched.heap sg.id
        (v := { d.sched.heap.subgraph sg.id with
          readyTileQueue := (d.sched.heap.subgraph sg.id).readyTileQueue.erase t }) rfl).coreIds hP
  | finish ht hfin hrun => exact (SameCores.finishTile hrun).coreIds hP

/-! ## Ready tiles -/

omit [DecidableEq τ] in
/-- One of several tiles is least. -/
theorem exists_least (f : τ → ℕ) {l : List τ} (hne : l ≠ []) : ∃ t ∈ l, ∀ u ∈ l, f t ≤ f u := by
  cases hmin : l.argmin f with
  | none => exact absurd (List.argmin_eq_none.mp hmin) hne
  | some t => exact ⟨t, List.argmin_mem hmin, fun u hu => List.le_of_mem_argmin hu hmin⟩

omit [DecidableEq τ] in
/-- A ready queue that is not empty shows a tile. -/
theorem topReadyTile_isSome {h : Heap τ ι} {g : ℕ} (tie : ℕ)
    (hne : (h.subgraph g).readyTileQueue ≠ []) : (h.topReadyTile g tie).isSome = true := by
  unfold Model.Heap.topReadyTile
  generalize (h.subgraph g).readyTileQueue = ready at hne
  obtain ⟨t, ht, hleast⟩ := exists_least (fun t => (h.tile t).requiredSramSize) hne
  have hmem : t ∈ ready.filter fun t =>
      ready.all fun u => (h.tile t).requiredSramSize ≤ (h.tile u).requiredSramSize := by
    simp only [List.mem_filter, List.all_eq_true, decide_eq_true_eq]
    exact ⟨ht, hleast⟩
  have hlength := List.length_pos_of_mem hmem
  simp [Nat.mod_lt _ hlength]

/-- The tiles depend on each other in no circle: the parents of a tile have a lower rank. -/
def Ranked (P : TilePlan τ ι) (rank : τ → ℕ) : Prop := ∀ e ∈ P.edges, rank e.1 < rank e.2

/-- A subgraph that is not finished has a ready tile when all tiles that were handed out are
finished. -/
theorem ready_of_quiet {rank : τ → ℕ} (hrank : Ranked P rank) {h : Heap τ ι} {handed fin : List τ}
    (hI : HeapInv P h handed fin) (hquiet : ∀ t ∈ handed, t ∈ fin) {sg : SubGraphPlan τ}
    (hsg : sg ∈ P.subgraphs) (hopen : (h.subgraph sg.id).isFinished = false) :
    (h.subgraph sg.id).readyTileQueue ≠ [] := by
  have hleft : sg.tiles.filter (· ∉ handed) ≠ [] := by
    intro hnone
    rw [List.filter_eq_nil_iff] at hnone
    rw [(hI.isFinished_iff hsg).mpr (by simpa using hnone)] at hopen
    cases hopen
  -- a tile of least rank that is not handed out
  obtain ⟨t, ht, hmin⟩ := exists_least rank hleft
  obtain ⟨htsg, hnot⟩ := List.mem_filter.mp ht
  simp only [decide_eq_true_eq] at hnot
  have hparents : pendingParents P.edges fin t = 0 := by
    rw [pendingParents_eq_zero]
    intro u hu
    apply hquiet
    by_contra hunot
    have hlt := hrank (u, t) hu
    have husg : u ∈ sg.tiles := by
      obtain ⟨sg', hsg', hp, hc⟩ := P.edges_local (u, t) hu
      rwa [P.eq_of_mem_tiles hsg hsg' htsg hc]
    have hle := hmin u (List.mem_filter.mpr ⟨husg, by simpa using hunot⟩)
    dsimp only at hlt
    omega
  have hready : t ∈ (h.subgraph sg.id).readyTileQueue := by
    rcases (hI.mem_tiles_iff hsg).mp htsg with hready | hset | hhanded
    · exact hready
    · exact absurd hparents (hI.waiting sg hsg t hset)
    · exact absurd hhanded.1 hnot
  exact List.ne_nil_of_mem hready

/-! ## Whole runs -/

/-- The calls that ask for tiles come from cores that `C` holds of. -/
def AsksFrom (C : ℕ → Prop) : DispatchCall τ → Prop
  | .peek _ core _ _ _ => C core
  | .issue _ core _ _ _ => C core
  | _ => True

/-- What every call keeps. -/
structure OpenInv (C : ℕ → Prop) (P : TilePlan τ ι) (d : Dispatch τ ι) : Prop where
  dispatch : DispatchInv P d
  front : FrontOpen P d
  slots : SlotsOf C d
  cores : CoreIds P d.sched.heap

theorem SlotsOf.step {C : ℕ → Prop} (hS : SlotsOf C d) (hI : DispatchInv P d) {a : DispatchCall τ}
    (hC : AsksFrom C a) (h : d.step a = .ok d') : SlotsOf C d' := by
  cases a with
  | launch now => exact hS.launch h
  | peek now core slot tie ctype =>
      cases h
      exact hS.peek now core slot tie ctype hC
  | issue now core slot tie ctype =>
      dsimp only [Dispatch.step] at h
      rcases hpeek : d.sched.peekTile now core slot tie ctype with ⟨shown, sched⟩
      rw [hpeek] at h
      cases shown with
      | none =>
          cases h
          have hshown := hS.peek now core slot tie ctype hC
          rwa [hpeek] at hshown
      | some t =>
          dsimp only at h
          split at h
          · cases h
          · obtain ⟨⟨u, taken⟩, hget, h⟩ := bind_eq_ok.mp h
            cases h
            exact hS.issue hI hpeek hget
  | finish t =>
      obtain ⟨sched, hsched, h⟩ := bind_eq_ok.mp h
      cases h
      unfold Model.Scheduler.finishTile at hsched
      obtain ⟨heap, -, hsched⟩ := bind_eq_ok.mp hsched
      cases hsched
      exact hS.of_subset (List.Subset.refl _)

theorem OpenInv.of_reach {C : ℕ → Prop} (hP : Filled P)
    (h : Reach Dispatch.step (fun s a => s.Legal a ∧ AsksFrom C a) (Dispatch.init P) d) :
    OpenInv C P d := by
  refine h.invariant (I := OpenInv C P) ?_ ?_
  · refine ⟨.init P, ?_, .init P, coreIds_init P⟩
    intro G hG
    cases hG
  · rintro s a s' - hI ⟨hlegal, hC⟩ hstep
    obtain ⟨t, hok, heffect⟩ := hI.dispatch.effect a hlegal
    rw [hstep] at hok
    cases hok
    exact ⟨hI.dispatch.of_effect heffect, hI.front.of_effect hP hI.dispatch heffect,
      hI.slots.step hI.dispatch hC hstep, heffect.coreIds hI.cores⟩

/-- The second of two calls of a core for a slot shows a tile, whenever the kernel in front has
arrived and is one for this kind of core. -/
def ShowsTile (d : Dispatch τ ι) (G : TileGraph) (core slot : ℕ) : Prop :=
  ∀ now tie tie' ctype, G.arrivalTime ≤ now →
    ((!G.stonneGraph && ctype = .wsMesh) || (G.stonneGraph && ctype = .stonne)) = true →
    ((d.sched.peekTile now core slot tie ctype).2.peekTile now core slot tie' ctype).1.isSome = true

omit [DecidableEq τ] in
/-- The call for a slot whose subgraph is not finished. -/
theorem peekTile_of_bound {q : Scheduler τ ι} {G : TileGraph} {rest : List TileGraph}
    {now core slot g : ℕ} {ctype : CoreType} (hq : q.tileGraph = G :: rest)
    (hnow : G.arrivalTime ≤ now)
    (hkind : ((!G.stonneGraph && ctype = .wsMesh) || (G.stonneGraph && ctype = .stonne)) = true)
    (hslot : G.cpuGraphMap (core, slot) = some g) (hopen : (q.heap.subgraph g).isFinished = false)
    (tie : ℕ) : q.peekTile now core slot tie ctype = (q.heap.topReadyTile g tie, q) := by
  unfold Model.Scheduler.peekTile
  rw [hq]
  simp only [Nat.not_lt.mpr hnow, hkind, if_false, if_true, Model.TileGraph.peekTile, hslot,
    hopen, Bool.false_eq_true]
  rw [← hq]

omit [DecidableEq τ] in
/-- A slot whose subgraph has a ready tile. -/
theorem showsTile_of_bound {G : TileGraph} {rest : List TileGraph} {core slot g : ℕ}
    (hq : d.sched.tileGraph = G :: rest) (hslot : G.cpuGraphMap (core, slot) = some g)
    (hopen : (d.sched.heap.subgraph g).isFinished = false)
    (hready : (d.sched.heap.subgraph g).readyTileQueue ≠ []) : ShowsTile d G core slot := by
  intro now tie tie' ctype hnow hkind
  rw [peekTile_of_bound hq hnow hkind hslot hopen, peekTile_of_bound hq hnow hkind hslot hopen]
  exact topReadyTile_isSome tie' hready

omit [DecidableEq τ] in
/-- A slot that is free, of a core that takes a waiting subgraph with a ready tile. -/
theorem showsTile_of_free {G : TileGraph} {rest : List TileGraph} {core slot g : ℕ}
    (hq : d.sched.tileGraph = G :: rest)
    (hfree : ∀ g, G.cpuGraphMap (core, slot) = some g →
      (d.sched.heap.subgraph g).isFinished = true)
    (hnext : G.nextSubgraph d.sched.heap core = some g)
    (hopen : (d.sched.heap.subgraph g).isFinished = false)
    (hready : (d.sched.heap.subgraph g).readyTileQueue ≠ []) : ShowsTile d G core slot := by
  intro now tie tie' ctype hnow hkind
  have hbound : (G.allocateSubgraph d.sched.heap core slot).cpuGraphMap (core, slot) = some g := by
    have hsame : ({ G with finishedSubgraphVec := G.finishedSubgraphVec ++
        (G.cpuGraphMap (core, slot)).toList } : TileGraph).nextSubgraph d.sched.heap core =
        some g := hnext
    unfold Model.TileGraph.allocateSubgraph Model.TileGraph.setSlot
    simp [hsame]
  have hpeek : d.sched.peekTile now core slot tie ctype = (none, { d.sched with
      tileGraph := G.allocateSubgraph d.sched.heap core slot :: rest }) := by
    unfold Model.Scheduler.peekTile
    rw [hq]
    simp only [Nat.not_lt.mpr hnow, hkind, if_false, if_true, Model.TileGraph.peekTile]
    cases hslot : G.cpuGraphMap (core, slot) with
    | none => rfl
    | some g' => simp [hfree g' hslot]
  have hsecond := peekTile_of_bound (q := { d.sched with
    tileGraph := G.allocateSubgraph d.sched.heap core slot :: rest }) rfl hnow hkind hbound hopen
    tie'
  rw [hpeek, hsecond]
  exact topReadyTile_isSome tie' hready

/-- **The dispatch goes on**: in every state that a scheduler reaches by calls from the cores that
`C` holds of, when the tiles depend on each other in no circle, every subgraph may run on one of
these cores, and all tiles that were handed out are finished, a kernel in front of the queue has a
core and a slot for which the second of two calls shows a tile. -/
theorem dispatch_goes_on (P : TilePlan τ ι) (hP : Filled P) (rank : τ → ℕ) (hrank : Ranked P rank)
    (C : ℕ → Prop) (hC : ∀ sg ∈ P.subgraphs, ∃ core, C core ∧ (sg.coreId = -1 ∨ sg.coreId = core))
    (d : Dispatch τ ι)
    (h : Reach Dispatch.step (fun s a => s.Legal a ∧ AsksFrom C a) (Dispatch.init P) d)
    (hquiet : ∀ t ∈ d.sched.handedOut, t ∈ d.sched.finished) (G : TileGraph)
    (hG : d.sched.tileGraph.head? = some G) : ∃ core slot, C core ∧ ShowsTile d G core slot := by
  have hI := OpenInv.of_reach hP h
  obtain ⟨rest, hq⟩ := List.head?_eq_some_iff.mp hG
  obtain ⟨as, plan, bs, hgraphs, -, hinv, -⟩ := hI.dispatch.front hq
  have hplan : plan ∈ P.graphs := by simp [hgraphs]
  have hmemP : ∀ sg ∈ plan.subgraphs, sg ∈ P.subgraphs := fun sg hsg =>
    List.mem_flatMap.mpr ⟨plan, hplan, hsg⟩
  have hheap := hI.dispatch.heap
  by_cases hbound : ∃ k ∈ G.slots, ∃ g, G.cpuGraphMap k = some g ∧
      (d.sched.heap.subgraph g).isFinished = false
  · obtain ⟨⟨core, slot⟩, hslot, g, hk, hopen⟩ := hbound
    obtain ⟨sg, hsg, rfl⟩ := hinv.mem_plan (List.mem_append_left _
      (List.mem_append_right _ (hinv.mem_allocated hk)))
    refine ⟨core, slot, hI.slots G (by simp [hq]) _ hslot, ?_⟩
    exact showsTile_of_bound hq hk hopen (ready_of_quiet hrank hheap hquiet (hmemP sg hsg) hopen)
  · -- all bound subgraphs are finished, so one is waiting
    push Not at hbound
    have hfinished : ∀ k g, G.cpuGraphMap k = some g →
        (d.sched.heap.subgraph g).isFinished = true := by
      intro k g hk
      by_contra hopen
      have hslot : k ∈ G.slots := by
        by_contra hnot
        rw [hinv.missing k hnot] at hk
        cases hk
      exact hbound k hslot g hk (by simpa using hopen)
    obtain ⟨t, ht, hnot⟩ := hI.front G (by simp [hq])
    obtain ⟨sg, hsg, htsg⟩ := List.mem_flatMap.mp ((mem_tilesOf hinv hplan).mp ht)
    have hwaiting : sg.id ∈ G.subgraphVec := by
      have hplace : sg.id ∈ G.subgraphVec ++ G.allocated ++ G.finishedSubgraphVec := by
        rw [hinv.placed.mem_iff, hinv.subgraphs]
        exact List.mem_map_of_mem hsg
      simp only [List.mem_append] at hplace
      rcases hplace with (hvec | halloc) | hdone
      · exact hvec
      · obtain ⟨k, -, hk⟩ := List.mem_filterMap.mp halloc
        exact absurd ((hheap.isFinished_iff (hmemP sg hsg)).mp (hfinished k _ hk) t htsg) hnot
      · exact absurd (hinv.drained sg hsg hdone t htsg) hnot
    obtain ⟨core, hcore, hallowed⟩ := hC sg (hmemP sg hsg)
    have hcoreId := hI.cores sg (hmemP sg hsg)
    obtain ⟨g, hnext⟩ : ∃ g, G.nextSubgraph d.sched.heap core = some g := by
      unfold Model.TileGraph.nextSubgraph
      rw [← Option.isSome_iff_exists, List.find?_isSome]
      refine ⟨sg.id, hwaiting, ?_⟩
      rw [hcoreId]
      simpa using hallowed
    have hgvec : g ∈ G.subgraphVec := List.mem_of_find?_eq_some hnext
    obtain ⟨sg', hsg', rfl⟩ := hinv.mem_plan
      (List.mem_append_left _ (List.mem_append_left _ hgvec))
    have hopen : (d.sched.heap.subgraph sg'.id).isFinished = false := by
      obtain ⟨u, hu⟩ := List.exists_mem_of_ne_nil _ (hP.1 sg' (hmemP sg' hsg'))
      rw [← Bool.not_eq_true, hheap.isFinished_iff (hmemP sg' hsg')]
      exact fun hall => hinv.waiting sg' hsg' hgvec u hu (hall u hu)
    exact ⟨core, 0, hcore, showsTile_of_free hq (fun g hk => hfinished _ g hk) hnext hopen
      (ready_of_quiet hrank hheap hquiet (hmemP sg' hsg') hopen)⟩

/-- When the first of two tiles is finished, the second one is shown. -/
theorem dispatch_goes_on_chain : ∃ (d : Dispatch ℕ ℕ) (G : TileGraph), d.sched.finished = [0] ∧
    d.sched.tileGraph.head? = some G ∧ ∃ core slot, core < 1 ∧ ShowsTile d G core slot := by
  have hP : Filled chainKernel := by
    constructor
    · intro sg hsg
      simp only [TilePlan.subgraphs, chainKernel, TilePlan.ofFresh, List.flatMap_cons,
        List.flatMap_nil, List.append_nil, List.mem_singleton] at hsg
      simp [hsg]
    · intro plan hplan
      simp only [chainKernel, TilePlan.ofFresh, List.mem_singleton] at hplan
      simp [hplan]
  have hrank : Ranked chainKernel id := by
    intro e he
    simp only [chainKernel, TilePlan.ofFresh, List.mem_singleton] at he
    simp [he]
  have hC : ∀ sg ∈ chainKernel.subgraphs, ∃ core : ℕ, core < 1 ∧
      (sg.coreId = -1 ∨ sg.coreId = core) := by
    intro sg hsg
    simp only [TilePlan.subgraphs, chainKernel, TilePlan.ofFresh, List.flatMap_cons,
      List.flatMap_nil, List.append_nil, List.mem_singleton] at hsg
    exact ⟨0, Nat.one_pos, .inl (by simp [hsg])⟩
  have hinit : Reach Dispatch.step (fun s a => s.Legal a ∧ AsksFrom (· < 1) a)
      (Dispatch.init chainKernel) _ := .init
  obtain ⟨s, hs, hrun⟩ := hinit.exists_of_foldlM
    [.launch 0, .peek 0 0 0 0 .wsMesh, .issue 0 0 0 0 .wsMesh]
    (fun s => (s.sched.handedOut, s.sched.finished, ((s.step (.finish 0)).toOption.map fun t =>
      (t.sched.handedOut, t.sched.finished, t.sched.tileGraph.length))))
    (b := ([0], [], some ([0], [0], 1))) rfl (by
      intro s a ha
      simp only [List.mem_cons, List.not_mem_nil, or_false] at ha
      rcases ha with rfl | rfl | rfl <;> simp [Dispatch.Legal, AsksFrom])
  simp only [Prod.mk.injEq] at hrun
  obtain ⟨hhanded, hnone, hfinish⟩ := hrun
  cases hstep : s.step (.finish 0) with
  | error e =>
      rw [hstep] at hfinish
      cases hfinish
  | ok d =>
      rw [hstep] at hfinish
      simp only [Except.toOption, Option.map_some, Option.some.injEq, Prod.mk.injEq] at hfinish
      obtain ⟨hhanded', hfinished, hlength⟩ := hfinish
      have hlegal : s.Legal (.finish 0) := by
        simp [Dispatch.Legal, hhanded, hnone]
      have hasks : AsksFrom (· < 1) (.finish 0 : DispatchCall ℕ) := trivial
      have hd := hs.step (.finish 0) ⟨hlegal, hasks⟩ hstep
      obtain ⟨G, hG⟩ : ∃ G, d.sched.tileGraph.head? = some G := by
        cases hq : d.sched.tileGraph with
        | nil => simp [hq] at hlength
        | cons G rest => exact ⟨G, rfl⟩
      refine ⟨d, G, hfinished, hG, ?_⟩
      exact dispatch_goes_on chainKernel hP id hrank (· < 1) hC d hd
        (by rw [hhanded', hfinished]; exact fun _ => id) G hG

end PyTorchSim.Analysis
