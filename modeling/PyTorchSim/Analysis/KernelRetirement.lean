import PyTorchSim.Analysis.TileDispatch

/-!
# When a kernel is retired

`refresh_status` reports a kernel as completed and removes its tile graph when the graph
has handed out all of its tiles.  The tiles may still be running then: the last tile of a
graph is handed out by the very call of `get_tile` that refreshes the status, so a kernel
with a tile is always retired while that tile is unfinished, and tiles of the next kernel
can be handed out beside it.  Only the kernels without a tile are retired exactly.
-/

set_option autoImplicit false

namespace PyTorchSim.Analysis

open PyTorchSim.Model PyTorchSim.Library

variable {τ ι : Type} [DecidableEq τ]

/-- The tiles of the subgraphs of a tile graph. -/
def tilesOf (P : TilePlan τ ι) (G : TileGraph) : List τ :=
  (P.subgraphs.filter (·.id ∈ G.subgraphs)).flatMap (·.tiles)

/-- A graph is removed when all of its tiles are finished, and a tile is handed out when
the tiles of all earlier graphs are finished. -/
def RetirementExact (P : TilePlan τ ι) (before : List (DispatchEvent τ)) :
    DispatchEvent τ → Prop
  | .completed G _ _ => ∀ t ∈ tilesOf P G, t ∈ finishedIn before
  | .handedOut t => ∀ earlier plan later, P.graphs = earlier ++ plan :: later → t ∈ plan.tiles →
      ∀ prev ∈ earlier, ∀ u ∈ prev.tiles, u ∈ finishedIn before
  | .finished _ => True

/-- A call of `get_tile` leaves a tile of the graph in front that is not handed out. -/
def LeavesTile (P : TilePlan τ ι) (s : Dispatch τ ι) : DispatchCall τ → Prop
  | .issue now core slot tie ctype => ∀ t, (s.sched.peekTile now core slot tie ctype).1 = some t →
      ∀ G ∈ s.sched.tileGraph.head?, ∃ u ∈ tilesOf P G, u ≠ t ∧ u ∉ s.sched.handedOut
  | _ => True

section Plan

variable {P : TilePlan τ ι} {s s' : Dispatch τ ι} {handed : List τ} {plan : GraphPlan τ}
  {G : TileGraph} {t : τ}

omit [DecidableEq τ] in
/-- The tiles of a graph object are those of its plan. -/
theorem mem_tilesOf (hG : GraphInv handed plan G) (hplan : plan ∈ P.graphs) :
    t ∈ tilesOf P G ↔ t ∈ plan.tiles := by
  unfold tilesOf GraphPlan.tiles
  simp only [List.mem_flatMap, List.mem_filter, hG.subgraphs, decide_eq_true_eq, List.mem_map]
  constructor
  · rintro ⟨sg, ⟨hsg, sg', hsg', hid⟩, ht⟩
    have hsgP : sg' ∈ P.subgraphs := List.mem_flatMap.mpr ⟨plan, hplan, hsg'⟩
    rw [P.eq_of_id_eq hsgP hsg hid] at hsg'
    exact ⟨sg, hsg', ht⟩
  · rintro ⟨sg, hsg, ht⟩
    exact ⟨sg, ⟨List.mem_flatMap.mpr ⟨plan, hplan, hsg⟩, sg, hsg, rfl⟩, ht⟩

/-- What a call records comes after what is recorded. -/
theorem DispatchEffect.events_prefix {a : DispatchCall τ} (h : DispatchEffect P s a s') :
    s.sched.events <+: s'.sched.events := by
  have hrefresh : ∀ (q : Scheduler τ ι) now, q.events <+: (q.refreshStatus now).events := by
    intro q now
    rcases Scheduler.refreshStatus_cases q now with ⟨heq, -⟩ | ⟨G, rest, m, n, -, -, heq⟩
    · exact ⟨[], by rw [heq, List.append_nil]⟩
    · rw [heq]
      exact List.prefix_append _ _
  cases h with
  | idle => exact List.prefix_rfl
  | bind => exact List.prefix_rfl
  | launch now hp => exact hrefresh { s.sched with tileGraph := s.sched.tileGraph ++ [_] } now
  | @handOut now _ _ _ _ t G rest _ _ _ sg =>
      have hlog : s.sched.events <+: (Scheduler.handOut s.sched now sg.id G rest t).events :=
        List.prefix_append _ _
      exact hlog.trans (hrefresh _ now)
  | finish => exact List.prefix_append _ _

end Plan

/-! ## Runs that leave a tile -/

/-- Only kernels without a tile are retired, and exactly. -/
structure OnlyNullRetired (P : TilePlan τ ι) (s : Dispatch τ ι) : Prop where
  retired : ∀ plan ∈ P.graphs.take s.sched.completed.length, plan.tiles = []
  front : ∀ G ∈ s.sched.tileGraph.head?,
    tilesOf P G = [] ∨ ∃ u ∈ tilesOf P G, u ∉ s.sched.handedOut
  exact : AtEach (RetirementExact P) s.sched.events

namespace OnlyNullRetired

variable {P : TilePlan τ ι} {s : Dispatch τ ι}

omit [DecidableEq τ] in
/-- A graph of which no tile is handed out has no tile or one that is not handed out. -/
theorem front_of_unhanded {plan : GraphPlan τ} {G : TileGraph} {handed : List τ}
    (hG : GraphInv handed plan G) (hplan : plan ∈ P.graphs)
    (hnot : ∀ t ∈ plan.tiles, t ∉ handed) :
    tilesOf P G = [] ∨ ∃ u ∈ tilesOf P G, u ∉ handed := by
  cases htiles : tilesOf P G with
  | nil => exact .inl rfl
  | cons u us =>
      have hu : u ∈ tilesOf P G := by simp [htiles]
      exact .inr ⟨u, List.mem_cons_self, hnot u ((mem_tilesOf hG hplan).mp hu)⟩

/-- The next graph in the queue has no tile or one that is not handed out. -/
theorem next_unhanded (hI : DispatchInv P s) {G H : TileGraph} {rest : List TileGraph}
    (hq : s.sched.tileGraph = G :: H :: rest) :
    tilesOf P H = [] ∨ ∃ u ∈ tilesOf P H, u ∉ s.sched.handedOut := by
  obtain ⟨as, plan, bs, hgraphs, hdone, -, hrest⟩ := hI.front hq
  rw [List.cons_append] at hrest
  cases hrest with
  | @cons plan' _ _ _ hnext _ =>
      have hmem : plan' ∈ P.graphs := by simp [hgraphs]
      refine front_of_unhanded hnext hmem (hI.later plan' ?_)
      rw [hq, List.length_cons, Nat.min_eq_left (by omega), ← hdone.length_eq, hgraphs,
        List.drop_append]
      simp

omit [DecidableEq τ] in
/-- The kernels up to the one in front. -/
theorem mem_take_succ {as bs : List (GraphPlan τ)} {plan other : GraphPlan τ}
    (h : other ∈ (as ++ plan :: bs).take (as.length + 1)) : other ∈ as ∨ other = plan := by
  rw [List.take_append] at h
  rcases List.mem_append.mp h with h | h
  · exact .inl (List.mem_of_mem_take h)
  · refine .inr ?_
    simpa using h

/-- Refreshing the status retires the graph in front only if it has no tile. -/
theorem refresh (hR : OnlyNullRetired P s) (hI : DispatchInv P s) (now : ℕ) :
    OnlyNullRetired P { s with sched := s.sched.refreshStatus now } := by
  rcases Scheduler.refreshStatus_cases s.sched now with
    ⟨heq, -⟩ | ⟨G, rest, m, n, hq, hfin, heq⟩
  · rw [heq]
    exact hR
  · obtain ⟨as, plan, bs, hgraphs, hdone, hG, hrest⟩ := hI.front hq
    have hplan : plan ∈ P.graphs := by simp [hgraphs]
    have hhanded := hG.handed_of_isFinished hI.heap hplan hfin
    have hnull : tilesOf P G = [] := by
      rcases hR.front G (by simp [hq]) with h | ⟨u, hu, hunot⟩
      · exact h
      · exact absurd (hhanded u ((mem_tilesOf hG hplan).mp hu)) hunot
    have hplannull : plan.tiles = [] := by
      apply List.eq_nil_iff_forall_not_mem.mpr
      intro t ht
      rw [← mem_tilesOf hG hplan, hnull] at ht
      exact List.not_mem_nil ht
    rw [heq]
    refine ⟨?_, ?_, ?_⟩
    · intro other hother
      have hlen : ({ s.sched with tileGraph := rest }.log (.completed G m n)).completed.length =
          as.length + 1 := by
        rw [hdone.length_eq]
        simp [Model.Scheduler.completed]
      rw [hlen, hgraphs] at hother
      rcases mem_take_succ hother with h | rfl
      · refine hR.retired other ?_
        rw [← hdone.length_eq, hgraphs, List.take_left]
        exact h
      · exact hplannull
    · intro G' hG'
      obtain ⟨rest', rfl⟩ := List.head?_eq_some_iff.mp hG'
      have hnext := next_unhanded hI hq
      simpa [Model.Scheduler.handedOut] using hnext
    · refine atEach_concat.mpr ⟨hR.exact, ?_⟩
      intro t ht
      rw [hnull] at ht
      exact absurd ht List.not_mem_nil

/-- A call that leaves a tile of the graph in front keeps the exactness. -/
theorem of_effect (hR : OnlyNullRetired P s) (hI : DispatchInv P s) {a : DispatchCall τ}
    {s' : Dispatch τ ι} (hleaves : LeavesTile P s a) (h : DispatchEffect P s a s') :
    OnlyNullRetired P s' := by
  cases h with
  | idle => exact hR
  | @bind _ G rest core slot hq hfin =>
      refine ⟨hR.retired, fun G' hG' => ?_, hR.exact⟩
      have hsame : G.allocateSubgraph s.sched.heap core slot = G' := by simpa using hG'
      have hfront := hR.front G (by simp [hq])
      rw [← hsame]
      exact hfront
  | @launch now G rest hp =>
      have hqueued : DispatchInv P
          { sched := { s.sched with tileGraph := s.sched.tileGraph ++ [G] }, pending := rest } :=
        hI.queue hp
      have hnull : OnlyNullRetired P
          { sched := { s.sched with tileGraph := s.sched.tileGraph ++ [G] }, pending := rest } := by
        refine ⟨hR.retired, fun G' hG' => ?_, hR.exact⟩
        cases hq : s.sched.tileGraph with
        | cons H hs =>
            have hsame : H = G' := by simpa [hq] using hG'
            exact hR.front G' (by simp [hq, hsame])
        | nil =>
            have hsame : G = G' := by simpa [hq] using hG'
            subst hsame
            have hgraphs := hI.graphs
            rw [hq, hp, List.nil_append] at hgraphs
            obtain ⟨as, plan, bs, hsplit, hdone, hG, -⟩ := forall₂_append_cons hgraphs
            have hmem : plan ∈ P.graphs := by simp [hsplit]
            refine front_of_unhanded hG hmem (hI.later plan ?_)
            rw [hq, ← hdone.length_eq, hsplit]
            simp
      exact hnull.refresh hqueued now
  | @handOut now core slot tie ctype t G rest as bs plan sg hq hgraphs hlen hsg halloc ht hready
      hpeek =>
      have hmid := hI.handOut now hq hgraphs hlen hsg halloc ht hready
      suffices hnull : OnlyNullRetired P
          { s with sched := Scheduler.handOut s.sched now sg.id G rest t } from
        hnull.refresh hmid now
      refine ⟨?_, ?_, ?_⟩
      · simpa [Scheduler.handOut, Model.Scheduler.completed] using hR.retired
      · intro G' hG'
        obtain ⟨u, hu, hne, hunot⟩ := hleaves t (by rw [hpeek]) G (by simp [hq])
        have hsame : tilesOf P G' = tilesOf P G := by
          have hG'' : (if G.startTime = 0 then { G with startTime := now } else G) = G' := by
            simpa [Scheduler.handOut] using hG'
          rw [← hG'']
          split <;> rfl
        refine .inr ⟨u, hsame ▸ hu, ?_⟩
        simp only [Scheduler.handOut, Scheduler.handedOut_log]
        simp only [List.mem_append, List.mem_singleton, not_or]
        exact ⟨hunot, hne⟩
      · refine atEach_concat.mpr ⟨hR.exact, ?_⟩
        intro earlier plan' later hsplit ht' prev hprev u hu
        have hplan : t ∈ plan.tiles := List.mem_flatMap.mpr ⟨sg, hsg, ht⟩
        have hearlier : earlier = as := P.earlier_eq hsplit ht' hgraphs hplan
        have hold := hR.retired prev
        rw [← hlen, hgraphs, List.take_left, ← hearlier] at hold
        rw [hold hprev] at hu
        exact absurd hu List.not_mem_nil
  | finish =>
      refine ⟨?_, ?_, ?_⟩
      · simpa [Model.Scheduler.completed] using hR.retired
      · simpa [Model.Scheduler.handedOut] using hR.front
      · exact atEach_concat.mpr ⟨hR.exact, trivial⟩

end OnlyNullRetired

/-- A call of `get_tile` that hands out the last tile of the graph in front retires the
graph while that tile is unfinished. -/
theorem leavesTile_of_exact {P : TilePlan τ ι} (hP : P.Populated) {s s' : Dispatch τ ι}
    {a : DispatchCall τ} (hI : DispatchInv P s) (hs : s.step a = .ok s')
    (hexact : AtEach (RetirementExact P) s'.sched.events) : LeavesTile P s a := by
  cases a with
  | issue now core slot tie ctype =>
      intro t hpeek G hG
      rcases hshown : s.sched.peekTile now core slot tie ctype with ⟨shown, sched'⟩
      have hpeek' : shown = some t := by simpa [hshown] using hpeek
      subst hpeek'
      obtain ⟨rfl, G', rest, as, plan, bs, sg, hq, hgraphs, hlen, hinv, hsg, halloc, ht, hready,
        hget⟩ := hI.peek_some hshown
      have hsame : G' = G := by simpa [hq] using hG
      subst hsame
      have hplan : plan ∈ P.graphs := by simp [hgraphs]
      have hsgP : sg ∈ P.subgraphs := List.mem_flatMap.mpr ⟨plan, hplan, hsg⟩
      have htplan : t ∈ plan.tiles := List.mem_flatMap.mpr ⟨sg, hsg, ht⟩
      unfold Model.Dispatch.step at hs
      simp only [hshown, hI.heap.status t, ne_eq, not_true_eq_false, if_false, hget] at hs
      cases hs
      by_contra hnone
      push Not at hnone
      -- every tile of the graph is handed out now, so the refresh removes the graph
      have hmid := hI.handOut now hq hgraphs hlen hsg halloc ht hready
      have hqmid : (Scheduler.handOut s.sched now sg.id G' rest t).tileGraph =
          (if G'.startTime = 0 then { G' with startTime := now } else G') :: rest := rfl
      obtain ⟨as', plan', bs', hgraphs', hdone', hinv', -⟩ := hmid.front hqmid
      have hhanded : ∀ u ∈ plan.tiles,
          u ∈ (Scheduler.handOut s.sched now sg.id G' rest t).handedOut := by
        intro u hu
        simp only [Scheduler.handOut, Scheduler.handedOut_log, List.mem_append,
          List.mem_singleton]
        by_cases hut : u = t
        · exact .inr hut
        · exact .inl (hnone u ((mem_tilesOf hinv hplan).mpr hu) hut)
      have hlen' : as'.length = as.length := by
        rw [hdone'.length_eq, hlen]
        simp [Scheduler.handOut, Model.Scheduler.completed]
      obtain ⟨-, hcons⟩ := List.append_inj (hgraphs.symm.trans hgraphs') hlen'.symm
      obtain ⟨rfl, -⟩ := List.cons.inj hcons
      have hfin := hinv'.isFinished_of_handed hmid.heap hplan hP hhanded
      rcases Scheduler.refreshStatus_cases (Scheduler.handOut s.sched now sg.id G' rest t) now with
        ⟨-, hnot⟩ | ⟨H, rest', m, n, hqH, -, heq⟩
      · rw [hnot _ _ hqmid] at hfin
        cases hfin
      · have hHeq : (if G'.startTime = 0 then { G' with startTime := now } else G') = H :=
          (List.cons.inj (hqmid.symm.trans hqH)).1
        have hcompleted : RetirementExact P
            (Scheduler.handOut s.sched now sg.id G' rest t).events (.completed H m n) := by
          have hexact' : AtEach (RetirementExact P)
              ((Scheduler.handOut s.sched now sg.id G' rest t).events ++ [.completed H m n]) := by
            have := hexact
            simp only [heq] at this
            exact this
          exact (atEach_concat.mp hexact').2
        have htH : t ∈ tilesOf P H := by
          rw [← hHeq]
          exact (mem_tilesOf hinv' hplan).mpr htplan
        have hfinished : t ∈ s.sched.finished := by
          have hmem := hcompleted t htH
          simpa [Scheduler.handOut, finishedIn, Model.Scheduler.finished] using hmem
        have hnodup := hI.heap.placed_nodup hsgP
        rw [List.append_assoc] at hnodup
        refine (List.nodup_append.mp hnodup).2.2 t hready t (List.mem_append_right _ ?_) rfl
        simpa [ht] using hI.heap.finished_handed t hfinished
  | _ => trivial

/-- **When retirement is exact**: in a run of a scheduler a kernel is retired only after all
of its tiles finished, and tiles are handed out only after all tiles of the earlier kernels
finished, exactly when no call of `get_tile` hands out the last tile of the graph in front.
SOURCE: Scheduler.cc:20-71, TileGraph.cc:54-121, Simulator.cc:97-123 -/
theorem retirement_exact_iff (P : TilePlan τ ι) (hP : P.Populated) (s : Dispatch τ ι)
    (h : Reach Dispatch.step Dispatch.Legal (Dispatch.init P) s) :
    AtEach (RetirementExact P) s.sched.events ↔
      Reach Dispatch.step (fun s a => s.Legal a ∧ LeavesTile P s a) (Dispatch.init P) s := by
  constructor
  · intro hexact
    induction h with
    | init => exact .init
    | @step s s' a hr ha hs ih =>
        have hI := DispatchInv.of_reach hr
        obtain ⟨s'', hs', heffect⟩ := hI.effect a ha
        rw [hs] at hs'
        cases hs'
        have hleaves := leavesTile_of_exact hP hI hs hexact
        exact (ih (hexact.of_prefix heffect.events_prefix)).step a ⟨ha, hleaves⟩ hs
  · intro hr
    have hall : OnlyNullRetired P s := by
      refine hr.invariant ⟨by simp [Dispatch.init, Model.Scheduler.completed],
        by simp [Dispatch.init], atEach_nil⟩ fun s a s' hr hR ha hs => ?_
      have hI := DispatchInv.of_reach (hr.mono fun _ _ h => h.1)
      obtain ⟨s'', hs', heffect⟩ := hI.effect a ha.1
      rw [hs] at hs'
      cases hs'
      exact hR.of_effect hI ha.2 heffect
    exact hall.exact

/-- Two kernels of one tile each. -/
def twoKernels : TilePlan ℕ ℕ :=
  .ofFresh [{ subgraphs := [{ id := 0, tiles := [0] }] },
    { subgraphs := [{ id := 1, tiles := [1] }] }] []
    (by decide) (by decide) (by decide) (by simp)

/-- A core takes the tile of the first kernel and then the tile of the second. -/
def overlappingCalls : List (DispatchCall ℕ) :=
  [.launch 0, .launch 0, .peek 0 0 0 0 .wsMesh, .issue 0 0 0 0 .wsMesh,
    .peek 0 0 0 0 .wsMesh, .issue 0 0 0 0 .wsMesh]

/-- A run in which both kernels are retired and no tile is finished. -/
theorem twoKernels_reach : ∃ s,
    Reach Dispatch.step Dispatch.Legal (Dispatch.init twoKernels) s ∧
      (∃ G G' a b c d, s.sched.events =
        [.handedOut 0, .completed G a b, .handedOut 1, .completed G' c d] ∧
        tilesOf twoKernels G = [0]) := by
  refine ⟨_, Reach.of_foldlM overlappingCalls .init rfl ?_, _, _, _, _, _, _, rfl, by decide⟩
  intro s a ha
  simp only [overlappingCalls, List.mem_cons, List.not_mem_nil, or_false] at ha
  rcases ha with rfl | rfl | rfl | rfl | rfl | rfl <;> trivial

/-- Retirement is not exact: the first kernel is retired before its tile is finished. -/
theorem retirement_not_exact :
    ¬ ∀ s, Reach Dispatch.step Dispatch.Legal (Dispatch.init twoKernels) s →
      AtEach (RetirementExact twoKernels) s.sched.events := by
  intro hexact
  obtain ⟨s, hreach, G, G', a, b, c, d, hevents, htiles⟩ := twoKernels_reach
  have hretired := hexact s hreach [.handedOut 0] (.completed G a b) _ hevents
  have hfinished := hretired 0 (by simp [htiles])
  simp [finishedIn] at hfinished

/-- The condition fails in that run, so its events are not exact. -/
theorem retirement_exact_iff_twoKernels : ∃ s, s.sched.finished = [] ∧
    (AtEach (RetirementExact twoKernels) s.sched.events ↔
      Reach Dispatch.step (fun s a => s.Legal a ∧ LeavesTile twoKernels s a)
        (Dispatch.init twoKernels) s) := by
  obtain ⟨s, hreach, G, G', a, b, c, d, hevents, -⟩ := twoKernels_reach
  have hpopulated : twoKernels.Populated := by
    intro sg hsg
    simp only [TilePlan.subgraphs, twoKernels, TilePlan.ofFresh, List.flatMap_cons, List.flatMap_nil,
      List.append_nil, List.cons_append, List.nil_append, List.mem_cons, List.not_mem_nil,
      or_false] at hsg
    rcases hsg with rfl | rfl <;> simp
  exact ⟨s, by simp [Model.Scheduler.finished, finishedIn, hevents],
    retirement_exact_iff twoKernels hpopulated s hreach⟩

end PyTorchSim.Analysis
