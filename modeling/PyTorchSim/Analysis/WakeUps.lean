import PyTorchSim.Analysis.Completion

/-!
# The wake-ups of instructions

When the ready counters of a tile program are the numbers of parents, each counter stays the
number of unfinished parents, and an instruction enters the ready queue of its tile once: when
the tile is given to the core, if it has no parent, and otherwise when its last parent is
finished.  What left a ready queue was issued, so entries are counted as the content of the
queue and the record of issues.
-/

set_option autoImplicit false

namespace PyTorchSim.Analysis

open PyTorchSim.Model PyTorchSim.Library

variable {τ ι : Type} [DecidableEq τ] [DecidableEq ι] {P : TileProgram τ ι} {cfg : CoreConfig}
  {c c' : Core τ ι} {s : CoreSystem τ ι} {i j : ι} {t : τ}

/-- The parents of an instruction that a heap has not finished. -/
def unfinishedParents (P : TileProgram τ ι) (h : CoreHeap τ ι) (t : τ) (j : ι) : List ι :=
  (instsOf P t).filter fun i => !(h.inst i).finished && j ∈ (kindOf P i).childInst

/-- Each counter of the program is the number of parents. -/
def ExactCounters (P : TileProgram τ ι) : Prop :=
  ∀ t, ∀ j ∈ instsOf P t, (P.heap.inst j).readyCounter = (unfinishedParents P P.heap t j).length

/-- The instructions in a record of events that were issued. -/
def issuedIn (l : List (CoreEvent τ ι)) : List ι :=
  l.filterMap fun | .instIssued i => some i | _ => none

/-- How often an instruction was put in the ready queue of its tile: it is still there, or it
was taken out and issued. -/
def timesReady (c : Core τ ι) (t : τ) (j : ι) : ℕ :=
  (c.heap.tile t).readyQueue.count j + (issuedIn c.events).count j

/-- An instruction is issued after its parents are finished. -/
def Timely (P : TileProgram τ ι) (before : List (CoreEvent τ ι)) : CoreEvent τ ι → Prop
  | .instIssued j => ∀ t, j ∈ instsOf P t → ∀ i ∈ instsOf P t, j ∈ (kindOf P i).childInst →
      .instFinished i ∈ before
  | _ => True

/-- The counters and the ready queues of a core. -/
structure WakeInv (P : TileProgram τ ι) (c : Core τ ι) : Prop where
  exact : ∀ t, ∀ j ∈ instsOf P t,
    (c.heap.inst j).readyCounter = (unfinishedParents P c.heap t j).length
  entered : ∀ t, ∀ j ∈ instsOf P t, timesReady c t j =
    if t ∈ c.issuedTiles ∧ (c.heap.inst j).readyCounter = 0 then 1 else 0
  timely : AtEach (Timely P) c.events

/-! ## The steps that wake nothing -/

/-- Neither a tile nor an instruction is issued. -/
def Quiet : CoreEvent τ ι → Prop
  | .tileIssued _ => False
  | .instIssued _ => False
  | _ => True

/-- A step that changes no counter and no ready queue. -/
structure Unwoken (c c' : Core τ ι) : Prop where
  counter : ∀ i, (c'.heap.inst i).readyCounter = (c.heap.inst i).readyCounter
  finished : ∀ i, (c'.heap.inst i).finished = (c.heap.inst i).finished
  queue : ∀ t, (c'.heap.tile t).readyQueue = (c.heap.tile t).readyQueue
  events : ∃ l, c'.events = c.events ++ l ∧ ∀ e ∈ l, Quiet e

omit [DecidableEq τ] [DecidableEq ι] in
theorem issuedIn_quiet {l : List (CoreEvent τ ι)} (h : ∀ e ∈ l, Quiet e) : issuedIn l = [] := by
  refine List.filterMap_eq_nil_iff.mpr fun e he => ?_
  have hq := h e he
  cases e with
  | instIssued i => exact hq.elim
  | _ => rfl

omit [DecidableEq τ] [DecidableEq ι] in
theorem issuedTiles_quiet {l : List (CoreEvent τ ι)} (h : ∀ e ∈ l, Quiet e)
    (hev : c'.events = c.events ++ l) : c'.issuedTiles = c.issuedTiles := by
  unfold Core.issuedTiles
  rw [hev, List.filterMap_append, List.append_right_eq_self, List.filterMap_eq_nil_iff]
  intro e he
  have hq := h e he
  cases e with
  | tileIssued t => exact hq.elim
  | _ => rfl

omit [DecidableEq τ] in
theorem timely_quiet {e : CoreEvent τ ι} (h : Quiet e) (pre : List (CoreEvent τ ι)) :
    Timely P pre e := by
  cases e with
  | instIssued i => exact h.elim
  | _ => trivial

namespace Unwoken

omit [DecidableEq τ] [DecidableEq ι] in
theorem same {l : List (CoreEvent τ ι)} (hheap : c'.heap = c.heap)
    (hev : c'.events = c.events ++ l) (hl : ∀ e ∈ l, Quiet e) : Unwoken c c' := by
  refine ⟨fun i => ?_, fun i => ?_, fun t => ?_, l, hev, hl⟩ <;> rw [hheap]

omit [DecidableEq τ] [DecidableEq ι] in
theorem ofData (h : SameData c.heap c'.heap) (htile : c'.heap.tile = c.heap.tile)
    (hev : c'.events = c.events) : Unwoken c c' := by
  refine ⟨h.readyCounter, h.finished, fun t => ?_, [], ?_, by simp⟩
  · rw [htile]
  · rw [hev, List.append_nil]

omit [DecidableEq τ] in
theorem setTimes (c : Core τ ι) (p : Core.Pipeline) (i : ι) : Unwoken c (c.setTimes p i) :=
  ofData (.setInst rfl rfl rfl) rfl rfl

theorem inv (h : Unwoken c c') (hW : WakeInv P c) : WakeInv P c' := by
  obtain ⟨l, hev, hl⟩ := h.events
  have hparents : ∀ t j, unfinishedParents P c'.heap t j = unfinishedParents P c.heap t j := by
    intro t j
    unfold unfinishedParents
    simp only [h.finished]
  refine ⟨fun t j hj => ?_, fun t j hj => ?_, ?_⟩
  · rw [h.counter, hparents]
    exact hW.exact t j hj
  · have hissued : issuedIn c'.events = issuedIn c.events := by
      unfold issuedIn
      rw [hev, List.filterMap_append]
      exact (congrArg _ (issuedIn_quiet hl)).trans (List.append_nil _)
    unfold timesReady
    rw [h.queue, hissued, h.counter, issuedTiles_quiet hl hev]
    exact hW.entered t j hj
  · rw [hev]
    exact hW.timely.append fun e he pre => timely_quiet (hl e he) pre

end Unwoken

theorem WakeInv.congr (hW : WakeInv P c) (hheap : c'.heap = c.heap)
    (hev : c'.events = c.events) : WakeInv P c' :=
  (Unwoken.same (l := []) hheap (hev.trans (List.append_nil _).symm) (by simp)).inv hW

theorem WakeInv.setHeap (hW : WakeInv P c) (h : SameData c.heap c'.heap)
    (htile : c'.heap.tile = c.heap.tile) (hev : c'.events = c.events) : WakeInv P c' :=
  (Unwoken.ofData h htile hev).inv hW

/-! ## Finishing -/

/-- Finishing an instruction whose children wait for it wakes those that waited for nothing
else. -/
theorem WakeInv.finish (hW : WakeInv P c) (hkind : ∀ k, (c.heap.inst k).kind = kindOf P k)
    (hf : Finishable P c.heap i) (hflag : (c.heap.inst i).finished = false)
    (hi : i ∈ instsOf P (kindOf P i).owner) (hissued : (kindOf P i).owner ∈ c.issuedTiles) :
    WakeInv P (c.finish i) := by
  have hheap : (c.finish i).heap = c.heap.finish i := rfl
  have hqueue : ∀ t, ((c.finish i).heap.tile t).readyQueue =
      (c.heap.tile t).readyQueue ++ c.heap.readied (c.heap.inst i).childInst t := by
    intro t
    rw [hheap, CoreHeap.finish_tile hf.nodup hf.not_self]
  have hevents : issuedIn (c.finish i).events = issuedIn c.events := by
    unfold issuedIn
    exact (List.filterMap_append ..).trans (List.append_nil _)
  -- the counter of a child and the number of its unfinished parents go down together
  have hexact : ∀ t, ∀ j ∈ instsOf P t, ((c.finish i).heap.inst j).readyCounter =
      (unfinishedParents P (c.finish i).heap t j).length := by
    intro t j hj
    have hold := hW.exact t j hj
    simp only [unfinishedParents, ← List.countP_eq_length_filter] at hold ⊢
    by_cases hchild : j ∈ (kindOf P i).childInst
    · obtain ⟨hjmem, howner, hpos⟩ := hf.child j hchild
      have ht : t = (kindOf P i).owner := (P.owner t j hj).symm.trans howner
      have hless : (instsOf P t).countP (fun k => !(c.heap.inst k).finished &&
          j ∈ (kindOf P k).childInst) = (instsOf P t).countP (fun k =>
            !((c.heap.finish i).inst k).finished && j ∈ (kindOf P k).childInst) + 1 := by
        refine countP_finish (P.insts_nodup t) (ht ▸ hi) ?_ ?_ fun k _ hne => ?_
        · simp [hf.finished_eq]
        · simp [hflag, hchild]
        · rw [hf.finished_eq, if_neg hne]
      rw [hheap, hf.inst_child hchild]
      change (c.heap.inst j).readyCounter - 1 = _
      omega
    · have hkeep : ((c.heap.finish i).inst j).readyCounter = (c.heap.inst j).readyCounter := by
        by_cases hne : j = i
        · subst hne
          rw [hf.inst_self]
        · rw [hf.inst_of_not_child hne hchild]
      rw [hheap, hkeep, hold]
      refine List.countP_congr fun k _ => ?_
      by_cases hne : k = i
      · subst hne
        simp [hchild]
      · rw [hf.finished_eq, if_neg hne]
  refine ⟨hexact, fun t j hj => ?_, ?_⟩
  · have hold := hW.entered t j hj
    unfold timesReady at hold ⊢
    rw [hqueue, hevents, List.count_append, Core.issuedTiles_finish, hheap]
    by_cases hchild : j ∈ (kindOf P i).childInst
    · obtain ⟨hjmem, howner, hpos⟩ := hf.child j hchild
      have hjt : (kindOf P j).owner = t := P.owner t j hj
      have ht : t ∈ c.issuedTiles := by
        rw [← hjt, howner]
        exact hissued
      rw [if_neg fun hzero => absurd hzero.2 hpos.ne'] at hold
      have hnodup : (c.heap.readied (c.heap.inst i).childInst t).Nodup := hf.nodup.filter _
      by_cases hzero : ((c.heap.finish i).inst j).readyCounter = 0
      · rw [if_pos ⟨ht, hzero⟩, List.count_eq_one_of_mem hnodup
          ((hf.mem_readied hkind).mpr ⟨hchild, hzero, hjt⟩)]
        omega
      · have hnot : j ∉ c.heap.readied (c.heap.inst i).childInst t :=
          fun hmem => hzero ((hf.mem_readied hkind).mp hmem).2.1
        rw [if_neg fun h => hzero h.2, List.count_eq_zero_of_not_mem hnot]
        omega
    · have hnot : j ∉ c.heap.readied (c.heap.inst i).childInst t :=
        fun hmem => hchild ((hf.mem_readied hkind).mp hmem).1
      have hkeep : ((c.heap.finish i).inst j).readyCounter = (c.heap.inst j).readyCounter := by
        by_cases hne : j = i
        · subst hne
          rw [hf.inst_self]
        · rw [hf.inst_of_not_child hne hchild]
      rw [List.count_eq_zero_of_not_mem hnot, hkeep]
      omega
  · exact atEach_concat.mpr ⟨hW.timely, trivial⟩

/-- An instruction in hand is finished. -/
theorem WakeInv.finishHand (hW : WakeInv P c) (hI : CoreInv P c) (hi : Hand P c i false) :
    WakeInv P (c.finish i) :=
  hW.finish hI.placement.kind (hI.placement.finishable hi) hi.flag hi.mem hi.issued

/-- Instructions in hand are finished one after the other. -/
theorem WakeInv.finishAll {ws : List ι} (hW : WakeInv P c) (hI : CoreInv P c) (hws : ws.Nodup)
    (hhand : ∀ w ∈ ws, Hand P c w false) : WakeInv P (ws.foldl Core.finish c) := by
  induction ws generalizing c with
  | nil => exact hW
  | cons w ws ih =>
      obtain ⟨hw, hws⟩ := List.nodup_cons.mp hws
      have hhead := hhand w List.mem_cons_self
      obtain ⟨hfin, hkeep⟩ := hI.finishHand hhead
      refine ih (hW.finishHand hI hhead) hfin hws fun v hv => hkeep v false ?_
        (hhand v (List.mem_cons_of_mem w hv))
      exact fun heq => hw (heq ▸ hv)

/-- An instruction at a place of the units or the engine is finished. -/
theorem WakeInv.finishAt {p : Place τ} (hW : WakeInv P c) (hI : CoreInv P c)
    (hp : ∀ t, p ≠ .ready t) (hi : i ∈ elsewhere P c p)
    (hflag : p.finishedAt (kindOf P i) = false) : WakeInv P (c.finish i) := by
  have hmem : i ∈ places c.heap (elsewhere P c) p := by
    rw [places_eq hp]
    exact hi
  obtain ⟨hf, hfalse, -⟩ := hI.placement.finishOut hp hi hflag
  obtain ⟨hissued, hinsts⟩ := hI.placement.owned p i hmem
  exact hW.finish hI.placement.kind hf hfalse hinsts hissued

/-! ## The steps of a core -/

theorem UnitStep.wakes (h : UnitStep cfg c c') (hI : CoreInv P c) (hW : WakeInv P c) :
    WakeInv P c' := by
  cases h with
  | stats f => exact hW.congr rfl rfl
  | clock n => exact hW.congr rfl rfl
  | arrayTurn n => exact hW.congr rfl rfl
  | compute p i rest hp =>
      have hmem : i ∈ elsewhere P c (.pipe p) := by
        change i ∈ c.pipeline p
        rw [hp]
        exact List.mem_cons_self
      have hfin := hW.finishAt hI (by simp) hmem rfl
      cases p <;> exact hfin.congr rfl rfl
  | ssdNone hssd hcur => exact hW.congr rfl rfl
  | ssdWrite i hssd hcur hw =>
      have hmem : i ∈ elsewhere P c .dma := by simp [elsewhere, hcur]
      exact (hW.finishAt hI (by simp) hmem rfl).congr rfl rfl
  | ssdAsync i hssd hcur hr ha =>
      have hmem : i ∈ elsewhere P c .dma := by simp [elsewhere, hcur]
      exact (hW.finishAt hI (by simp) hmem rfl).congr rfl rfl
  | ssdSync i hssd hcur hr ha => exact hW.congr rfl rfl
  | drainWrite i rest hq hr => exact hW.congr rfl rfl
  | drainSync i rest hq hr ha =>
      have hop := (hI.isRead i).mp hr
      rw [hI.isAsync] at ha
      have hmem : i ∈ elsewhere P c .arrived := by simp [elsewhere, hq]
      refine WakeInv.congr (hW.finishAt hI (by simp) hmem ?_) rfl rfl
      simp [Place.finishedAt, hop, ha]
  | drainAsync i rest ws hq hr ha hws hlen =>
      obtain ⟨hI₁, hnodup, hhand⟩ := hI.arrive ((1 + ws.length) % 2 ^ 32) hq hr ha
      rw [hws] at hnodup hhand
      refine WakeInv.finishAll ?_ hI₁ hnodup hhand
      refine Unwoken.inv (c := c) ?_ hW
      exact Unwoken.same (l := [.dataReturned i]) rfl rfl (by simp [Quiet])
  | retireWrite i hfin hcur hw =>
      have hmem : i ∈ elsewhere P c .dma := by simp [elsewhere, hcur]
      exact (hW.finishAt hI (by simp) hmem rfl).congr rfl rfl
  | retireAsync i hfin hcur hr ha =>
      have hmem : i ∈ elsewhere P c .dma := by simp [elsewhere, hcur]
      exact (hW.finishAt hI (by simp) hmem rfl).congr rfl rfl
  | retireSync i hfin hcur hr ha => exact hW.congr rfl rfl
  | startLoad i rest hfin hcur hq => exact hW.congr rfl rfl
  | startStore i rest hfin hcur hq => exact hW.congr rfl rfl
  | oracle i n hcur hgen _ => exact hW.congr rfl rfl
  | generate i env hcur hgen hssd hfin =>
      exact hW.setHeap (.setInst rfl rfl rfl) rfl rfl
  | inject n hgen hssd => exact hW.congr rfl rfl
  | report t ht hall =>
      refine Unwoken.inv (c := c) ⟨fun _ => rfl, fun _ => rfl, fun u => ?_, [.tileFinished t], rfl,
        by simp [Quiet]⟩ hW
      change ((c.heap.setTile t _).tile u).readyQueue = _
      by_cases hut : u = t
      · subst hut
        rw [CoreHeap.setTile_tile_self]
      · rw [CoreHeap.setTile_tile_of_ne _ _ hut]

/-- The instruction in front of a ready queue is taken out and issued. -/
theorem WakeInv.take (hW : WakeInv P c) (hI : CoreInv P c)
    (hq : (c.heap.tile t).readyQueue.head? = some i) : WakeInv P (c.take t i) := by
  obtain ⟨rest, hrest⟩ := List.head?_eq_some_iff.mp hq
  have hplace : i ∈ places c.heap (elsewhere P c) (.ready t) := by
    change i ∈ (c.heap.tile t).readyQueue
    rw [hrest]
    exact List.mem_cons_self
  have hhome : (kindOf P i).owner = t := hI.placement.home t i hplace
  have hzero := hI.placement.zero _ i hplace
  have hissued : (c.take t i).issuedTiles = c.issuedTiles :=
    (Core.issuedTiles_log _ _).trans (List.append_nil _)
  have hevents : issuedIn (c.take t i).events = issuedIn c.events ++ [i] :=
    List.filterMap_append ..
  refine ⟨hW.exact, fun u j hj => ?_, atEach_concat.mpr ⟨hW.timely, fun u hiu k hk hchild => ?_⟩⟩
  · have hold := hW.entered u j hj
    unfold timesReady at hold ⊢
    rw [hevents, hissued]
    change ((c.heap.popReady t).tile u).readyQueue.count j + _ =
      if u ∈ c.issuedTiles ∧ (c.heap.inst j).readyCounter = 0 then 1 else 0
    rw [← hold, CoreHeap.popReady_tile, List.count_append]
    by_cases hut : u = t
    · subst hut
      simp only [hrest, List.tail_cons, List.count_cons, List.count_nil, if_true]
      omega
    · have hne : i ≠ j := by
        rintro rfl
        exact hut ((P.owner u i hj).symm.trans hhome)
      simp only [hut, if_false, List.count_cons, List.count_nil, beq_iff_eq, hne]
      omega
  · have hcount := hW.exact u i hiu
    rw [hzero] at hcount
    have hnil := List.eq_nil_of_length_eq_zero hcount.symm
    have hdone : (c.heap.inst k).finished = true := by
      by_contra hnot
      have hmem : k ∈ unfinishedParents P c.heap u i :=
        List.mem_filter.mpr ⟨hk, by simp [hnot, hchild]⟩
      rw [hnil] at hmem
      exact List.not_mem_nil hmem
    have hcall := (hI.ledger.calls k).mpr hdone
    obtain ⟨e, he, heq⟩ := List.mem_filterMap.mp hcall
    cases e with
    | instFinished k' =>
        cases heq
        exact he
    | _ => cases heq

theorem IssueEffect.wakes (h : IssueEffect i c c') (hI : CoreInv P c) (hW : WakeInv P c)
    (hi : Hand P c i false) : WakeInv P c' := by
  have hregister : Unwoken c (c.registerTag i) := Unwoken.same rfl rfl (by simp [Quiet])
  cases h with
  | sparseLoad hop hs =>
      obtain ⟨hI₁, hhand₁⟩ := hI.registerTag i
      obtain ⟨hI₂, hhand₂⟩ := hI₁.setTag (c.heap.inst i).subgraphId (c.heap.inst i).tagKey sparseTag
      refine WakeInv.finishHand ?_ hI₂ (hhand₂ _ _ (hhand₁ _ _ hi))
      exact (hregister.inv hW).congr rfl rfl
  | knownLoad v hop hs ha htag hv => exact hW.finishHand hI hi
  | awaitedLoad hop hs ha htag => exact hW.congr rfl rfl
  | load hop hs hnew => exact (hregister.inv hW).congr rfl rfl
  | store hop => exact hW.congr rfl rfl
  | comp p hop hcycle =>
      have htimes := (Unwoken.setTimes c p i).inv hW
      cases p <;> exact htimes.congr rfl rfl
  | compZero p hop hcycle =>
      obtain ⟨hI₁, hhand⟩ := hI.setTimes p i
      exact ((Unwoken.setTimes c p i).inv hW).finishHand hI₁ (hhand i false hi)
  | barSparse hop htag =>
      obtain ⟨hI₁, hhand⟩ := hI.setHeap (.skipMatmuls c.heap (c.heap.inst i).childInst)
        (CoreHeap.skipMatmuls_spec _ _).1
      have hskip : Unwoken c { c with
          heap := Core.skipMatmuls c.heap (c.heap.inst i).childInst } :=
        .ofData (.skipMatmuls c.heap (c.heap.inst i).childInst)
          (CoreHeap.skipMatmuls_spec _ c.heap).1 rfl
      exact (hskip.inv hW).finishHand hI₁ (hhand i false hi)
  | barReady v hop htag hv hs =>
      obtain ⟨hI₁, hhand⟩ := hI.setTag (c.heap.inst i).subgraphId (c.heap.inst i).tagKey
        ((v + 1) % 2 ^ 32)
      refine WakeInv.finishHand ?_ hI₁ (hhand i false hi)
      exact hW.congr rfl rfl
  | barWait hop htag => exact hW.congr rfl rfl

/-- A new tile is given to the core: its instructions without parents become ready. -/
theorem WakeInv.issue (hW : WakeInv P c) (hI : CoreInv P c) (ht : t ∉ c.issuedTiles) :
    WakeInv P (c.issue t) := by
  obtain ⟨hinst, htile⟩ := CoreHeap.foldl_enqueueReady (c.heap.tile t).instructions c.heap t
  have hissued : (c.issue t).issuedTiles = c.issuedTiles ++ [t] := Core.issuedTiles_log _ _
  have hevents : issuedIn (c.issue t).events = issuedIn c.events := by
    unfold issuedIn
    exact (List.filterMap_append ..).trans (List.append_nil _)
  have hparents : ∀ u j, unfinishedParents P (c.issue t).heap u j =
      unfinishedParents P c.heap u j := by
    intro u j
    unfold unfinishedParents
    change (instsOf P u).filter (fun k => !(((c.heap.tile t).instructions.foldl _ c.heap).inst
      k).finished && _) = _
    rw [hinst]
  have hcounter : ∀ j, ((c.issue t).heap.inst j).readyCounter = (c.heap.inst j).readyCounter := by
    intro j
    change ((((c.heap.tile t).instructions.foldl _ c.heap).inst j)).readyCounter = _
    rw [hinst]
  refine ⟨fun u j hj => ?_, fun u j hj => ?_, atEach_concat.mpr ⟨hW.timely, trivial⟩⟩
  · rw [hcounter, hparents]
    exact hW.exact u j hj
  · have hold := hW.entered u j hj
    unfold timesReady at hold ⊢
    rw [hevents, hissued, hcounter]
    change ((((c.heap.tile t).instructions.foldl _ c.heap).tile u).readyQueue).count j + _ = _
    rw [htile u, hI.placement.insts t, List.count_append]
    by_cases hut : u = t
    · subst hut
      have hcount : ((instsOf P u).filter fun i => (c.heap.inst i).isReady).count j =
          if (c.heap.inst j).readyCounter = 0 then 1 else 0 := by
        by_cases hzero : (c.heap.inst j).readyCounter = 0
        · rw [if_pos hzero]
          refine List.count_eq_one_of_mem ((P.insts_nodup u).filter _) ?_
          exact List.mem_filter.mpr ⟨hj, by simp [Instruction.isReady, hzero]⟩
        · rw [if_neg hzero]
          refine List.count_eq_zero_of_not_mem fun hmem => hzero ?_
          simpa [Instruction.isReady] using (List.mem_filter.mp hmem).2
      rw [if_neg fun h => ht h.1] at hold
      rw [if_pos rfl, hcount]
      simp only [List.mem_append, List.mem_singleton, or_true, true_and]
      omega
    · rw [if_neg hut, List.count_nil]
      simp only [List.mem_append, List.mem_singleton, hut, or_false]
      omega

theorem OuterStep.wakes (h : OuterStep c c') (hI : CoreInv P c) (hW : WakeInv P c) :
    WakeInv P c' := by
  cases h with
  | issue t ht => exact hW.issue hI ht
  | popFinishedTile =>
      unfold Core.popFinishedTile
      split
      · exact hW
      · exact hW.congr rfl rfl
  | popMemoryRequest r rest hq => exact hW.congr rfl rfl
  | pushMemoryResponse r =>
      unfold Core.pushMemoryResponse
      dsimp only
      split
      · exact hW.setHeap (.setInst rfl rfl rfl) rfl rfl
      · exact hW.setHeap (.setInst rfl rfl rfl) rfl rfl

/-- **Every step of a core keeps the counters exact.** -/
theorem CoreStep.wakes (h : CoreStep cfg c c') (hI : CoreInv P c) (hW : WakeInv P c) :
    WakeInv P c' := by
  rcases h with h | h | h
  · exact h.wakes hI hW
  · obtain ⟨t, i, -, hq, heffect⟩ := h
    obtain ⟨hI₁, hhand⟩ := hI.take hq
    exact heffect.wakes hI₁ (hW.take hI hq) hhand
  · exact h.wakes hI hW

/-- **The counters are exact in every reachable state.** -/
theorem wakeInv_of_reach (hP : ExactCounters P)
    (h : Reach (CoreSystem.step cfg) CoreSystem.Legal (CoreSystem.init P) s) :
    CoreInv P s.core ∧ WakeInv P s.core := by
  refine core_run_invariant h ⟨hP, fun t j hj => ?_, atEach_nil⟩
    fun _ _ hI hW hstep => hstep.wakes hI hW
  unfold timesReady
  rw [P.readyQueue t]
  exact (if_neg fun h => absurd h.1 List.not_mem_nil).symm

end PyTorchSim.Analysis
