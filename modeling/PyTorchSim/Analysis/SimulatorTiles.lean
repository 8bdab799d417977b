import PyTorchSim.Analysis.Completion
import PyTorchSim.Analysis.DispatchInvariant
import PyTorchSim.Analysis.RequestQueue
import PyTorchSim.Analysis.SimulatorOutcome

/-!
# The tiles of a simulator

The schedulers of the partitions and the cores keep their own records of the tiles.  `TilesInv`
ties them together: a tile that a core was given was handed out by the scheduler of its
partition, to this core only, and is not reported to the scheduler while the core holds it.  So
the simulator calls the schedulers and the cores only as their invariants demand.
-/

set_option autoImplicit false

namespace PyTorchSim.Analysis

open PyTorchSim.Model PyTorchSim.Library

variable {τ ι : Type} [DecidableEq τ] [DecidableEq ι] {P : TileProgram τ ι}

/-! ## The tiles that a core holds -/

section Held

variable {c c' : Core τ ι} {cfg : CoreConfig} {i : ι} {t : τ}

/-- The core works on the tile, or its report is not taken yet. -/
def Held (c : Core τ ι) (t : τ) : Prop := t ∈ c.tiles ∨ t ∈ c.finishedTiles

/-- No tile comes to the core. -/
structure KeepsTiles (c c' : Core τ ι) : Prop where
  issued : c'.issuedTiles = c.issuedTiles
  held : ∀ t, Held c' t → Held c t

namespace KeepsTiles

omit [DecidableEq τ] [DecidableEq ι] in
theorem trans {c'' : Core τ ι} (h : KeepsTiles c c') (h' : KeepsTiles c' c'') : KeepsTiles c c'' :=
  ⟨h'.issued.trans h.issued, fun t ht => h.held t (h'.held t ht)⟩

omit [DecidableEq τ] [DecidableEq ι] in
theorem log (c : Core τ ι) (e : CoreEvent τ ι) (he : ∀ t, e ≠ .tileIssued t) :
    KeepsTiles c (c.log e) := by
  refine ⟨?_, fun _ => id⟩
  rw [Core.issuedTiles_log]
  cases e with
  | tileIssued t => exact absurd rfl (he t)
  | _ => exact List.append_nil _

theorem finish (c : Core τ ι) (i : ι) : KeepsTiles c (c.finish i) :=
  ⟨Core.issuedTiles_finish c i, fun _ => id⟩

theorem thenFinish (h : KeepsTiles c c') (i : ι) : KeepsTiles c (c'.finish i) :=
  h.trans (finish c' i)

theorem finishAll (ws : List ι) (c : Core τ ι) : KeepsTiles c (ws.foldl Core.finish c) := by
  induction ws generalizing c with
  | nil => exact ⟨rfl, fun _ => id⟩
  | cons w ws ih => exact (finish c w).trans (ih _)

omit [DecidableEq τ] [DecidableEq ι] in
theorem registerTag (c : Core τ ι) (i : ι) : KeepsTiles c (c.registerTag i) :=
  ⟨(log c (.tagRegistered i _) (by simp)).issued, fun _ => id⟩

end KeepsTiles

theorem UnitStep.keepsTiles (h : UnitStep cfg c c') : KeepsTiles c c' := by
  cases h with
  | compute p i rest hp =>
      have hfinish := KeepsTiles.finish c i
      cases p <;> exact ⟨hfinish.issued, hfinish.held⟩
  | ssdWrite i _ _ _ => exact (KeepsTiles.finish _ i).trans ⟨rfl, fun _ => id⟩
  | ssdAsync i _ _ _ _ => exact (KeepsTiles.finish _ i).trans ⟨rfl, fun _ => id⟩
  | drainSync i rest _ _ _ => exact (KeepsTiles.finish _ i).trans ⟨rfl, fun _ => id⟩
  | drainAsync i rest ws _ _ _ _ _ =>
      have hlog : KeepsTiles c ({ c.setTag (c.heap.inst i).subgraphId (c.heap.inst i).tagKey
          ((1 + ws.length) % 2 ^ 32) with dmaFinishedQueue := rest }.log (.dataReturned i)) :=
        ⟨(KeepsTiles.log c (.dataReturned i) (by simp)).issued, fun _ => id⟩
      exact hlog.trans (.finishAll ws _)
  | retireWrite i _ _ _ => exact (KeepsTiles.finish _ i).trans ⟨rfl, fun _ => id⟩
  | retireAsync i _ _ _ _ => exact (KeepsTiles.finish _ i).trans ⟨rfl, fun _ => id⟩
  | report t ht _ =>
      refine ⟨(KeepsTiles.log c (.tileFinished t) (by simp)).issued, fun u hu => ?_⟩
      rcases hu with hu | hu
      · exact .inl (List.mem_of_mem_erase hu)
      · rcases List.mem_append.mp hu with hu | hu
        · exact .inr hu
        · rw [List.mem_singleton.mp hu]
          exact .inl ht
  | _ => exact ⟨rfl, fun _ => id⟩

theorem IssueEffect.keepsTiles (h : IssueEffect i c c') : KeepsTiles c c' := by
  cases h with
  | sparseLoad _ _ =>
      have htag := KeepsTiles.registerTag c i
      refine KeepsTiles.thenFinish ?_ i
      exact ⟨htag.issued, htag.held⟩
  | knownLoad v _ _ _ _ _ => exact KeepsTiles.finish c i
  | load _ _ _ =>
      have htag := KeepsTiles.registerTag c i
      exact ⟨htag.issued, htag.held⟩
  | comp p _ _ => cases p <;> exact ⟨rfl, fun _ => id⟩
  | compZero p _ _ =>
      refine KeepsTiles.thenFinish ?_ i
      exact ⟨rfl, fun _ => id⟩
  | barSparse _ _ =>
      refine KeepsTiles.thenFinish ?_ i
      exact ⟨rfl, fun _ => id⟩
  | barReady v _ _ _ _ =>
      refine KeepsTiles.thenFinish ?_ i
      exact ⟨rfl, fun _ => id⟩
  | _ => exact ⟨rfl, fun _ => id⟩

theorem CycleStep.keepsTiles (h : CycleStep cfg c c') : KeepsTiles c c' := by
  rcases h with h | ⟨t, i, -, -, heffect⟩
  · exact h.keepsTiles
  · have htake : KeepsTiles c (c.take t i) :=
      ⟨(KeepsTiles.log c (.instIssued i) (by simp)).issued, fun _ => id⟩
    exact htake.trans heffect.keepsTiles

/-- What a cycle of a core keeps. -/
theorem cycle_keepsTiles {env : CycleEnv} (hI : CoreInv P c) (hR : ReportInv c)
    (h : c.cycle cfg env = .ok c') : CoreInv P c' ∧ ReportInv c' ∧ KeepsTiles c c' := by
  have hout : Outcome (CycleStep cfg) StopsWith c id (c.cycle cfg env) := cycle_outcome hI
  rw [h] at hout
  refine Outcome.invariant (I := fun d => CoreInv P d ∧ ReportInv d ∧ KeepsTiles c d)
    (fun d e hd hstep => ⟨cycle_keeps cfg P d e hd.1 hstep, ?_, hd.2.2.trans hstep.keepsTiles⟩)
    hout ⟨hI, hR, rfl, fun _ => id⟩
  rcases hstep with hstep | hstep
  · exact hstep.reports hd.2.1
  · have hcore : CoreStep cfg d e := .inr (.inl hstep)
    exact hcore.reports hd.2.1

omit [DecidableEq τ] in
/-- A tile that a core holds was given to it. -/
theorem Held.issued (h : Held c t) (hI : CoreInv P c) (hR : ReportInv c) : t ∈ c.issuedTiles := by
  refine hI.ledger.split.subset (List.mem_append.mpr ?_)
  rcases h with h | h
  · exact .inl h
  · exact .inr (hR.queue.subset h)

omit [DecidableEq τ] in
/-- A core does not hold the tile whose report was taken. -/
theorem not_held_of_taken {rest : List τ} (hI : CoreInv P c) (hR : ReportInv c)
    (hq : c.finishedTiles = t :: rest) : t ∉ c.tiles ∧ t ∉ rest := by
  have hnodup : (c.tiles ++ c.reportedTiles).Nodup :=
    hI.ledger.split.nodup_iff.mpr hI.ledger.issued_nodup
  obtain ⟨-, hreported, hdisjoint⟩ := List.nodup_append.mp hnodup
  have hsuffix := hR.queue
  rw [hq] at hsuffix
  refine ⟨fun ht => hdisjoint t ht t (hsuffix.subset List.mem_cons_self) rfl, ?_⟩
  exact (List.nodup_cons.mp (hreported.sublist hsuffix.sublist)).1

end Held

/-! ## The tiles that a scheduler handed out -/

section Records

variable {sched : Scheduler τ ι} {plan : TilePlan τ ι} {d d' : Dispatch τ ι} {t : τ}

/-- The records of the tiles are the same. -/
def SameRecords (s s' : Scheduler τ ι) : Prop :=
  s'.handedOut = s.handedOut ∧ s'.finished = s.finished

omit [DecidableEq τ] [DecidableEq ι] in
theorem sameRecords_refreshStatus (sched : Scheduler τ ι) (now : ℕ) :
    SameRecords sched (sched.refreshStatus now) := by
  rcases Scheduler.refreshStatus_cases sched now with ⟨heq, -⟩ | ⟨G, rest, m, n, -, -, heq⟩
  · rw [heq]
    exact ⟨rfl, rfl⟩
  · rw [heq]
    have hlog := Scheduler.completed_log { sched with tileGraph := rest } G m n
    exact ⟨hlog.1, hlog.2.1⟩

omit [DecidableEq ι] in
/-- A kernel is launched. -/
theorem launch_records {now : ℕ} (hI : DispatchInv plan d) (h : d.step (.launch now) = .ok d') :
    DispatchInv plan d' ∧ SameRecords d.sched d'.sched := by
  obtain ⟨d'', hok, heffect⟩ := hI.effect (.launch now) trivial
  rw [h] at hok
  cases hok
  refine ⟨hI.of_effect heffect, ?_⟩
  dsimp only [Dispatch.step] at h
  split at h
  · cases h
    exact ⟨rfl, rfl⟩
  · rename_i G rest hp
    cases h
    exact sameRecords_refreshStatus { d.sched with tileGraph := d.sched.tileGraph ++ [G] } now

omit [DecidableEq ι] in
/-- A scheduler is asked for a tile and the core does not take it. -/
theorem peek_records (hI : DispatchInv plan d) (now core slot tie : ℕ) (ctype : CoreType) :
    DispatchInv plan { d with sched := (d.sched.peekTile now core slot tie ctype).2 } ∧
      SameRecords d.sched (d.sched.peekTile now core slot tie ctype).2 := by
  refine ⟨hI.of_effect (DispatchInv.effect_peek (.peek now core slot tie ctype) now core slot tie
    ctype), ?_⟩
  rcases Scheduler.peekTile_cases d.sched now core slot tie ctype with heq | ⟨G, rest, -, -, heq⟩
  · rw [heq]
    exact ⟨rfl, rfl⟩
  · rw [heq]
    exact ⟨rfl, rfl⟩

omit [DecidableEq ι] in
/-- The core takes the tile that the scheduler showed. -/
theorem issue_records {now core slot tie : ℕ} {ctype : CoreType} {u : τ}
    {shown taken : Scheduler τ ι} (hI : DispatchInv plan d)
    (hpeek : d.sched.peekTile now core slot tie ctype = (some t, shown))
    (hget : shown.getTile now core slot tie = .ok (some u, taken)) :
    DispatchInv plan { d with sched := taken } ∧ u = t ∧ t ∉ d.sched.handedOut ∧
      taken.handedOut = d.sched.handedOut ++ [t] ∧ taken.finished = d.sched.finished := by
  obtain ⟨rfl, G, rest, as, plan', bs, sg, hq, hgraphs, hlen, -, hsg, halloc, ht, hready,
    hget'⟩ := hI.peek_some hpeek
  rw [hget'] at hget
  have heq := Except.ok.inj hget
  obtain ⟨hu, rfl⟩ := Prod.mk.inj heq
  have hnew := (hI.handOut now hq hgraphs hlen hsg halloc ht hready).refresh now
  have hsame := sameRecords_refreshStatus (Scheduler.handOut d.sched now sg.id G rest t) now
  have hhanded : (Scheduler.handOut d.sched now sg.id G rest t).handedOut =
      d.sched.handedOut ++ [t] := by
    simp [Scheduler.handOut, Model.Scheduler.handedOut]
  have hfinished : (Scheduler.handOut d.sched now sg.id G rest t).finished =
      d.sched.finished := by
    simp [Scheduler.handOut, Model.Scheduler.finished, finishedIn]
  refine ⟨hnew, (Option.some.inj hu).symm, fun hmem => ?_, hsame.1.trans hhanded,
    hsame.2.trans hfinished⟩
  have hnodup := hnew.heap.handed_nodup
  rw [show (Scheduler.refreshStatus _ now).handedOut = _ from hsame.1.trans hhanded] at hnodup
  exact (List.nodup_append.mp hnodup).2.2 t hmem t List.mem_cons_self rfl

omit [DecidableEq ι] in
/-- A core reports a tile. -/
theorem finish_records {taken : Scheduler τ ι} (hI : DispatchInv plan d)
    (ht : t ∈ d.sched.handedOut) (hfin : t ∉ d.sched.finished)
    (h : d.sched.finishTile t = .ok taken) :
    DispatchInv plan { d with sched := taken } ∧ taken.handedOut = d.sched.handedOut ∧
      taken.finished = d.sched.finished ++ [t] := by
  obtain ⟨heap, hrun, hnew⟩ := hI.finish ht hfin
  unfold Model.Scheduler.finishTile at h
  rw [hrun] at h
  cases h
  refine ⟨hnew, ?_, ?_⟩
  · simp [Model.Scheduler.handedOut, Model.Scheduler.log]
  · simp [Model.Scheduler.finished, Model.Scheduler.log, finishedIn]

end Records

/-! ## The simulator -/

section Simulator

variable {plans : ℕ → TilePlan τ ι} {cfg : SimulationConfig}
  {s s' : Simulator (Core τ ι) τ ι} {k : ℕ} {t : τ}

/-- The cores and the schedulers of a simulator. -/
structure TilesInv (P : TileProgram τ ι) (plans : ℕ → TilePlan τ ι) (cfg : SimulationConfig)
    (s : Simulator (Core τ ι) τ ι) : Prop where
  core : ∀ k, CoreInv P (s.cores k)
  reports : ∀ k, ReportInv (s.cores k)
  dispatch : ∀ p, DispatchInv (plans p) (s.partition p)
  issued : ∀ k, ∀ t ∈ (s.cores k).issuedTiles,
    t ∈ (s.partition (cfg.partitionMap k)).sched.handedOut
  apart : ∀ k l, k ≠ l → cfg.partitionMap k = cfg.partitionMap l →
    ∀ t ∈ (s.cores k).issuedTiles, t ∉ (s.cores l).issuedTiles
  held : ∀ k t, Held (s.cores k) t → t ∉ (s.partition (cfg.partitionMap k)).sched.finished

namespace TilesInv

/-- Nothing happens to the cores and the schedulers. -/
theorem congr (hI : TilesInv P plans cfg s) (hcores : s'.cores = s.cores)
    (hpartition : s'.partition = s.partition) : TilesInv P plans cfg s' := by
  refine ⟨?_, ?_, ?_, ?_, ?_, ?_⟩
  · rw [hcores]
    exact hI.core
  · rw [hcores]
    exact hI.reports
  · rw [hpartition]
    exact hI.dispatch
  · rw [hcores, hpartition]
    exact hI.issued
  · rw [hcores]
    exact hI.apart
  · rw [hcores, hpartition]
    exact hI.held

/-- A core that takes no tile goes on. -/
theorem setCore {c : Core τ ι} (hI : TilesInv P plans cfg s) (hcore : CoreInv P c)
    (hreport : ReportInv c) (hkeeps : KeepsTiles (s.cores k) c)
    (hcores : s'.cores = Function.update s.cores k c) (hpartition : s'.partition = s.partition) :
    TilesInv P plans cfg s' := by
  have hissued : ∀ l, (s'.cores l).issuedTiles = (s.cores l).issuedTiles := by
    intro l
    rw [hcores]
    by_cases hl : l = k
    · subst hl
      rw [Function.update_self, hkeeps.issued]
    · rw [Function.update_of_ne hl]
  refine ⟨fun l => ?_, fun l => ?_, ?_, fun l t ht => ?_, fun l m hlm hmap t ht => ?_,
    fun l t ht => ?_⟩
  · rw [hcores]
    by_cases hl : l = k
    · subst hl
      rw [Function.update_self]
      exact hcore
    · rw [Function.update_of_ne hl]
      exact hI.core l
  · rw [hcores]
    by_cases hl : l = k
    · subst hl
      rw [Function.update_self]
      exact hreport
    · rw [Function.update_of_ne hl]
      exact hI.reports l
  · rw [hpartition]
    exact hI.dispatch
  · rw [hissued] at ht
    rw [hpartition]
    exact hI.issued l t ht
  · rw [hissued] at ht ⊢
    exact hI.apart l m hlm hmap t ht
  · rw [hcores] at ht
    rw [hpartition]
    by_cases hl : l = k
    · subst hl
      rw [Function.update_self] at ht
      exact hI.held l t (hkeeps.held t ht)
    · rw [Function.update_of_ne hl] at ht
      exact hI.held l t ht

/-- A scheduler goes on without handing out a tile or hearing of one. -/
theorem setPartition {p : ℕ} {d : Dispatch τ ι} (hI : TilesInv P plans cfg s)
    (hdispatch : DispatchInv (plans p) d) (hsame : SameRecords (s.partition p).sched d.sched)
    (hcores : s'.cores = s.cores)
    (hpartition : s'.partition = Function.update s.partition p d) :
    TilesInv P plans cfg s' := by
  have hrecords : ∀ q, SameRecords (s.partition q).sched (s'.partition q).sched := by
    intro q
    rw [hpartition]
    by_cases hq : q = p
    · subst hq
      rw [Function.update_self]
      exact hsame
    · rw [Function.update_of_ne hq]
      exact ⟨rfl, rfl⟩
  refine ⟨?_, ?_, fun q => ?_, fun l t ht => ?_, ?_, fun l t ht => ?_⟩
  · rw [hcores]
    exact hI.core
  · rw [hcores]
    exact hI.reports
  · rw [hpartition]
    by_cases hq : q = p
    · subst hq
      rw [Function.update_self]
      exact hdispatch
    · rw [Function.update_of_ne hq]
      exact hI.dispatch q
  · rw [hcores] at ht
    rw [(hrecords _).1]
    exact hI.issued l t ht
  · rw [hcores]
    exact hI.apart
  · rw [hcores] at ht
    rw [(hrecords _).2]
    exact hI.held l t ht

/-- A core takes the tile that the scheduler of its partition showed. -/
theorem issue {core slot tie : ℕ} {u : τ} {shown taken : Scheduler τ ι}
    (hI : TilesInv P plans cfg s)
    (hpeek : (s.partition (cfg.partitionMap core)).sched.peekTile s.coreCycles core slot tie
      (cfg.coreType core) = (some t, shown))
    (hget : shown.getTile s.coreCycles core slot tie = .ok (some u, taken)) :
    u ∉ (s.cores core).issuedTiles ∧ TilesInv P plans cfg
      ((s.setScheduler (cfg.partitionMap core) taken).setCore core ((s.cores core).issue u)) := by
  obtain ⟨hdispatch, rfl, hfresh, hhanded, hfinished⟩ :=
    issue_records (hI.dispatch (cfg.partitionMap core)) hpeek hget
  have hnew : ∀ l, cfg.partitionMap l = cfg.partitionMap core → u ∉ (s.cores l).issuedTiles := by
    intro l hl hu
    have hmem := hI.issued l u hu
    rw [hl] at hmem
    exact hfresh hmem
  have hstep : OuterStep (s.cores core) ((s.cores core).issue u) := .issue _ u (hnew core rfl)
  have hissued : ∀ l t, t ∈ ((s.setCore core ((s.cores core).issue u)).cores l).issuedTiles ↔
      t ∈ (s.cores l).issuedTiles ∨ (l = core ∧ t = u) := by
    intro l t
    show t ∈ (Function.update s.cores core _ l).issuedTiles ↔ _
    by_cases hl : l = core
    · subst hl
      rw [Function.update_self]
      show t ∈ (Core.log _ (.tileIssued u)).issuedTiles ↔ _
      rw [Core.issuedTiles_log, List.mem_append, List.mem_singleton]
      simp only [true_and]
      rfl
    · rw [Function.update_of_ne hl]
      simp [hl]
  have hheld : ∀ l t, Held ((s.setCore core ((s.cores core).issue u)).cores l) t →
      Held (s.cores l) t ∨ (l = core ∧ t = u) := by
    intro l t ht
    change Held (Function.update s.cores core _ l) t at ht
    by_cases hl : l = core
    · subst hl
      rw [Function.update_self] at ht
      rcases ht with ht | ht
      · rcases List.mem_append.mp ht with ht | ht
        · exact .inl (.inl ht)
        · exact .inr ⟨rfl, List.mem_singleton.mp ht⟩
      · exact .inl (.inr ht)
    · rw [Function.update_of_ne hl] at ht
      exact .inl ht
  have hpartition : ∀ q, ((s.setScheduler (cfg.partitionMap core) taken).partition q) =
      if q = cfg.partitionMap core then
        { s.partition (cfg.partitionMap core) with sched := taken } else s.partition q := by
    intro q
    show Function.update s.partition _ _ q = _
    rw [Function.update_apply]
  refine ⟨hnew core rfl, fun l => ?_, fun l => ?_, fun q => ?_, fun l t ht => ?_,
    fun l m hlm hmap t ht hm => ?_, fun l t ht hfin => ?_⟩
  · show CoreInv P (Function.update s.cores core _ l)
    by_cases hl : l = core
    · subst hl
      rw [Function.update_self]
      exact hstep.inv (hI.core l)
    · rw [Function.update_of_ne hl]
      exact hI.core l
  · show ReportInv (Function.update s.cores core _ l)
    by_cases hl : l = core
    · subst hl
      rw [Function.update_self]
      exact hstep.reports (hI.reports l)
    · rw [Function.update_of_ne hl]
      exact hI.reports l
  · show DispatchInv (plans q) ((s.setScheduler (cfg.partitionMap core) taken).partition q)
    rw [hpartition]
    split
    · rename_i hq
      rw [hq]
      exact hdispatch
    · exact hI.dispatch q
  · show t ∈ ((s.setScheduler (cfg.partitionMap core) taken).partition _).sched.handedOut
    rw [hpartition]
    rcases (hissued l t).mp ht with ht | ⟨rfl, rfl⟩
    · have hmem := hI.issued l t ht
      split
      · rename_i hq
        rw [hq] at hmem
        show t ∈ taken.handedOut
        rw [hhanded]
        exact List.mem_append_left _ hmem
      · exact hmem
    · rw [if_pos rfl]
      show t ∈ taken.handedOut
      rw [hhanded]
      exact List.mem_append_right _ List.mem_cons_self
  · rcases (hissued l t).mp ht with hold | ⟨rfl, rfl⟩
    · rcases (hissued m t).mp hm with hold' | ⟨rfl, rfl⟩
      · exact hI.apart l m hlm hmap t hold hold'
      · exact hnew l hmap hold
    · rcases (hissued m t).mp hm with hold' | ⟨rfl, -⟩
      · exact hnew m hmap.symm hold'
      · exact hlm rfl
  · change t ∈ ((s.setScheduler (cfg.partitionMap core) taken).partition _).sched.finished at hfin
    have hfin' : t ∈ (s.partition (cfg.partitionMap l)).sched.finished := by
      rw [hpartition] at hfin
      split at hfin
      · rename_i hq
        rw [hq, ← hfinished]
        exact hfin
      · exact hfin
    rcases hheld l t ht with ht | ⟨rfl, rfl⟩
    · exact hI.held l t ht hfin'
    · exact hfresh ((hI.dispatch _).heap.finished_handed t hfin')

/-- The report of a tile is taken from a core and goes to the scheduler of its partition. -/
theorem report {core : ℕ} {rest : List τ} {taken : Scheduler τ ι}
    (hI : TilesInv P plans cfg s) (hq : (s.cores core).finishedTiles = t :: rest)
    (hfinish : (s.partition (cfg.partitionMap core)).sched.finishTile t = .ok taken) :
    TilesInv P plans cfg ((s.setCore core (s.cores core).popFinishedTile.2).setScheduler
      (cfg.partitionMap core) taken) := by
  have hpop : (s.cores core).popFinishedTile.2 = { s.cores core with finishedTiles := rest } := by
    unfold Core.popFinishedTile
    rw [hq]
  have hheld : Held (s.cores core) t := .inr (by rw [hq]; exact List.mem_cons_self)
  have hmine := hheld.issued (hI.core core) (hI.reports core)
  obtain ⟨hdispatch, hhanded, hfinished⟩ := finish_records (hI.dispatch (cfg.partitionMap core))
    (hI.issued core t hmine) (hI.held core t hheld) hfinish
  have hstep : OuterStep (s.cores core) (s.cores core).popFinishedTile.2 := .popFinishedTile _
  have htaken : TilesInv P plans cfg (s.setCore core (s.cores core).popFinishedTile.2) := by
    refine hI.setCore (hstep.inv (hI.core core)) (hstep.reports (hI.reports core)) ?_ rfl rfl
    rw [hpop]
    refine ⟨rfl, fun u hu => hu.imp_right fun hu => ?_⟩
    rw [hq]
    exact List.mem_cons_of_mem t hu
  have hgone : ∀ l, cfg.partitionMap l = cfg.partitionMap core →
      ¬ Held ((s.setCore core (s.cores core).popFinishedTile.2).cores l) t := by
    intro l hl ht
    change Held (Function.update s.cores core _ l) t at ht
    by_cases hlk : l = core
    · subst hlk
      rw [Function.update_self, hpop] at ht
      obtain ⟨htiles, hrest⟩ := not_held_of_taken (hI.core l) (hI.reports l) hq
      rcases ht with ht | ht
      · exact htiles ht
      · exact hrest ht
    · rw [Function.update_of_ne hlk] at ht
      exact hI.apart l core hlk hl t (ht.issued (hI.core l) (hI.reports l)) hmine
  refine ⟨htaken.core, htaken.reports, fun q => ?_, fun l u hu => ?_, htaken.apart,
    fun l u hu hfin => ?_⟩
  · show DispatchInv (plans q) (Function.update s.partition _ _ q)
    by_cases hqp : q = cfg.partitionMap core
    · subst hqp
      rw [Function.update_self]
      exact hdispatch
    · rw [Function.update_of_ne hqp]
      exact hI.dispatch q
  · show u ∈ (Function.update s.partition _ _ _).sched.handedOut
    have hmem := htaken.issued l u hu
    by_cases hqp : cfg.partitionMap l = cfg.partitionMap core
    · rw [hqp, Function.update_self]
      show u ∈ taken.handedOut
      rw [hhanded, ← hqp]
      exact hmem
    · rw [Function.update_of_ne hqp]
      exact hmem
  · change u ∈ (Function.update s.partition _ _ _).sched.finished at hfin
    by_cases hqp : cfg.partitionMap l = cfg.partitionMap core
    · rw [hqp, Function.update_self] at hfin
      change u ∈ taken.finished at hfin
      rw [hfinished, List.mem_append, List.mem_singleton] at hfin
      rcases hfin with hfin | rfl
      · rw [← hqp] at hfin
        exact htaken.held l u hu hfin
      · exact hgone l hqp hu
    · rw [Function.update_of_ne hqp] at hfin
      exact htaken.held l u hu hfin

end TilesInv

/-- Every move keeps the cores and the schedulers in step. -/
theorem SimStep.tiles (h : SimStep (Core.interface cfg.coreConfig) cfg s s')
    (hI : TilesInv P plans cfg s) : TilesInv P plans cfg s' := by
  cases h with
  | slot n => exact hI.congr rfl rfl
  | launch p d hlaunch =>
      obtain ⟨hdispatch, hsame⟩ := launch_records (hI.dispatch p) hlaunch
      exact hI.setPartition hdispatch hsame rfl rfl
  | peek core slot tie =>
      obtain ⟨hdispatch, hsame⟩ := peek_records (hI.dispatch (cfg.partitionMap core))
        s.coreCycles core slot tie (cfg.coreType core)
      exact hI.setPartition hdispatch hsame rfl rfl
  | issue core slot tie t u shown taken hpeek _ _ hget => exact (hI.issue hpeek hget).2
  | popTile core _ =>
      have hstep : OuterStep (s.cores core) (s.cores core).popFinishedTile.2 := .popFinishedTile _
      refine hI.setCore (hstep.inv (hI.core core)) (hstep.reports (hI.reports core)) ?_ rfl rfl
      unfold Core.popFinishedTile
      split
      · exact ⟨rfl, fun _ => id⟩
      · rename_i t rest hq
        refine ⟨rfl, fun u hu => hu.imp_right fun hu => ?_⟩
        rw [hq]
        exact List.mem_cons_of_mem t hu
  | report core t taken hpop hfinish =>
      have hpop' : (s.cores core).popFinishedTile.1 = some t :=
        (Option.filter_eq_some_iff.mp hpop).1
      have hq : ∃ rest, (s.cores core).finishedTiles = t :: rest := by
        unfold Core.popFinishedTile at hpop'
        split at hpop'
        · cases hpop'
        · rename_i u rest hq
          cases hpop'
          exact ⟨rest, hq⟩
      obtain ⟨rest, hq⟩ := hq
      exact hI.report hq hfinish
  | cycle core e c hcycle =>
      obtain ⟨hcore, hreport, hkeeps⟩ := cycle_keepsTiles (hI.core core) (hI.reports core) hcycle
      exact hI.setCore hcore hreport hkeeps rfl rfl
  | dramTick ch => exact hI.congr rfl rfl
  | dramAdmit ch => exact hI.congr rfl rfl
  | dramReply ch => exact hI.congr rfl rfl
  | send core noc dest r rest icnt _ _ _ hq _ _ =>
      have hq' : (s.cores core).requestQueue = r :: rest := hq
      have hstep : OuterStep (s.cores core) { s.cores core with requestQueue := rest } :=
        .popMemoryRequest _ r rest hq'
      have hpop : (Core.interface cfg.coreConfig).popMemoryRequest (s.cores core) =
          { s.cores core with requestQueue := rest } := by
        show { s.cores core with requestQueue := (s.cores core).requestQueue.tail } = _
        rw [hq']
        rfl
      rw [hpop]
      exact hI.setCore (hstep.inv (hI.core core)) (hstep.reports (hI.reports core))
        ⟨rfl, fun _ => id⟩ rfl rfl
  | receive core noc a rest _ _ _ =>
      have hstep : OuterStep (s.cores core) ((s.cores core).pushMemoryResponse a.fetch) :=
        .pushMemoryResponse _ a.fetch
      refine hI.setCore (hstep.inv (hI.core core)) (hstep.reports (hI.reports core)) ?_ rfl rfl
      unfold Core.pushMemoryResponse
      dsimp only
      split
      · exact ⟨rfl, fun _ => id⟩
      · exact ⟨rfl, fun _ => id⟩
  | toMemory mem a rest _ _ => exact hI.congr rfl rfl
  | fromMemory mem dest a rest icnt _ _ _ _ => exact hI.congr rfl rfl
  | deliver dest => exact hI.congr rfl rfl
  | icntClock n => exact hI.congr rfl rfl

theorem CacheStep.tiles (h : CacheStep s s') (hI : TilesInv P plans cfg s) :
    TilesInv P plans cfg s' := by
  cases h with
  | noL2 ch => exact hI.congr rfl rfl
  | clock n => exact hI.congr rfl rfl

/-- Before the first kernel is launched. -/
theorem TilesInv.init (P : TileProgram τ ι) (plans : ℕ → TilePlan τ ι) (cfg : SimulationConfig) :
    TilesInv P plans cfg (Simulator.init cfg (fun _ => { heap := P.heap }) plans) := by
  refine ⟨fun _ => CoreInv.init P, fun _ => ⟨List.suffix_refl _, ?_⟩,
    fun p => DispatchInv.init (plans p), ?_, ?_, ?_⟩
  · exact fun t ht => absurd ht List.not_mem_nil
  · exact fun k t ht => absurd ht List.not_mem_nil
  · exact fun k l _ _ t ht => absurd ht List.not_mem_nil
  · rintro k t (ht | ht)
    · exact absurd ht List.not_mem_nil
    · exact absurd ht List.not_mem_nil

end Simulator

end PyTorchSim.Analysis
