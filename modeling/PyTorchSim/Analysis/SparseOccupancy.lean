import PyTorchSim.Analysis.SparseMoves

/-!
# Occupancy of the subcores

A subcore is busy exactly when it has one tile.  `SparseCore::issue` looks for an idle subcore, but
takes the one whose turn it is, so a run keeps this exactly as long as the subcore whose turn it is
is idle whenever a tile is issued.
-/

set_option autoImplicit false

namespace PyTorchSim.Analysis

open Relation
open PyTorchSim.Model PyTorchSim.Library

variable {τ ι : Type}

/-- The flag of each subcore says whether it has a tile, and it never has two. -/
def Occupied (cfg : SparseConfig) (c : SparseCore τ ι) : Prop :=
  ∀ n < cfg.nrCores,
    (c.coreBusy n = true ↔ ∃ t, c.percoreTiles n = [t]) ∧
    (c.coreBusy n = false ↔ c.percoreTiles n = [])

variable [DecidableEq τ] [DecidableEq ι]

/-- A tile that is issued finds the subcore idle whose turn it is. -/
def TurnIsIdle (cfg : SparseConfig) (s : SparseSystem τ ι) : SparseAction τ → Prop
  | .issue t => s.core.canIssue cfg t = true → s.core.coreBusy (s.core.rrIdx % cfg.nrCores) = false
  | _ => True

/-- A subcore that gets a tile is idle. -/
def PlacesOnIdle (s s' : SparseSystem τ ι) : SparseAction τ → Prop
  | .issue _ => ∀ n, s'.core.percoreTiles n ≠ s.core.percoreTiles n → s.core.coreBusy n = false
  | _ => True

section

variable {cfg : SparseConfig} {c c' : SparseCore τ ι} {s s' : SparseSystem τ ι}

omit [DecidableEq τ] in
/-- Sending requests changes no subcore. -/
theorem sendRequests_frame (cfg : SparseConfig) (i : ι) (isWrite : Bool) (l : List ℕ) (c : SparseCore τ ι) :
    ∃ heap requestMergeTable, SparseCore.sendRequests cfg i isWrite l c =
      { c with heap, requestMergeTable } := by
  induction l generalizing c with
  | nil => exact ⟨_, _, rfl⟩
  | cons addr l ih =>
      unfold SparseCore.sendRequests
      obtain ⟨heap, table, h⟩ := ih _
      exact ⟨heap, table, h⟩

omit [DecidableEq τ] in
/-- Responses change no subcore. -/
theorem runCallbacks_frame (l : List (SparseCallback ι)) (c : SparseCore τ ι) :
    ∃ heap, l.foldl SparseCore.runCallback c = { c with heap } := by
  induction l generalizing c with
  | nil => exact ⟨_, rfl⟩
  | cons f l ih =>
      rw [List.foldl_cons]
      obtain ⟨heap, h⟩ := ih (c.runCallback f)
      rw [h]
      cases f <;> exact ⟨_, rfl⟩

/-- A move changes no subcore, or takes the front tile from a busy one. -/
theorem SparseMove.tiles (h : SparseMove cfg c c') :
    (c'.coreBusy = c.coreBusy ∧ c'.percoreTiles = c.percoreTiles) ∨
    ∃ n t rest, c.coreBusy n = true ∧ c.percoreTiles n = t :: rest ∧
      c'.coreBusy = Function.update c.coreBusy n false ∧
      c'.percoreTiles = Function.update c.percoreTiles n rest := by
  cases h with
  | tick | sendStonne | finishCompute | finishLoad | dropStore | issueCompute | sendToQueue =>
    exact .inl ⟨rfl, rfl⟩
  | @issueLoad t i rest _ _ sent hsent =>
    obtain ⟨heap, table, hframe⟩ := sendRequests_frame cfg i false (c.traceAddress i) c
    rw [hframe] at hsent
    subst hsent
    exact .inl ⟨rfl, rfl⟩
  | @issueStore t i rest _ _ sent hsent =>
    obtain ⟨heap, table, hframe⟩ := sendRequests_frame cfg i true (c.traceAddress i) c
    rw [hframe] at hsent
    subst hsent
    exact .inl ⟨rfl, rfl⟩
  | @finishTile n t rest hbusy hfront =>
    refine .inr ⟨n, t, rest, hbusy, hfront, rfl, ?_⟩
    unfold SparseCore.finishTile
    rw [hfront]
    rfl
  | takeResponses =>
    unfold SparseCore.takeResponses
    obtain ⟨heap, hframe⟩ := runCallbacks_frame
      ((c.responseQueue.take (cfg.wPortNr + 1)).flatMap SparseRequest.callbacks)
      { c with responseQueue := c.responseQueue.drop (cfg.wPortNr + 1) }
    rw [hframe]
    exact .inl ⟨rfl, rfl⟩

/-- A move keeps the flags and the tiles in agreement. -/
theorem Occupied.move (h : Occupied cfg c) (hmove : SparseMove cfg c c') : Occupied cfg c' := by
  rcases hmove.tiles with ⟨hbusy, htiles⟩ | ⟨n, t, rest, hn, hfront, hbusy, htiles⟩
  · unfold Occupied
    rw [hbusy, htiles]
    exact h
  · intro m hm
    rw [hbusy, htiles]
    by_cases hmn : m = n
    · subst hmn
      obtain ⟨u, hu⟩ := (h m hm).1.mp hn
      rw [hfront, List.cons.injEq] at hu
      simp [hu.2]
    · simp only [Function.update_of_ne hmn]
      exact h m hm

theorem Occupied.cycle (h : Occupied cfg c) {env : SparseEnv} (hcycle : c.cycle cfg env = .ok c') :
    Occupied cfg c' :=
  Outcome.invariant (fun _ _ hc hmove => Occupied.move hc hmove) (SparseMove.of_cycle hcycle) h

omit [DecidableEq τ] [DecidableEq ι] in
/-- A tile that can be issued goes to the subcore whose turn it is. -/
theorem issue_ok {t : τ} (hcan : c.canIssue cfg t = true) (h : c.issue cfg t = .ok c') :
    c.rrIdx % cfg.nrCores < cfg.nrCores ∧
    c'.coreBusy = Function.update c.coreBusy (c.rrIdx % cfg.nrCores) true ∧
    c'.percoreTiles = Function.update c.percoreTiles (c.rrIdx % cfg.nrCores)
      (c.percoreTiles (c.rrIdx % cfg.nrCores) ++ [t]) := by
  unfold SparseCore.canIssue at hcan
  rw [Bool.and_eq_true] at hcan
  unfold SparseCore.issue SparseCore.selectCore at h
  rw [if_pos hcan.1] at h
  cases h
  obtain ⟨n, hn, -⟩ := List.any_eq_true.mp hcan.1
  have hpos : 0 < cfg.nrCores := by
    have := List.mem_range.mp hn
    omega
  exact ⟨Nat.mod_lt _ hpos, rfl, rfl⟩

omit [DecidableEq τ] [DecidableEq ι] in
/-- A tile on an idle subcore keeps the agreement, and is placed on an idle subcore. -/
theorem Occupied.issue_idle (h : Occupied cfg c) {n : ℕ} (hn : n < cfg.nrCores) {t : τ}
    (hidle : c.coreBusy n = false) (hbusy : c'.coreBusy = Function.update c.coreBusy n true)
    (htiles : c'.percoreTiles = Function.update c.percoreTiles n (c.percoreTiles n ++ [t])) :
    Occupied cfg c' ∧ ∀ m, c'.percoreTiles m ≠ c.percoreTiles m → c.coreBusy m = false := by
  have hempty : c.percoreTiles n = [] := (h n hn).2.mp hidle
  refine ⟨fun m hm => ?_, fun m hne => ?_⟩
  · rw [hbusy, htiles]
    by_cases hmn : m = n
    · subst hmn
      simp [hempty]
    · simp only [Function.update_of_ne hmn]
      exact h m hm
  · by_cases hmn : m = n
    · rw [hmn, hidle]
    · rw [htiles, Function.update_of_ne hmn] at hne
      exact absurd rfl hne

omit [DecidableEq τ] [DecidableEq ι] in
/-- A tile on a busy subcore is its second one. -/
theorem Occupied.issue_busy (h : Occupied cfg c) {n : ℕ} (hn : n < cfg.nrCores) {t : τ}
    (hnot : ¬c.coreBusy n = false)
    (htiles : c'.percoreTiles = Function.update c.percoreTiles n (c.percoreTiles n ++ [t])) :
    ¬Occupied cfg c' ∧ ¬∀ m, c'.percoreTiles m ≠ c.percoreTiles m → c.coreBusy m = false := by
  rw [Bool.not_eq_false] at hnot
  obtain ⟨u, hu⟩ := (h n hn).1.mp hnot
  have htwo : c'.percoreTiles n = [u, t] := by
    rw [htiles, Function.update_self, hu]
    rfl
  constructor
  · intro hocc
    obtain ⟨hone, hzero⟩ := hocc n hn
    rw [htwo] at hone hzero
    cases hb : c'.coreBusy n with
    | false => simp [hb] at hzero
    | true => simp [hb] at hone
  · intro hidle
    have hfalse := hidle n (by rw [htwo, hu]; simp)
    rw [hnot] at hfalse
    cases hfalse

/-- One action: it keeps the agreement, and places its tile on an idle subcore, exactly when the
subcore whose turn it is is idle. -/
theorem Occupied.step (h : Occupied cfg s.core) {a : SparseAction τ}
    (hstep : s.step cfg a = .ok s') :
    (TurnIsIdle cfg s a ↔ Occupied cfg s'.core) ∧ (TurnIsIdle cfg s a ↔ PlacesOnIdle s s' a) := by
  have hkept {b : SparseAction τ} (hcond : TurnIsIdle cfg s b) (hocc : Occupied cfg s'.core)
      (hplaces : PlacesOnIdle s s' b) :
      (TurnIsIdle cfg s b ↔ Occupied cfg s'.core) ∧ (TurnIsIdle cfg s b ↔ PlacesOnIdle s s' b) :=
    ⟨iff_of_true hcond hocc, iff_of_true hcond hplaces⟩
  cases a with
  | issue t =>
    dsimp only [SparseSystem.step] at hstep
    split at hstep
    · next hcan =>
      obtain ⟨core, hissue, hs⟩ := bind_eq_ok.mp hstep
      cases hs
      obtain ⟨hn, hbusy, htiles⟩ := issue_ok hcan hissue
      by_cases hidle : s.core.coreBusy (s.core.rrIdx % cfg.nrCores) = false
      · obtain ⟨hocc, hplaces⟩ := h.issue_idle hn hidle hbusy htiles
        exact hkept (fun _ => hidle) hocc hplaces
      · obtain ⟨hocc, hplaces⟩ := h.issue_busy hn hidle htiles
        have hnot : ¬TurnIsIdle cfg s (.issue t) := fun hturn => hidle (hturn hcan)
        exact ⟨iff_of_false hnot hocc, iff_of_false hnot hplaces⟩
    · next hcan =>
      cases hstep
      exact hkept (fun hcan' => absurd hcan' hcan) h fun m hne => absurd rfl hne
  | cycle env =>
    obtain ⟨core, hcycle, hs⟩ := bind_eq_ok.mp hstep
    cases hs
    exact hkept trivial (h.cycle hcycle) trivial
  | popFinishedTile =>
    cases hstep
    exact hkept trivial h trivial
  | popMemoryRequest =>
    dsimp only [SparseSystem.step] at hstep
    split at hstep <;> cases hstep <;> exact hkept trivial h trivial
  | pushMemoryResponse n =>
    dsimp only [SparseSystem.step] at hstep
    split at hstep <;> cases hstep <;> exact hkept trivial h trivial

end

section

variable {cfg : SparseConfig} {P : TileProgram τ ι} {customData : τ → Bool}
  {traceAddress : ι → List ℕ} {s s' : SparseSystem τ ι}

/-- **The flags of a sparse core say which subcores have a tile, and a tile is placed on an idle
subcore, exactly as long as the subcore whose turn it is is idle whenever a tile is issued.** -/
theorem occupied_iff
    (h : Reach (SparseSystem.step cfg) (TurnIsIdle cfg) (.init P customData traceAddress) s) :
    Occupied cfg s.core ∧ ∀ a s', s.step cfg a = .ok s' →
      (TurnIsIdle cfg s a ↔ Occupied cfg s'.core) ∧
      (TurnIsIdle cfg s a ↔ PlacesOnIdle s s' a) := by
  have hocc : Occupied cfg s.core := by
    apply h.invariant (I := fun s => Occupied cfg s.core)
    · intro n _
      simp [SparseSystem.init]
    · intro s a s' _ hs hturn hstep
      exact (Occupied.step hs hstep).1.mp hturn
  exact ⟨hocc, fun a s' hstep => hocc.step hstep⟩

/-- Tiles of STONNE operations, which have no instruction. -/
def stonneTiles : TileProgram ℕ ℕ where
  heap := {
    tile := fun _ => { stonneTile := true }
    inst := fun i => { id := i, opcode := .comp, owner := 0 } }
  insts_nodup := by simp
  owner := by simp
  nrInsts := by simp
  nrFinishedInsts := by simp
  readyQueue := by simp
  finished := by simp
  nrWaitingRequest := by simp
  child_nodup := by simp
  child_mem := by simp
  readyCounter := by simp

/-- Two subcores. -/
def twoSubcores : SparseConfig where
  nrCores := 2
  rPortNr := 0
  wPortNr := 0
  dramReqSize := 32

theorem occupied_iff_oneTile :
    ∃ s : SparseSystem ℕ ℕ, Occupied twoSubcores s.core ∧ s.core.percoreTiles 0 = [0] := by
  have hrun : ∃ s, SparseSystem.step twoSubcores
      (.init stonneTiles (fun _ => true) (fun _ => [])) (.issue 0) = .ok s ∧
      s.core.percoreTiles 0 = [0] := ⟨_, rfl, rfl⟩
  obtain ⟨s, hstep, htiles⟩ := hrun
  exact ⟨s, (occupied_iff (Reach.init.step (.issue 0) (fun _ => rfl) hstep)).1, htiles⟩

/-- The tile of the second of two subcores finishes first, so the next tile joins the tile of the
first one. -/
theorem not_occupied :
    ¬∀ s : SparseSystem ℕ ℕ,
      Reach (SparseSystem.step twoSubcores) (fun _ _ => True)
        (.init stonneTiles (fun _ => true) (fun _ => [])) s → Occupied twoSubcores s.core := by
  have hrun : ∃ s, [SparseAction.issue 0, .issue 1, .cycle { isFinished := fun n => n = 1 },
      .popFinishedTile, .issue 2].foldlM (SparseSystem.step twoSubcores)
      (.init stonneTiles (fun _ => true) (fun _ => [])) = .ok s ∧
      s.core.percoreTiles 0 = [0, 2] := ⟨_, rfl, rfl⟩
  obtain ⟨s, hrun, htiles⟩ := hrun
  intro hall
  obtain ⟨hone, hzero⟩ := hall s (.of_foldlM _ .init hrun fun _ _ _ => trivial) 0 (by decide)
  rw [htiles] at hone hzero
  cases hbusy : s.core.coreBusy 0 with
  | false => simp [hbusy] at hzero
  | true => simp [hbusy] at hone

end

end PyTorchSim.Analysis
