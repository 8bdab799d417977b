import Mathlib.Data.List.Perm.Basic
import PyTorchSim.Analysis.SparseCompletion
import PyTorchSim.Analysis.SparseOccupancy

/-!
# The callbacks of the memory requests of a sparse core

A callback is registered under the key of its request, travels with the request through the merge
table, the request queue and the memory, and runs when the answer is handled.  A `PortRun` makes
the calls that touch these queues, in any order, and records what was registered, answered and
run: the registered callbacks are those of the requests that are pending or answered, and those
that ran are those of the answers that were handled, each once.

The two loops of a cycle compare their counters with `<=` and `>`, so both move one request more
than the ports have.
-/

set_option autoImplicit false

namespace PyTorchSim.Analysis

open PyTorchSim.Model PyTorchSim.Library

/-- A callback with the key under which it is registered. -/
abbrev Registration (ι : Type) := (ℕ × Bool) × SparseCallback ι

/-- The callbacks of a request, with its key. -/
def labels {ι : Type} (r : SparseRequest ι) : List (Registration ι) :=
  r.callbacks.map fun f => ((r.addr, r.isWrite), f)

/-- The callbacks of several requests. -/
def labelsOf {ι : Type} (l : List (SparseRequest ι)) : List (Registration ι) := l.flatMap labels

/-- The queues of a sparse core with their history: what was registered, which requests were
answered and which callbacks ran, each in order. -/
structure PortRun (τ ι : Type) where
  core : SparseCore τ ι
  inFlight : List (SparseRequest ι) := []
  registered : List (Registration ι) := []
  answered : List (SparseRequest ι) := []
  ran : List (SparseCallback ι) := []

/-- The calls that touch the queues.  `exchange` is the second half of a cycle. -/
inductive PortAction (ι : Type)
  | register (addr : ℕ) (isWrite : Bool) (f : SparseCallback ι)
  | exchange
  | popMemoryRequest
  | pushMemoryResponse (n : ℕ)

variable {τ ι : Type} [DecidableEq τ] [DecidableEq ι]

/-- The callbacks that a cycle runs. -/
def runIn (cfg : SparseConfig) (c : SparseCore τ ι) : List (SparseCallback ι) :=
  (c.responseQueue.take (cfg.wPortNr + 1)).flatMap SparseRequest.callbacks

namespace PortRun

/-- The requests that are not answered. -/
def pending (s : PortRun τ ι) : List (SparseRequest ι) :=
  s.core.requestMergeTable ++ s.core.requestQueue ++ s.inFlight

/-- A call, recorded. -/
def step (cfg : SparseConfig) (s : PortRun τ ι) : PortAction ι → Except SparseFault (PortRun τ ι)
  | .register addr isWrite f => .ok { s with
      core := s.core.registerMemfetch addr isWrite f
      registered := s.registered ++ [((addr, isWrite), f)] }
  | .exchange => .ok { s with
      core := (s.core.sendToQueue cfg).takeResponses cfg
      ran := s.ran ++ runIn cfg s.core }
  | .popMemoryRequest =>
    match s.core.requestQueue with
    | [] => .ok s
    | r :: rest => .ok { s with
        core := { s.core with requestQueue := rest }
        inFlight := s.inFlight ++ [r] }
  | .pushMemoryResponse n =>
    match s.inFlight[n]? with
    | none => .ok s
    | some r => .ok { s with
        core := { s.core with responseQueue := s.core.responseQueue ++ [r] }
        inFlight := s.inFlight.eraseIdx n
        answered := s.answered ++ [r] }

/-- **Every callback runs once, after its answer**: the registered callbacks are those of the
requests that are pending or answered, each under its key, and those that ran are the callbacks
of the answers that were handled. -/
structure RunOnce (s : PortRun τ ι) : Prop where
  registered : s.registered.Perm (labelsOf (s.pending ++ s.answered))
  ran : ∃ handled, s.answered = handled ++ s.core.responseQueue ∧
    s.ran = handled.flatMap SparseRequest.callbacks

end PortRun

section

omit [DecidableEq τ]

theorem count_labelsOf_append (l l' : List (SparseRequest ι)) (x : Registration ι) :
    (labelsOf (l ++ l')).count x = (labelsOf l).count x + (labelsOf l').count x := by
  simp [labelsOf]

omit [DecidableEq ι] in
/-- What is registered joins the callbacks of its key. -/
theorem labelsOf_insertCallback (addr : ℕ) (isWrite : Bool) (f : SparseCallback ι)
    (l : List (SparseRequest ι)) :
    (labelsOf (SparseCore.insertCallback addr isWrite f l)).Perm
      (((addr, isWrite), f) :: labelsOf l) := by
  induction l with
  | nil => exact List.Perm.refl _
  | cons r l ih =>
      unfold SparseCore.insertCallback
      split
      · next hkey =>
        obtain ⟨rfl, rfl⟩ := hkey
        simp only [labelsOf, labels, List.flatMap_cons, List.map_append, List.map_cons,
          List.map_nil]
        exact List.perm_middle.append_right _ |>.trans (by simp)
      · split
        · exact List.Perm.refl _
        · simp only [labelsOf, List.flatMap_cons]
          exact (ih.append_left _).trans List.perm_middle

/-- The second half of a cycle moves the front of each queue. -/
theorem exchange_frame (cfg : SparseConfig) (c : SparseCore τ ι) :
    ∃ heap, (c.sendToQueue cfg).takeResponses cfg = { c with
      heap
      requestQueue := c.requestQueue ++ c.requestMergeTable.take (cfg.rPortNr + 1)
      requestMergeTable := c.requestMergeTable.drop (cfg.rPortNr + 1)
      responseQueue := c.responseQueue.drop (cfg.wPortNr + 1) } := by
  unfold SparseCore.takeResponses
  obtain ⟨heap, h⟩ := runCallbacks_frame
    (((c.sendToQueue cfg).responseQueue.take (cfg.wPortNr + 1)).flatMap SparseRequest.callbacks)
    { c.sendToQueue cfg with
      responseQueue := (c.sendToQueue cfg).responseQueue.drop (cfg.wPortNr + 1) }
  exact ⟨heap, h⟩

end

namespace PortRun

variable {cfg : SparseConfig} {s s' : PortRun τ ι}

omit [DecidableEq τ] in
theorem RunOnce.step (h : s.RunOnce) {a : PortAction ι} (hstep : s.step cfg a = .ok s') :
    s'.RunOnce := by
  obtain ⟨handled, hanswered, hran⟩ := h.ran
  cases a with
  | register addr isWrite f =>
      cases hstep
      refine ⟨?_, handled, hanswered, hran⟩
      have hinsert := labelsOf_insertCallback addr isWrite f s.core.requestMergeTable
      have hold := h.registered
      rw [List.perm_iff_count] at hold hinsert ⊢
      intro x
      have hx := hold x
      have hix := hinsert x
      simp only [pending, SparseCore.registerMemfetch, count_labelsOf_append, List.count_append,
        List.count_cons, List.count_nil] at hx hix ⊢
      omega
  | exchange =>
      cases hstep
      obtain ⟨heap, hframe⟩ := exchange_frame cfg s.core
      refine ⟨?_, handled ++ s.core.responseQueue.take (cfg.wPortNr + 1), ?_, ?_⟩
      · have hold := h.registered
        rw [List.perm_iff_count] at hold ⊢
        intro x
        have hx := hold x
        have htable := count_labelsOf_append
          (s.core.requestMergeTable.take (cfg.rPortNr + 1))
          (s.core.requestMergeTable.drop (cfg.rPortNr + 1)) x
        rw [List.take_append_drop] at htable
        simp only [pending, hframe, count_labelsOf_append] at hx ⊢
        omega
      · simp only [hframe]
        rw [hanswered, List.append_assoc, List.take_append_drop]
      · simp only [runIn, hran, List.flatMap_append]
  | popMemoryRequest =>
      dsimp only [PortRun.step] at hstep
      cases hqueue : s.core.requestQueue with
      | nil =>
          rw [hqueue] at hstep
          cases hstep
          exact h
      | cons r rest =>
          rw [hqueue] at hstep
          cases hstep
          refine ⟨?_, handled, hanswered, hran⟩
          have hold := h.registered
          rw [List.perm_iff_count] at hold ⊢
          intro x
          have hx := hold x
          have hfront := count_labelsOf_append [r] rest x
          simp only [pending, hqueue, count_labelsOf_append, List.singleton_append] at hx hfront ⊢
          omega
  | pushMemoryResponse n =>
      dsimp only [PortRun.step] at hstep
      cases hget : s.inFlight[n]? with
      | none =>
          rw [hget] at hstep
          cases hstep
          exact h
      | some r =>
          rw [hget] at hstep
          cases hstep
          refine ⟨?_, handled, by rw [hanswered, List.append_assoc], hran⟩
          obtain ⟨hn, rfl⟩ := List.getElem?_eq_some_iff.mp hget
          have herase := (List.getElem_cons_eraseIdx_perm hn).flatMap_right labels
          have hold := h.registered
          rw [List.perm_iff_count] at hold herase ⊢
          intro x
          have hx := hold x
          have hex := herase x
          change (labelsOf (s.inFlight[n] :: s.inFlight.eraseIdx n)).count x =
            (labelsOf s.inFlight).count x at hex
          have hfront := count_labelsOf_append [s.inFlight[n]] (s.inFlight.eraseIdx n) x
          simp only [pending, count_labelsOf_append, List.singleton_append] at hx hex hfront ⊢
          omega

omit [DecidableEq τ] in
theorem runOnce_of_reach {guard : PortRun τ ι → PortAction ι → Prop} {c : SparseCore τ ι}
    (htable : c.requestMergeTable = []) (hrequests : c.requestQueue = [])
    (hresponses : c.responseQueue = []) (h : Reach (PortRun.step cfg) guard { core := c } s) :
    s.RunOnce := by
  refine h.invariant (I := RunOnce) ⟨?_, [], ?_, rfl⟩ fun s a s' _ hs _ hstep => hs.step hstep
  · simp [pending, htable, hrequests, labelsOf]
  · exact hresponses.symm

end PortRun

/-! ## The ports in a cycle -/

/-- The queues are as they were, but for callbacks that were registered. -/
structure OnlyRegisters (c c' : SparseCore τ ι) : Prop where
  requests : c'.requestQueue = c.requestQueue
  responses : c'.responseQueue = c.responseQueue
  table : ∃ regs : List (Registration ι), c'.requestMergeTable =
    regs.foldl (fun t x => SparseCore.insertCallback x.1.1 x.1.2 x.2 t) c.requestMergeTable

namespace OnlyRegisters

variable {cfg : SparseConfig} {env : SparseEnv} {c c' c'' : SparseCore τ ι} {i : ι} {t : τ} {n : ℕ}

omit [DecidableEq τ] [DecidableEq ι] in
/-- What leaves the queues alone. -/
theorem of_eq (hrequests : c'.requestQueue = c.requestQueue)
    (hresponses : c'.responseQueue = c.responseQueue)
    (htable : c'.requestMergeTable = c.requestMergeTable) : OnlyRegisters c c' :=
  ⟨hrequests, hresponses, [], htable⟩

omit [DecidableEq τ] [DecidableEq ι] in
theorem trans (h : OnlyRegisters c c') (h' : OnlyRegisters c' c'') : OnlyRegisters c c'' := by
  obtain ⟨regs, hregs⟩ := h.table
  obtain ⟨regs', hregs'⟩ := h'.table
  refine ⟨h'.requests.trans h.requests, h'.responses.trans h.responses, regs ++ regs', ?_⟩
  rw [hregs', hregs, List.foldl_append]

omit [DecidableEq τ] [DecidableEq ι] in
/-- The same after something that leaves the queues alone. -/
theorem after (h : OnlyRegisters c' c'') (hrequests : c'.requestQueue = c.requestQueue)
    (hresponses : c'.responseQueue = c.responseQueue)
    (htable : c'.requestMergeTable = c.requestMergeTable) : OnlyRegisters c c'' :=
  trans (of_eq hrequests hresponses htable) h

omit [DecidableEq τ] [DecidableEq ι] in
theorem register (c : SparseCore τ ι) (addr : ℕ) (isWrite : Bool) (f : SparseCallback ι) :
    OnlyRegisters c (c.registerMemfetch addr isWrite f) :=
  ⟨rfl, rfl, [((addr, isWrite), f)], rfl⟩

omit [DecidableEq τ] in
theorem sendRequests (cfg : SparseConfig) (i : ι) (isWrite : Bool) (l : List ℕ)
    (c : SparseCore τ ι) : OnlyRegisters c (SparseCore.sendRequests cfg i isWrite l c) := by
  induction l generalizing c with
  | nil => exact of_eq rfl rfl rfl
  | cons addr l ih =>
      unfold SparseCore.sendRequests
      dsimp only
      refine trans ?_ (ih _)
      exact (register _ _ _ _).after rfl rfl rfl

omit [DecidableEq τ] [DecidableEq ι] in
theorem sendStonne (l : List (ℕ × Option Bool)) {valid : Bool}
    (h : SparseCore.sendStonne cfg n l c = .ok (c', valid)) : OnlyRegisters c c' := by
  induction l generalizing c with
  | nil =>
      cases h
      exact of_eq rfl rfl rfl
  | cons r l ih =>
      obtain ⟨addr, cmd⟩ := r
      unfold SparseCore.sendStonne at h
      split at h
      · cases h
      · cases cmd with
        | none =>
            cases h
            exact of_eq rfl rfl rfl
        | some isWrite => exact trans (register _ _ _ _) (ih h)

omit [DecidableEq ι] in
theorem stonneTurn (h : c.stonneTurn cfg env n = .ok c') : OnlyRegisters c c' := by
  obtain ⟨⟨d, valid⟩, hsend, h⟩ := bind_eq_ok.mp h
  refine trans (sendStonne _ hsend) ?_
  dsimp only at h
  split at h
  · split at h
    · cases h
    · split at h
      · cases h
        exact of_eq rfl rfl rfl
      · cases h
  · cases h
    exact of_eq rfl rfl rfl

theorem collectDma (l : List ι) (h : SparseCore.collectDma l c = .ok c') : OnlyRegisters c c' := by
  induction l generalizing c with
  | nil =>
      cases h
      exact of_eq rfl rfl rfl
  | cons i l ih =>
      unfold SparseCore.collectDma at h
      split at h
      · cases h
        exact of_eq rfl rfl rfl
      · dsimp only at h
        split at h
        · obtain ⟨d, hd, h⟩ := bind_eq_ok.mp h
          obtain ⟨-, rfl⟩ := SparseMove.finishInstruction_ok hd
          exact (ih h).after rfl rfl rfl
        · exact (ih h).after rfl rfl rfl

theorem collect (h : c.collect = .ok c') : OnlyRegisters c c' := by
  obtain ⟨d, hd, h⟩ := bind_eq_ok.mp h
  refine trans ?_ (collectDma _ h)
  unfold SparseCore.collectCompute at hd
  split at hd
  · cases hd
    exact of_eq rfl rfl rfl
  · split at hd
    · obtain ⟨e, he, hd⟩ := bind_eq_ok.mp hd
      obtain ⟨-, rfl⟩ := SparseMove.finishInstruction_ok he
      cases hd
      exact of_eq rfl rfl rfl
    · cases hd
      exact of_eq rfl rfl rfl

theorem issueInst (h : c.issueInst cfg t i = .ok c') : OnlyRegisters c c' := by
  unfold SparseCore.issueInst at h
  split at h
  · cases h
    exact trans (sendRequests cfg i false (c.traceAddress i) c) (of_eq rfl rfl rfl)
  · obtain ⟨d, hd, h⟩ := bind_eq_ok.mp h
    obtain ⟨-, rfl⟩ := SparseMove.finishInstruction_ok hd
    cases h
    exact trans (sendRequests cfg i true (c.traceAddress i) c) (of_eq rfl rfl rfl)
  · cases h
    exact of_eq rfl rfl rfl
  · cases h

theorem advance (h : c.advance cfg n = .ok c') : OnlyRegisters c c' := by
  unfold SparseCore.advance at h
  split at h
  · cases h
    exact of_eq rfl rfl rfl
  · split at h
    · cases h
      exact of_eq rfl rfl rfl
    · split at h
      · cases h
        exact of_eq rfl rfl rfl
      · split at h
        · exact issueInst h
        · cases h
          exact of_eq rfl rfl rfl

theorem subCoreCycle (h : c.subCoreCycle cfg env n = .ok c') : OnlyRegisters c c' := by
  unfold SparseCore.subCoreCycle at h
  split at h
  · obtain ⟨d, hd, h⟩ := bind_eq_ok.mp h
    exact trans (collect hd) (advance h)
  · exact stonneTurn h

/-- The turns of the subcores only register callbacks. -/
theorem turns (h : c.turns cfg env n = .ok c') : OnlyRegisters c c' := by
  refine foldlM_invariant (I := OnlyRegisters c) _ h (of_eq rfl rfl rfl) ?_
  intro d m d' _ hd hturn
  exact trans hd (subCoreCycle hturn)

end OnlyRegisters

section

variable {cfg : SparseConfig} {env : SparseEnv} {c c' : SparseCore τ ι}

/-- What a cycle does to the queues. -/
theorem cycle_ports (h : c.cycle cfg env = .ok c') :
    ∃ t, c.turns cfg env cfg.nrCores = .ok t ∧ OnlyRegisters c t ∧
      c'.requestQueue = c.requestQueue ++ t.requestMergeTable.take (cfg.rPortNr + 1) ∧
      c'.requestMergeTable = t.requestMergeTable.drop (cfg.rPortNr + 1) ∧
      c'.responseQueue = c.responseQueue.drop (cfg.wPortNr + 1) := by
  obtain ⟨t, hturns, h⟩ := bind_eq_ok.mp h
  cases h
  have hregisters := OnlyRegisters.turns hturns
  obtain ⟨heap, hframe⟩ := exchange_frame cfg t
  refine ⟨t, hturns, hregisters, ?_⟩
  rw [hframe, ← hregisters.requests, ← hregisters.responses]
  exact ⟨rfl, rfl, rfl⟩

/-- A recorded run has the queues of a sparse core. -/
structure SamePorts (g : PortRun τ ι) (s : SparseSystem τ ι) : Prop where
  table : g.core.requestMergeTable = s.core.requestMergeTable
  requests : g.core.requestQueue = s.core.requestQueue
  responses : g.core.responseQueue = s.core.responseQueue
  inFlight : g.inFlight = s.inFlight

omit [DecidableEq τ] in
/-- Callbacks that are registered one after the other. -/
theorem exists_registers (cfg : SparseConfig) (regs : List (Registration ι)) (g : PortRun τ ι) :
    ∃ g', Reach (PortRun.step cfg) (fun _ _ => True) g g' ∧
      g'.core.requestMergeTable = regs.foldl (fun t x =>
        SparseCore.insertCallback x.1.1 x.1.2 x.2 t) g.core.requestMergeTable ∧
      g'.core.requestQueue = g.core.requestQueue ∧
      g'.core.responseQueue = g.core.responseQueue ∧ g'.inFlight = g.inFlight := by
  induction regs generalizing g with
  | nil => exact ⟨g, .init, rfl, rfl, rfl, rfl⟩
  | cons x regs ih =>
      obtain ⟨g₁, hstep⟩ : ∃ g₁, g.step cfg (.register x.1.1 x.1.2 x.2) = .ok g₁ := ⟨_, rfl⟩
      obtain ⟨g', hreach, htable, hrequests, hresponses, hflight⟩ := ih g₁
      have hfirst : Reach (PortRun.step cfg) (fun _ _ => True) g g₁ :=
        Reach.init.step _ trivial hstep
      refine ⟨g', hfirst.trans hreach, ?_⟩
      cases hstep
      exact ⟨htable, hrequests, hresponses, hflight⟩

/-- **Every run of a sparse core is a recorded run of its queues.** -/
theorem SamePorts.step {g : PortRun τ ι} {s s' : SparseSystem τ ι} (h : SamePorts g s)
    {a : SparseAction τ} (hstep : s.step cfg a = .ok s') :
    ∃ g', Reach (PortRun.step cfg) (fun _ _ => True) g g' ∧ SamePorts g' s' := by
  cases a with
  | issue t =>
      dsimp only [SparseSystem.step] at hstep
      split at hstep
      · obtain ⟨core, hissue, hs⟩ := bind_eq_ok.mp hstep
        cases hs
        unfold SparseCore.issue at hissue
        split at hissue
        · cases hissue
        · cases hissue
          exact ⟨g, .init, h.table, h.requests, h.responses, h.inFlight⟩
      · cases hstep
        exact ⟨g, .init, h⟩
  | cycle env =>
      obtain ⟨core, hcycle, hs⟩ := bind_eq_ok.mp hstep
      cases hs
      obtain ⟨t, -, hregisters, hrequests, htable, hresponses⟩ := cycle_ports hcycle
      obtain ⟨regs, hregs⟩ := hregisters.table
      obtain ⟨g₁, hreach, htable₁, hrequests₁, hresponses₁, hflight₁⟩ :=
        exists_registers cfg regs g
      obtain ⟨g₂, hexchange⟩ : ∃ g₂, g₁.step cfg .exchange = .ok g₂ := ⟨_, rfl⟩
      refine ⟨g₂, hreach.step _ trivial hexchange, ?_⟩
      obtain ⟨heap, hframe⟩ := exchange_frame cfg g₁.core
      cases hexchange
      have hsame : g₁.core.requestMergeTable = t.requestMergeTable := by
        rw [htable₁, hregs, h.table]
      constructor
      · simp only [hframe, hsame, htable]
      · simp only [hframe, hsame, hrequests, hrequests₁, h.requests]
      · simp only [hframe, hresponses, hresponses₁, h.responses]
      · exact hflight₁.trans h.inFlight
  | popFinishedTile =>
      cases hstep
      exact ⟨g, .init, h.table, h.requests, h.responses, h.inFlight⟩
  | popMemoryRequest =>
      obtain ⟨g', hg⟩ : ∃ g', g.step cfg .popMemoryRequest = .ok g' := by
        dsimp only [PortRun.step]
        split <;> exact ⟨_, rfl⟩
      refine ⟨g', Reach.init.step _ trivial hg, ?_⟩
      dsimp only [SparseSystem.step, PortRun.step] at hstep hg
      rw [h.requests] at hg
      cases hqueue : s.core.requestQueue with
      | nil =>
          rw [hqueue] at hg hstep
          cases hg
          cases hstep
          exact h
      | cons r rest =>
          rw [hqueue] at hg hstep
          cases hg
          cases hstep
          exact ⟨h.table, rfl, h.responses, by rw [h.inFlight]⟩
  | pushMemoryResponse n =>
      obtain ⟨g', hg⟩ : ∃ g', g.step cfg (.pushMemoryResponse n) = .ok g' := by
        dsimp only [PortRun.step]
        split <;> exact ⟨_, rfl⟩
      refine ⟨g', Reach.init.step _ trivial hg, ?_⟩
      dsimp only [SparseSystem.step, PortRun.step] at hstep hg
      rw [h.inFlight] at hg
      cases hget : s.inFlight[n]? with
      | none =>
          rw [hget] at hg hstep
          cases hg
          cases hstep
          exact h
      | some r =>
          rw [hget] at hg hstep
          cases hg
          cases hstep
          exact ⟨h.table, h.requests, by rw [h.responses], rfl⟩

/-- The callbacks of a sparse core run once, after their answers. -/
theorem exists_runOnce {P : TileProgram τ ι} {customData : τ → Bool} {traceAddress : ι → List ℕ}
    {s : SparseSystem τ ι} {guard : SparseSystem τ ι → SparseAction τ → Prop}
    (hs : Reach (SparseSystem.step cfg) guard (.init P customData traceAddress) s) :
    ∃ g, SamePorts g s ∧ g.RunOnce := by
  obtain ⟨g, hreach, hsame⟩ : ∃ g, Reach (PortRun.step cfg) (fun _ _ => True)
      { core := (SparseSystem.init P customData traceAddress).core } g ∧ SamePorts g s := by
    induction hs with
    | init => exact ⟨_, .init, rfl, rfl, rfl, rfl⟩
    | step a _ _ hstep ih =>
        obtain ⟨g, hg, hsame⟩ := ih
        obtain ⟨g', hg', hsame'⟩ := hsame.step hstep
        exact ⟨g', hg.trans hg', hsame'⟩
  exact ⟨g, hsame, PortRun.runOnce_of_reach rfl rfl rfl hreach⟩

/-- **Callbacks and ports**: every registered callback runs once, after its answer, and a cycle
keeps to its ports exactly when it finds no more requests and answers than they take. -/
theorem callbacks_and_ports (cfg : SparseConfig) (P : TileProgram τ ι) (customData : τ → Bool)
    (traceAddress : ι → List ℕ) :
    (∀ s, Reach (PortRun.step cfg) (fun _ _ => True)
      { core := (SparseSystem.init P customData traceAddress).core } s → s.RunOnce) ∧
    ∀ (c c' : SparseCore τ ι) env, c.cycle cfg env = .ok c' →
      ∃ t, c.turns cfg env cfg.nrCores = .ok t ∧
      c'.requestQueue = c.requestQueue ++ t.requestMergeTable.take (cfg.rPortNr + 1) ∧
      c'.requestMergeTable = t.requestMergeTable.drop (cfg.rPortNr + 1) ∧
      c'.responseQueue = c.responseQueue.drop (cfg.wPortNr + 1) ∧
      (c'.requestQueue.length - c.requestQueue.length ≤ cfg.rPortNr ↔
        t.requestMergeTable.length ≤ cfg.rPortNr) ∧
      (c.responseQueue.length - c'.responseQueue.length ≤ cfg.wPortNr ↔
        c.responseQueue.length ≤ cfg.wPortNr) := by
  constructor
  · intro s hs
    exact PortRun.runOnce_of_reach rfl rfl rfl hs
  · intro c c' env hcycle
    obtain ⟨t, hturns, -, hrequests, htable, hresponses⟩ := cycle_ports hcycle
    refine ⟨t, hturns, hrequests, htable, hresponses, ?_, ?_⟩
    · rw [hrequests, List.length_append, List.length_take]
      omega
    · rw [hresponses, List.length_drop]
      omega

/-- One subcore with a port for one request and one answer. -/
def onePort : SparseConfig where
  nrCores := 1
  rPortNr := 1
  wPortNr := 1
  dramReqSize := 32

/-- A subcore makes three requests in a cycle, and two of them go to the memory. -/
theorem port_exceeded : ∃ env c',
    (SparseSystem.init (oneCompute 0) (fun _ => false) fun _ => []).core.cycle onePort env =
      .ok c' ∧ ¬ c'.requestQueue.length ≤ onePort.rPortNr :=
  ⟨{ popRequests := fun _ => [(0, some false), (32, some false), (64, some false)] }, _, rfl,
    by decide⟩

end

end PyTorchSim.Analysis
