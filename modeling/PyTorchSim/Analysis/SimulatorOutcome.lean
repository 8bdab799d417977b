import PyTorchSim.Analysis.RequestTraffic

/-!
# What a step of the simulator does

Each function of the simulator is a row of the small moves, and none of them uses a node
that the interconnect does not have.
-/

set_option autoImplicit false

namespace PyTorchSim.Analysis

open PyTorchSim.Model PyTorchSim.Library Relation

variable {κ τ ι ε : Type} [DecidableEq τ] {ops : CoreInterface κ τ ι ε} {cfg : SimulationConfig}
  {s s' : Simulator κ τ ι} {env : TickEnv ε}

/-- A fault that is not a node out of range. -/
def NodesExist (e : SimFault) (_ : Simulator κ τ ι) : Prop := e ≠ .nodeOutOfRange

section Bind

variable {α β : Type} {micro : Simulator κ τ ι → Simulator κ τ ι → Prop}
  {post : β → Simulator κ τ ι} {x : Except SimFault α} {g : α → Except SimFault β}

omit [DecidableEq τ] in
/-- A part that leaves the state as it is. -/
theorem outcome_bind (herr : x ≠ .error .nodeOutOfRange)
    (hg : ∀ v, x = .ok v → Outcome micro NodesExist s post (g v)) :
    Outcome micro NodesExist s post (x >>= g) := by
  cases hx : x with
  | error e => exact Outcome.fault fun he => herr (hx.trans (congrArg _ he))
  | ok v => exact hg v hx

theorem mapError_ne {δ : Type} {y : Except δ α} {f : δ → SimFault}
    (hf : ∀ e, f e ≠ .nodeOutOfRange) : y.mapError f ≠ .error .nodeOutOfRange := by
  cases y with
  | error e => exact fun h => hf e (Except.error.inj h)
  | ok v => exact nofun

theorem mapError_ok {δ : Type} {y : Except δ α} {f : δ → SimFault} {v : α}
    (h : y.mapError f = .ok v) : y = .ok v := by
  cases y with
  | error e => cases h
  | ok w => cases h; rfl

end Bind

theorem schedulerOf_ne (cfg : SimulationConfig) (core : ℕ) :
    Simulator.schedulerOf cfg core ≠ .error .nodeOutOfRange := by
  unfold Simulator.schedulerOf
  split <;> exact nofun

theorem schedulerOf_ok {core p : ℕ} (h : Simulator.schedulerOf cfg core = .ok p) :
    p = cfg.partitionMap core := by
  unfold Simulator.schedulerOf at h
  split at h
  · cases h
    rfl
  · cases h

omit [DecidableEq τ] in
theorem setScheduler_setScheduler (s : Simulator κ τ ι) (p : ℕ) (sched sched' : Scheduler τ ι) :
    (s.setScheduler p sched).setScheduler p sched' = s.setScheduler p sched' := by
  unfold Simulator.setScheduler
  simp

/-! ## The cores -/

theorem offerTile_outcome (slot tie core : ℕ) :
    Outcome (SimStep ops cfg) NodesExist s Prod.fst
      (Simulator.offerTile ops cfg slot tie core s) := by
  unfold Simulator.offerTile
  refine outcome_bind (schedulerOf_ne cfg core) fun p hp => ?_
  obtain rfl := schedulerOf_ok hp
  rcases hpeek : (s.partition (cfg.partitionMap core)).sched.peekTile s.coreCycles core slot tie
    (cfg.coreType core) with ⟨tile, sched⟩
  have hmove : SimStep ops cfg s (s.setScheduler (cfg.partitionMap core) sched) := by
    have h : SimStep ops cfg s _ := .peek s core slot tie
    rw [hpeek] at h
    exact h
  cases tile with
  | none => exact .single hmove
  | some t =>
      dsimp only
      split
      · rename_i hissue
        split
        · rename_i hstatus
          refine outcome_bind (mapError_ne fun _ => nofun) fun r hr => ?_
          obtain ⟨u, sched'⟩ := r
          cases u with
          | none => exact Outcome.fault nofun
          | some u =>
              rw [setScheduler_setScheduler]
              exact .single (.issue s core slot tie t u sched sched' hpeek hissue hstatus
                (mapError_ok hr))
        · exact Outcome.fault nofun
      · exact .single hmove

/-- The moves keep the invariant of the requests. -/
theorem sim_keeps (ops : CoreInterface κ τ ι ε) (cfg : SimulationConfig)
    (s t : Simulator κ τ ι) (hI : RequestInv cfg s) (h : SimStep ops cfg s t) :
    RequestInv cfg t := h.requests hI

theorem offerTiles_outcome (hI : RequestInv cfg s) (slot : ℕ) (tie : ℕ → ℕ) (l : List ℕ) :
    Outcome (SimStep ops cfg) NodesExist s id (Simulator.offerTiles ops cfg slot tie l s) := by
  induction l generalizing s with
  | nil => exact .ok rfl
  | cons core rest ih =>
      unfold Simulator.offerTiles
      refine Outcome.bind (sim_keeps ops cfg) hI (offerTile_outcome slot (tie core) core)
        fun b _ hb => ?_
      dsimp only
      split
      · exact .ok rfl
      · exact ih hb

theorem issueTiles_outcome (hI : RequestInv cfg s) :
    Outcome (SimStep ops cfg) NodesExist s id (Simulator.issueTiles ops cfg env s) := by
  unfold Simulator.issueTiles
  refine Outcome.foldlM (sim_keeps ops cfg) _ hI fun t i _ ht => ?_
  exact Outcome.bind (sim_keeps ops cfg) ht (offerTiles_outcome ht _ _ _)
    fun u _ _ => .single (.slot u _)

theorem reportTile_outcome (core : ℕ) :
    Outcome (SimStep ops cfg) NodesExist s id (Simulator.reportTile ops cfg core s) := by
  unfold Simulator.reportTile
  rcases hpop : ops.popFinishedTile (s.cores core) with ⟨tile, c⟩
  have hc : c = (ops.popFinishedTile (s.cores core)).2 := by rw [hpop]
  cases tile with
  | none =>
      dsimp only
      rw [hc]
      exact .single (.popTile s core (by rw [hpop]))
  | some t =>
      dsimp only
      refine outcome_bind (schedulerOf_ne cfg core) fun p hp => ?_
      obtain rfl := schedulerOf_ok hp
      refine outcome_bind (mapError_ne fun _ => nofun) fun sched hsched => ?_
      rw [hc]
      exact .single (.report s core t sched (by rw [hpop]) (mapError_ok hsched))

theorem cycleCore_outcome (hI : RequestInv cfg s) (core : ℕ) :
    Outcome (SimStep ops cfg) NodesExist s id (Simulator.cycleCore ops cfg env s core) := by
  unfold Simulator.cycleCore
  refine Outcome.bind (sim_keeps ops cfg) hI (reportTile_outcome core) fun t _ _ => ?_
  refine outcome_bind (mapError_ne fun _ => nofun) fun c hc => ?_
  exact .single (.cycle _ core _ c (mapError_ok hc))

omit [DecidableEq τ] in
/-- The cycle of the caches, channel by channel. -/
theorem cacheCycle_steps (s : Simulator κ τ ι) (l : List ℕ) :
    ReflTransGen CacheStep s { s with dram := l.foldl SimpleDRAM.noL2Cycle s.dram } := by
  induction l generalizing s with
  | nil => exact .refl
  | cons ch l ih => exact .head (.noL2 s ch) (ih { s with dram := s.dram.noL2Cycle ch })

/-! ## The DRAM -/

theorem dramCycle_steps (s : Simulator κ τ ι) :
    ReflTransGen (SimStep ops cfg) s s.dramCycle := by
  unfold Simulator.dramCycle SimpleDRAM.cycle
  induction List.range s.dram.nCh generalizing s with
  | nil => exact .refl
  | cons ch l ih =>
      refine .head (.dramTick s ch) (.head (.dramAdmit _ ch) (.head (.dramReply _ ch) ?_))
      exact ih { s with dram := ((s.dram.tick ch).fromCache ch).toCache ch }

/-! ## The interconnect -/

omit [DecidableEq τ] in
theorem getChannelId_ne (r : MemFetch ι) : cfg.getChannelId r ≠ .error .nodeOutOfRange := by
  unfold SimulationConfig.getChannelId
  split
  · split <;> simp
  · simp

omit [DecidableEq τ] in
theorem getDestNode_ne (a : Access ι) : cfg.getDestNode a ≠ .error .nodeOutOfRange := by
  intro h
  unfold SimulationConfig.getDestNode at h
  cases hch : cfg.getChannelId a.fetch with
  | error e =>
      rw [hch] at h
      exact getChannelId_ne a.fetch (hch.trans h)
  | ok ch =>
      rw [hch] at h
      by_cases hports : cfg.icntInjectionPortsPerCore = 0
      · cases htype : a.mfType <;> simp [htype, hports, bind, Except.bind, pure, Except.pure] at h
      · cases htype : a.mfType <;> simp [htype, hports, bind, Except.bind, pure, Except.pure] at h

omit [DecidableEq τ] in
theorem push_ne {n : SimpleInterconnect (Access ι)} {src dest : ℕ} {a : Access ι}
    (hsrc : src < n.nNodes) (hdest : dest < n.nNodes) :
    n.push src dest a ≠ .error .nodeOutOfRange := by
  unfold SimpleInterconnect.push
  rw [if_pos ⟨hsrc, hdest⟩]
  exact nofun

omit [DecidableEq τ] in
/-- The buffers of the interconnect have no bound. -/
theorem not_full (n : SimpleInterconnect (Access ι)) (nid : ℕ) : ¬ n.isFull nid = true :=
  Bool.false_ne_true

theorem sendRequest_outcome (hI : RequestInv cfg s) {core noc : ℕ} (hcore : core < cfg.numCores)
    (hnoc : noc < cfg.icntInjectionPortsPerCore) :
    Outcome (SimStep ops cfg) NodesExist s id (Simulator.sendRequest ops cfg core
      (core * cfg.icntInjectionPortsPerCore + noc) s) := by
  unfold Simulator.sendRequest
  cases hq : ops.requestQueue (s.cores core) with
  | nil => exact .ok rfl
  | cons r rest =>
      dsimp only
      rw [if_neg (not_full s.icnt _)]
      refine outcome_bind (getChannelId_ne r) fun ch hch => ?_
      split
      · exact Outcome.fault nofun
      · rename_i hper
        refine outcome_bind (getDestNode_ne _) fun dest hdest => ?_
        have hout : Outbound (Access.ofFetch core (s.sent core).length r) := ⟨rfl, rfl⟩
        have hrouted : Routed cfg (Access.ofFetch core (s.sent core).length r) :=
          ⟨hcore, by omega, ch, channel_lt hper hch, hch⟩
        have hlt := RequestInv.dest_lt hrouted (.inl hout) hdest
        have hport := port_lt hcore hnoc
        refine outcome_bind (push_ne ?_ ?_) fun icnt hicnt => ?_
        · rw [hI.nodes, SimulationConfig.nNodes]
          omega
        · rw [hI.nodes]
          exact hlt
        · exact .single (.send s core noc dest r rest icnt hcore hnoc hper hq hdest hicnt)

omit [DecidableEq τ] in
/-- What a node that exists has received. -/
theorem arrivals_cases {n : SimpleInterconnect (Access ι)} {nid : ℕ} (hnid : nid < n.nNodes) :
    n.isEmpty nid = .ok true ∨ ∃ a rest, n.isEmpty nid = .ok false ∧
      n.outBuffers nid = a :: rest ∧ n.top nid = .ok a ∧ n.pop nid = .ok (n.setOut nid rest) := by
  unfold SimpleInterconnect.isEmpty SimpleInterconnect.top SimpleInterconnect.pop
  simp only [if_pos hnid]
  cases hq : n.outBuffers nid with
  | nil => exact .inl rfl
  | cons a rest => exact .inr ⟨a, rest, rfl, rfl, rfl, rfl⟩

theorem receiveResponse_outcome (hI : RequestInv cfg s) {core noc : ℕ}
    (hcore : core < cfg.numCores) (hnoc : noc < cfg.icntInjectionPortsPerCore) :
    Outcome (SimStep ops cfg) NodesExist s id (Simulator.receiveResponse ops core
      (core * cfg.icntInjectionPortsPerCore + noc) s) := by
  have hport := port_lt hcore hnoc
  have hnid : core * cfg.icntInjectionPortsPerCore + noc < s.icnt.nNodes := by
    rw [hI.nodes, SimulationConfig.nNodes]
    omega
  unfold Simulator.receiveResponse
  rcases arrivals_cases hnid with hempty | ⟨a, rest, hempty, hq, htop, hpop⟩
  · rw [hempty]
    exact .ok rfl
  · rw [hempty, htop, hpop]
    exact .single (.receive s core noc a rest hcore hnoc hq)

theorem cyclePort_outcome (hI : RequestInv cfg s) {k : ℕ × ℕ} (hk : k ∈ Simulator.ports cfg) :
    Outcome (SimStep ops cfg) NodesExist s id (Simulator.cyclePort ops cfg s k) := by
  obtain ⟨core, hcore, hk⟩ := List.mem_flatMap.mp hk
  obtain ⟨noc, hnoc, rfl⟩ := List.mem_map.mp hk
  rw [List.mem_range] at hcore hnoc
  unfold Simulator.cyclePort
  exact Outcome.bind (sim_keeps ops cfg) hI (sendRequest_outcome hI hcore hnoc)
    fun t _ ht => receiveResponse_outcome ht hcore hnoc

theorem toMemory_outcome (hI : RequestInv cfg s) {mem : ℕ} (hmem : mem < cfg.dramChannels) :
    Outcome (SimStep ops cfg) NodesExist s id (Simulator.toMemory cfg mem s) := by
  have hnid : cfg.numCores * cfg.icntInjectionPortsPerCore + mem < s.icnt.nNodes := by
    rw [hI.nodes, SimulationConfig.nNodes]
    omega
  unfold Simulator.toMemory
  rcases arrivals_cases hnid with hempty | ⟨a, rest, hempty, hq, htop, hpop⟩
  · dsimp only
    rw [hempty]
    exact .ok rfl
  · dsimp only [SimpleDRAM.isFull]
    rw [hempty, htop, hpop]
    exact .single (.toMemory s mem a rest hmem hq)

theorem fromMemory_outcome (hI : RequestInv cfg s) {mem : ℕ} (hmem : mem < cfg.dramChannels) :
    Outcome (SimStep ops cfg) NodesExist s id (Simulator.fromMemory cfg mem s) := by
  unfold Simulator.fromMemory SimpleDRAM.isEmpty SimpleDRAM.top
  cases hq : s.dram.toCrossbarQueue mem with
  | nil => exact .ok rfl
  | cons a rest =>
      dsimp only
      rw [if_neg (by rw [List.isEmpty_cons]; exact Bool.false_ne_true),
        if_neg (not_full s.icnt _)]
      have hmember : a ∈ stationed s (.toCrossbar mem) := by
        show a ∈ s.dram.toCrossbarQueue mem
        rw [hq]
        exact List.mem_cons_self
      have hrouted := hI.traffic.routed _ a hmember
      have hin : Inbound a := hI.traffic.fits _ a hmember
      refine outcome_bind nofun fun b hb => ?_
      cases hb
      refine outcome_bind (getDestNode_ne a) fun dest hdest => ?_
      have hlt := RequestInv.dest_lt hrouted (.inr hin) hdest
      refine outcome_bind (push_ne ?_ ?_) fun icnt hicnt => ?_
      · rw [hI.nodes, SimulationConfig.nNodes]
        omega
      · rw [hI.nodes]
        exact hlt
      · exact .single (.fromMemory s mem dest a rest icnt hmem hq hdest hicnt)

theorem cycleMemory_outcome (hI : RequestInv cfg s) {mem : ℕ} (hmem : mem < cfg.dramChannels) :
    Outcome (SimStep ops cfg) NodesExist s id (Simulator.cycleMemory cfg s mem) := by
  unfold Simulator.cycleMemory
  exact Outcome.bind (sim_keeps ops cfg) hI (toMemory_outcome hI hmem)
    fun t _ ht => fromMemory_outcome ht hmem

/-- The cycle of the interconnect, node by node. -/
theorem icnt_steps (s : Simulator κ τ ι) :
    ReflTransGen (SimStep ops cfg) s { s with icnt := s.icnt.cycle } := by
  have hnodes : ∀ (l : List ℕ) (s : Simulator κ τ ι), ReflTransGen (SimStep ops cfg) s
      { s with icnt := l.foldl SimpleInterconnect.deliver s.icnt } := by
    intro l
    induction l with
    | nil => exact fun s => .refl
    | cons dest l ih =>
        exact fun s => .head (.deliver s dest) (ih { s with icnt := s.icnt.deliver dest })
  exact (hnodes (List.range s.icnt.nNodes) s).tail (.icntClock _ _)

theorem icntCycle_outcome (hI : RequestInv cfg s) :
    Outcome (SimStep ops cfg) NodesExist s id (Simulator.icntCycle ops cfg s) := by
  unfold Simulator.icntCycle
  refine Outcome.bind (sim_keeps ops cfg) hI (Outcome.foldlM (sim_keeps ops cfg) _ hI
    fun t k hk ht => cyclePort_outcome ht hk) fun t _ ht => ?_
  refine Outcome.bind (sim_keeps ops cfg) ht (Outcome.foldlM (sim_keeps ops cfg) _ ht
    fun u mem hmem hu => cycleMemory_outcome hu (List.mem_range.mp hmem)) fun u _ _ => ?_
  exact Outcome.steps (icnt_steps u) (.ok rfl)

/-! ## A step -/

/-- A move of the simulator or of its caches. -/
def AnyStep (ops : CoreInterface κ τ ι ε) (cfg : SimulationConfig) (s s' : Simulator κ τ ι) :
    Prop := SimStep ops cfg s s' ∨ CacheStep s s'

theorem any_keeps (ops : CoreInterface κ τ ι ε) (cfg : SimulationConfig)
    (s t : Simulator κ τ ι) (hI : RequestInv cfg s) (h : AnyStep ops cfg s t) :
    RequestInv cfg t := by
  rcases h with h | h
  · exact h.requests hI
  · exact h.requests hI

/-- The moves without the caches are moves. -/
theorem Outcome.any {β : Type} {post : β → Simulator κ τ ι} {r : Except SimFault β}
    (h : Outcome (SimStep ops cfg) NodesExist s post r) :
    Outcome (AnyStep ops cfg) NodesExist s post r :=
  h.mono (fun _ _ => .inl) fun _ _ => id

theorem coreCycle_outcome (hI : RequestInv cfg s) :
    Outcome (AnyStep ops cfg) NodesExist s id (Simulator.coreCycle ops cfg env s) := by
  unfold Simulator.coreCycle
  refine Outcome.bind (any_keeps ops cfg) hI (Outcome.any (issueTiles_outcome hI))
    fun t _ ht => ?_
  refine Outcome.bind (any_keeps ops cfg) ht (Outcome.any (Outcome.foldlM (sim_keeps ops cfg) _ ht
    fun u core _ hu => cycleCore_outcome hu core)) fun u _ _ => ?_
  have hcaches : ReflTransGen CacheStep u
      { u with dram := u.dram.cacheCycle, coreCycles := u.coreCycles + 1 } :=
    (cacheCycle_steps u (List.range u.dram.nCh)).tail (.clock _ _)
  exact Outcome.steps (ReflTransGen.mono (fun _ _ => .inr) _ _ hcaches) (.ok rfl)

/-- The part of a step after the cycle of the cores. -/
theorem memory_outcome (hI : RequestInv cfg s) (dram icnt : Bool) :
    Outcome (SimStep ops cfg) NodesExist s id
      (if icnt then Simulator.icntCycle ops cfg (if dram then s.dramCycle else s)
        else pure (if dram then s.dramCycle else s)) := by
  have hdram : ReflTransGen (SimStep ops cfg) s (if dram then s.dramCycle else s) := by
    split
    · exact dramCycle_steps s
    · exact .refl
  refine Outcome.steps hdram ?_
  cases icnt with
  | true => exact icntCycle_outcome (Outcome.invariant (sim_keeps ops cfg) hdram hI)
  | false => exact .ok rfl

theorem tick_outcome (hI : RequestInv cfg s) (mask : CycleMask) :
    Outcome (AnyStep ops cfg) NodesExist s id (Simulator.tick ops cfg mask env s) := by
  obtain ⟨core, dram, icnt⟩ := mask
  cases core with
  | true =>
      exact Outcome.bind (any_keeps ops cfg) hI (coreCycle_outcome hI)
        fun t _ ht => Outcome.any (memory_outcome ht dram icnt)
  | false => exact Outcome.any (memory_outcome hI dram icnt)

/-- An action of the simulator is a row of moves, and uses no node out of range. -/
theorem simStep_outcome (ops : CoreInterface κ τ ι ε) (hI : RequestInv cfg s) (a : SimAction ε) :
    Outcome (AnyStep ops cfg) NodesExist s id (Simulator.step ops cfg s a) := by
  cases a with
  | enqueueGraph p =>
      dsimp only [Simulator.step]
      split
      · refine outcome_bind (mapError_ne fun _ => nofun) fun d hd => ?_
        exact .single (.inl (.launch s p d (mapError_ok hd)))
      · exact Outcome.fault nofun
  | tick mask env => exact tick_outcome hI mask

/-- The invariant holds in every state a simulator reaches. -/
theorem requestInv_of_reach {cores : ℕ → κ} {P : ℕ → TilePlan τ ι}
    (h : Reach (Simulator.step ops cfg) (fun _ _ => True) (Simulator.init cfg cores P) s) :
    RequestInv cfg s := by
  refine h.invariant (RequestInv.init cfg cores P) fun s a s' _ hI _ hs => ?_
  have hout := simStep_outcome ops hI a
  rw [hs] at hout
  exact Outcome.invariant (any_keeps ops cfg) hout hI

end PyTorchSim.Analysis
