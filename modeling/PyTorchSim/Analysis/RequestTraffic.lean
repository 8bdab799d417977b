import PyTorchSim.Analysis.SimulatorSteps
import PyTorchSim.Library.Exclusive

/-!
# The way of a request

A request that left its core is in one queue of the interconnect or the memory, or back at the
core.  `TrafficInv` says this of all queues together with what each queue says about the
requests in it: which way they go, where to, and whether `set_reply` has been called.
-/

set_option autoImplicit false

namespace PyTorchSim.Analysis

open PyTorchSim.Model PyTorchSim.Library

variable {κ τ ι ε : Type}

/-! ## Destinations -/

section Destination

variable {cfg : SimulationConfig} {r : MemFetch ι} {a : Access ι} {ch dest : ℕ}

/-- The channel of a request exists. -/
theorem channel_lt (hpos : cfg.dramChannelsPerPartitions ≠ 0)
    (h : cfg.getChannelId r = .ok ch) : ch < cfg.dramChannels := by
  have hper : 0 < cfg.dramChannelsPerPartitions := Nat.pos_of_ne_zero hpos
  have hall : cfg.dramNumPartitions * cfg.dramChannelsPerPartitions = cfg.dramChannels :=
    Nat.mul_div_cancel' cfg.partitions_dvd
  unfold SimulationConfig.getChannelId at h
  rw [dif_pos hper] at h
  split at h
  · rename_i c hc
    cases h
    obtain ⟨c, hin, rfl⟩ := Option.map_eq_some_iff.mp hc
    have hc : c < cfg.dramChannelsPerPartitions := by
      unfold DramConfig.channelInPartition at hin
      dsimp only at hin
      split at hin
      · obtain ⟨v, -, rfl⟩ := Option.map_eq_some_iff.mp hin
        exact Nat.mod_lt _ hper
      · cases hin
        exact hper
    have hpart : r.numaId % cfg.dramNumPartitions < cfg.dramNumPartitions :=
      Nat.mod_lt _ cfg.partitions_pos
    have hsum : c + r.numaId % cfg.dramNumPartitions * cfg.dramChannelsPerPartitions <
        cfg.dramNumPartitions * cfg.dramChannelsPerPartitions := by
      have hle := Nat.mul_le_mul_right cfg.dramChannelsPerPartitions (Nat.succ_le_of_lt hpart)
      rw [Nat.succ_mul] at hle
      omega
    have hmod := Nat.mod_le
      (c + r.numaId % cfg.dramNumPartitions * cfg.dramChannelsPerPartitions) (2 ^ 32)
    rw [← hall]
    exact lt_of_le_of_lt hmod hsum
  · cases h

/-- A request goes out. -/
def Outbound (a : Access ι) : Prop := a.mfType = .request a.fetch.isWrite ∧ a.replies = 0

/-- A reply comes in, and `set_reply` made it one. -/
def Inbound (a : Access ι) : Prop := a.mfType = .reply a.fetch.isWrite ∧ a.replies = 1

/-- `set_reply` turns a request into the matching reply. -/
theorem Outbound.setReply (h : Outbound a) : Inbound a.setReply := by
  obtain ⟨htype, hcount⟩ := h
  refine ⟨?_, by rw [Access.setReply, hcount]⟩
  show a.mfType.setReply = .reply a.fetch.isWrite
  rw [htype]
  cases a.fetch.isWrite <;> rfl

/-- The destination of a request is the node of its channel. -/
theorem dest_outbound (h : Outbound a) (hch : cfg.getChannelId a.fetch = .ok ch) :
    cfg.getDestNode a = .ok (cfg.numCores * cfg.icntInjectionPortsPerCore + ch) := by
  unfold SimulationConfig.getDestNode
  rw [hch, h.1]
  cases a.fetch.isWrite <;> rfl

/-- The destination of a reply is a port of its core. -/
theorem dest_inbound (h : Inbound a) (hports : 0 < cfg.icntInjectionPortsPerCore)
    (hch : cfg.getChannelId a.fetch = .ok ch) :
    cfg.getDestNode a = .ok (a.coreId * cfg.icntInjectionPortsPerCore +
      ch % cfg.icntInjectionPortsPerCore) := by
  unfold SimulationConfig.getDestNode
  rw [hch, h.1]
  have hne : cfg.icntInjectionPortsPerCore ≠ 0 := hports.ne'
  cases a.fetch.isWrite <;> simp [MfType.reply, hne, bind, Except.bind, pure, Except.pure]

/-- The port of a core is before the nodes of the channels. -/
theorem port_lt {core noc : ℕ} (hcore : core < cfg.numCores)
    (hnoc : noc < cfg.icntInjectionPortsPerCore) :
    core * cfg.icntInjectionPortsPerCore + noc <
      cfg.numCores * cfg.icntInjectionPortsPerCore := by
  have hle := Nat.mul_le_mul_right cfg.icntInjectionPortsPerCore (Nat.succ_le_of_lt hcore)
  rw [Nat.succ_mul] at hle
  omega

end Destination

/-! ## The queues -/

/-- A queue that holds requests outside their cores, or what a core got back. -/
inductive Station
  | inBuffer (src dest : ℕ)
  | outBuffer (nid : ℕ)
  | fromCrossbar (ch : ℕ)
  | cache (ch : ℕ)
  | channel (ch : ℕ)
  | toCrossbar (ch : ℕ)
  | returned (core : ℕ)
  deriving DecidableEq

/-- The requests that left their cores, by the queue they are in. -/
def stationed (s : Simulator κ τ ι) : Station → List (Access ι)
  | .inBuffer src dest => (s.icnt.inBuffers src dest).map (·.access)
  | .outBuffer nid => s.icnt.outBuffers nid
  | .fromCrossbar ch => s.dram.fromCrossbarQueue ch
  | .cache ch => s.dram.caches ch
  | .channel ch => (s.dram.mem ch).queue.map Prod.fst
  | .toCrossbar ch => s.dram.toCrossbarQueue ch
  | .returned core => s.returned core

/-- What a queue says about a request in it. -/
def Fits (cfg : SimulationConfig) : Station → Access ι → Prop
  | .inBuffer _ dest, a => cfg.getDestNode a = .ok dest ∧ (Outbound a ∨ Inbound a)
  | .outBuffer nid, a => cfg.getDestNode a = .ok nid ∧ (Outbound a ∨ Inbound a)
  | .fromCrossbar _, a => Outbound a
  | .cache _, a => Outbound a
  | .channel _, a => Outbound a
  | .toCrossbar _, a => Inbound a
  | .returned core, a => Inbound a ∧ a.coreId = core

/-- A request of a core that exists, to a channel that exists. -/
def Routed (cfg : SimulationConfig) (a : Access ι) : Prop :=
  a.coreId < cfg.numCores ∧ 0 < cfg.icntInjectionPortsPerCore ∧
    ∃ ch < cfg.dramChannels, cfg.getChannelId a.fetch = .ok ch

/-- The invariant of the requests that left their cores. -/
structure TrafficInv (cfg : SimulationConfig) (sent : ℕ → List (MemFetch ι))
    (mem : Station → List (Access ι)) : Prop where
  exclusive : Exclusive fun st => (mem st).map Access.key
  placed : ∀ core n, n < (sent core).length → ∃ st, (core, n) ∈ (mem st).map Access.key
  sent : ∀ st, ∀ a ∈ mem st, (sent a.coreId)[a.requestId]? = some a.fetch
  routed : ∀ st, ∀ a ∈ mem st, Routed cfg a
  fits : ∀ st, ∀ a ∈ mem st, Fits cfg st a

namespace TrafficInv

variable {cfg : SimulationConfig} {sent : ℕ → List (MemFetch ι)}
  {mem mem' : Station → List (Access ι)} {p q : Station} {a e : Access ι}

/-- Before the first request. -/
theorem empty (cfg : SimulationConfig) :
    TrafficInv cfg (fun _ => []) fun _ => ([] : List (Access ι)) :=
  ⟨Exclusive.empty, fun _ _ h => absurd h (Nat.not_lt_zero _),
    fun _ _ h => absurd h List.not_mem_nil, fun _ _ h => absurd h List.not_mem_nil,
    fun _ _ h => absurd h List.not_mem_nil⟩

/-- A request goes from the front of a queue to the end of another. -/
theorem move (hI : TrafficInv cfg sent mem) (hpq : p ≠ q) (hp : mem p = a :: mem' p)
    (hq : mem' q = mem q ++ [e]) (hother : ∀ r, r ≠ p → r ≠ q → mem' r = mem r)
    (hcore : e.coreId = a.coreId) (hid : e.requestId = a.requestId)
    (hfetch : e.fetch = a.fetch) (hfits : Fits cfg q e) : TrafficInv cfg sent mem' := by
  have hkey : e.key = a.key := by rw [Access.key, hcore, hid, Access.key]
  have hmem : a ∈ mem p := by rw [hp]; exact List.mem_cons_self
  have hcases : ∀ r, ∀ b ∈ mem' r, b ∈ mem r ∨ (b = e ∧ r = q) := by
    intro r b hb
    by_cases hrq : r = q
    · subst hrq
      rw [hq, List.mem_append, List.mem_singleton] at hb
      exact hb.imp_right fun h => ⟨h, rfl⟩
    · by_cases hrp : r = p
      · subst hrp
        exact .inl (by rw [hp]; exact List.mem_cons_of_mem _ hb)
      · rw [hother r hrp hrq] at hb
        exact .inl hb
  refine ⟨?_, fun core n hn => ?_, fun r b hb => ?_, fun r b hb => ?_, fun r b hb => ?_⟩
  · refine hI.exclusive.move hpq (i := a.key) ?_ ?_ fun r hrp hrq => ?_
    · rw [hp, List.map_cons]
    · rw [hq, List.map_append, List.map_singleton, hkey]
      exact List.perm_append_singleton _ _
    · rw [hother r hrp hrq]
  · obtain ⟨st, hst⟩ := hI.placed core n hn
    by_cases hsq : st = q
    · subst hsq
      refine ⟨st, ?_⟩
      rw [hq, List.map_append]
      exact List.mem_append_left _ hst
    · by_cases hsp : st = p
      · subst hsp
        rw [hp, List.map_cons, List.mem_cons] at hst
        rcases hst with hst | hst
        · refine ⟨q, ?_⟩
          rw [hq, List.map_append, hst, ← hkey]
          exact List.mem_append_right _ List.mem_cons_self
        · exact ⟨st, hst⟩
      · refine ⟨st, ?_⟩
        rw [hother st hsp hsq]
        exact hst
  · rcases hcases r b hb with hb | ⟨rfl, rfl⟩
    · exact hI.sent r b hb
    · rw [hcore, hid, hfetch]
      exact hI.sent p a hmem
  · rcases hcases r b hb with hb | ⟨rfl, rfl⟩
    · exact hI.routed r b hb
    · have hrouted := hI.routed p a hmem
      unfold Routed at hrouted ⊢
      rw [hcore, hfetch]
      exact hrouted
  · rcases hcases r b hb with hb | ⟨rfl, rfl⟩
    · exact hI.fits r b hb
    · exact hfits

/-- A request leaves its core for a queue. -/
theorem send (hI : TrafficInv cfg sent mem) {core : ℕ} {r : MemFetch ι}
    (hrouted : Routed cfg (Access.ofFetch core (sent core).length r))
    (hfits : Fits cfg q (Access.ofFetch core (sent core).length r))
    (hq : mem' q = mem q ++ [Access.ofFetch core (sent core).length r])
    (hother : ∀ st, st ≠ q → mem' st = mem st) :
    TrafficInv cfg (Function.update sent core (sent core ++ [r])) mem' := by
  have hkey : (Access.ofFetch core (sent core).length r).key = (core, (sent core).length) := rfl
  have hnew : ∀ st, (core, (sent core).length) ∉ (mem st).map Access.key := by
    intro st hst
    obtain ⟨b, hb, hbkey⟩ := List.mem_map.mp hst
    obtain ⟨hbcore, hbid⟩ := Prod.mk.inj hbkey
    have hget := hI.sent st b hb
    rw [hbcore, hbid, List.getElem?_eq_none (Nat.le_refl _)] at hget
    cases hget
  have hcases : ∀ st, ∀ b ∈ mem' st,
      b ∈ mem st ∨ (b = Access.ofFetch core (sent core).length r ∧ st = q) := by
    intro st b hb
    by_cases hst : st = q
    · subst hst
      rw [hq, List.mem_append, List.mem_singleton] at hb
      exact hb.imp_right fun h => ⟨h, rfl⟩
    · rw [hother st hst] at hb
      exact .inl hb
  have hgrow : ∀ c, ∃ l, Function.update sent core (sent core ++ [r]) c = sent c ++ l := by
    intro c
    by_cases hc : c = core
    · subst hc
      exact ⟨[r], Function.update_self ..⟩
    · exact ⟨[], by rw [Function.update_of_ne hc, List.append_nil]⟩
  refine ⟨?_, fun c n hn => ?_, fun st b hb => ?_, fun st b hb => ?_, fun st b hb => ?_⟩
  · refine hI.exclusive.enter hnew (p := q) ?_ fun st hst => ?_
    · rw [hq, List.map_append, List.map_singleton, hkey]
      exact List.perm_append_singleton _ _
    · rw [hother st hst]
  · have hold : n < (sent c).length ∨ (c = core ∧ n = (sent core).length) := by
      by_cases hc : c = core
      · subst hc
        rw [Function.update_self, List.length_append, List.length_singleton] at hn
        rcases Nat.lt_or_ge n (sent c).length with h | h
        · exact .inl h
        · exact .inr ⟨rfl, by omega⟩
      · rw [Function.update_of_ne hc] at hn
        exact .inl hn
    rcases hold with hold | ⟨rfl, rfl⟩
    · obtain ⟨st, hst⟩ := hI.placed c n hold
      refine ⟨st, ?_⟩
      by_cases hsq : st = q
      · subst hsq
        rw [hq, List.map_append]
        exact List.mem_append_left _ hst
      · rw [hother st hsq]
        exact hst
    · refine ⟨q, ?_⟩
      rw [hq, List.map_append, List.map_singleton, hkey]
      exact List.mem_append_right _ List.mem_cons_self
  · rcases hcases st b hb with hb | ⟨rfl, -⟩
    · obtain ⟨l, hl⟩ := hgrow b.coreId
      rw [hl]
      exact List.getElem?_append_left (List.getElem?_eq_some_iff.mp (hI.sent st b hb)).1 ▸
        hI.sent st b hb
    · show (Function.update sent core (sent core ++ [r]) core)[(sent core).length]? = some r
      rw [Function.update_self, List.getElem?_append_right (Nat.le_refl _), Nat.sub_self]
      rfl
  · rcases hcases st b hb with hb | ⟨rfl, -⟩
    · exact hI.routed st b hb
    · exact hrouted
  · rcases hcases st b hb with hb | ⟨rfl, rfl⟩
    · exact hI.fits st b hb
    · exact hfits

end TrafficInv

/-! ## The moves -/

/-- The other queues between two nodes stay as they are. -/
theorem setIn_of_ne {α : Type} {src dest src' dest' : ℕ} (hne : ¬ (src' = src ∧ dest' = dest))
    (n : SimpleInterconnect α) (l : List (Entity α)) :
    (n.setIn src dest l).inBuffers src' dest' = n.inBuffers src' dest' := by
  unfold SimpleInterconnect.setIn
  by_cases hsrc : src' = src
  · subst hsrc
    have hdest : dest' ≠ dest := fun hdest => hne ⟨rfl, hdest⟩
    simp [hdest]
  · simp [hsrc]

/-- A request that is pushed is the last from its source to its destination. -/
theorem push_eq_ok {α : Type} {n n' : SimpleInterconnect α} {src dest : ℕ} {a : α}
    (h : n.push src dest a = .ok n') :
    ∃ e : Entity α, e.access = a ∧ n' = n.setIn src dest (n.inBuffers src dest ++ [e]) := by
  unfold SimpleInterconnect.push at h
  split at h
  · cases h
    exact ⟨_, rfl, rfl⟩
  · cases h

/-- The requests of a simulator: those that left their cores are on their way, over an
interconnect that has the nodes of the configuration. -/
structure RequestInv (cfg : SimulationConfig) (s : Simulator κ τ ι) : Prop where
  traffic : TrafficInv cfg s.sent (stationed s)
  nodes : s.icnt.nNodes = cfg.nNodes

namespace RequestInv

variable {cfg : SimulationConfig} {s s' : Simulator κ τ ι} {a : Access ι} {ch : ℕ}

/-- No request is moved. -/
theorem congr (hI : RequestInv cfg s) (hsent : s'.sent = s.sent)
    (hnodes : s'.icnt.nNodes = s.icnt.nNodes) (hstations : stationed s' = stationed s) :
    RequestInv cfg s' := by
  refine ⟨?_, hnodes.trans hI.nodes⟩
  rw [hsent, hstations]
  exact hI.traffic

/-- The destination of a request that is in the interconnect is one of its nodes. -/
theorem dest_lt {dest : ℕ} (hrouted : Routed cfg a) (hway : Outbound a ∨ Inbound a)
    (h : cfg.getDestNode a = .ok dest) : dest < cfg.nNodes := by
  obtain ⟨hcore, hports, ch, hch, hid⟩ := hrouted
  unfold SimulationConfig.nNodes
  rcases hway with hout | hin
  · rw [dest_outbound hout hid] at h
    cases h
    omega
  · rw [dest_inbound hin hports hid] at h
    cases h
    have hport := port_lt hcore (Nat.mod_lt ch hports)
    omega

/-- What arrives at a port of a core is a reply to it. -/
theorem at_port {core noc : ℕ} (hcore : core < cfg.numCores)
    (hnoc : noc < cfg.icntInjectionPortsPerCore) (hrouted : Routed cfg a)
    (hfits : Fits cfg (.outBuffer (core * cfg.icntInjectionPortsPerCore + noc)) a) :
    Inbound a ∧ a.coreId = core := by
  obtain ⟨-, hports, ch, -, hid⟩ := hrouted
  have hport := port_lt hcore hnoc
  obtain ⟨hdest, hout | hin⟩ := hfits
  · rw [dest_outbound hout hid] at hdest
    have heq := Except.ok.inj hdest
    omega
  · rw [dest_inbound hin hports hid] at hdest
    have heq := Except.ok.inj hdest
    have hmod := Nat.mod_lt ch hports
    have hdiv := congrArg (· / cfg.icntInjectionPortsPerCore) heq
    simp only [Nat.mul_comm _ cfg.icntInjectionPortsPerCore, Nat.mul_add_div hports,
      Nat.div_eq_of_lt hmod, Nat.div_eq_of_lt hnoc, Nat.add_zero] at hdiv
    exact ⟨hin, hdiv⟩

/-- What arrives at the node of a channel is a request to it. -/
theorem at_memory {mem : ℕ} (hrouted : Routed cfg a)
    (hfits : Fits cfg
      (.outBuffer (cfg.numCores * cfg.icntInjectionPortsPerCore + mem)) a) : Outbound a := by
  obtain ⟨hcore, hports, ch, -, hid⟩ := hrouted
  obtain ⟨hdest, hout | hin⟩ := hfits
  · exact hout
  · rw [dest_inbound hin hports hid] at hdest
    have heq := Except.ok.inj hdest
    have hport := port_lt hcore (Nat.mod_lt ch hports)
    omega

/-- Before the first request. -/
theorem init [DecidableEq τ] (cfg : SimulationConfig) (cores : ℕ → κ) (P : ℕ → TilePlan τ ι) :
    RequestInv cfg (Simulator.init cfg cores P) := by
  refine ⟨?_, rfl⟩
  have hnone : stationed (Simulator.init cfg cores P) = fun _ => [] := by
    funext st
    cases st <;> rfl
  rw [hnone]
  exact .empty cfg

end RequestInv

/-! ## The path -/

/-- From which queue to which a request goes. -/
inductive Route : Station → Station → Prop
  | deliver (src dest : ℕ) : Route (.inBuffer src dest) (.outBuffer dest)
  | toMemory (nid ch : ℕ) : Route (.outBuffer nid) (.fromCrossbar ch)
  | noL2 (ch : ℕ) : Route (.fromCrossbar ch) (.cache ch)
  | enter (ch : ℕ) : Route (.cache ch) (.channel ch)
  | reply (ch : ℕ) : Route (.channel ch) (.toCrossbar ch)
  | fromMemory (ch src dest : ℕ) : Route (.toCrossbar ch) (.inBuffer src dest)
  | receive (nid core : ℕ) : Route (.outBuffer nid) (.returned core)

/-- The request in front of a queue goes to the end of the next, where it is `e`; a channel
makes a reply of it. -/
structure StationMove (s s' : Simulator κ τ ι) (p q : Station) (a e : Access ι) : Prop where
  route : Route p q
  front : stationed s p = a :: stationed s' p
  back : stationed s' q = stationed s q ++ [e]
  other : ∀ r, r ≠ p → r ≠ q → stationed s' r = stationed s r
  same : e = a ∨ ∃ ch, q = .toCrossbar ch ∧ e = a.setReply

/-- What a move of the simulator does to the requests that left their cores: nothing, or one of
them goes on, or one leaves its core. -/
inductive TrafficStep (cfg : SimulationConfig) (s s' : Simulator κ τ ι) : Prop
  | rest : s'.sent = s.sent → s'.icnt.nNodes = s.icnt.nNodes → stationed s' = stationed s →
      TrafficStep cfg s s'
  | move (p q : Station) (a e : Access ι) : s'.sent = s.sent →
      s'.icnt.nNodes = s.icnt.nNodes → StationMove s s' p q a e → Fits cfg q e →
      TrafficStep cfg s s'
  | send (core src dest : ℕ) (r : MemFetch ι) :
      s'.sent = Function.update s.sent core (s.sent core ++ [r]) →
      s'.icnt.nNodes = s.icnt.nNodes →
      Routed cfg (Access.ofFetch core (s.sent core).length r) →
      cfg.getDestNode (Access.ofFetch core (s.sent core).length r) = .ok dest →
      stationed s' (.inBuffer src dest) =
        stationed s (.inBuffer src dest) ++ [Access.ofFetch core (s.sent core).length r] →
      (∀ st, st ≠ .inBuffer src dest → stationed s' st = stationed s st) → TrafficStep cfg s s'

section Path

variable {cfg : SimulationConfig} {s s' : Simulator κ τ ι} {a e : Access ι} {p q : Station}

theorem Route.ne (h : Route p q) : p ≠ q := by
  cases h <;> exact nofun

theorem StationMove.coreId (h : StationMove s s' p q a e) : e.coreId = a.coreId := by
  rcases h.same with rfl | ⟨_, -, rfl⟩ <;> rfl

theorem StationMove.requestId (h : StationMove s s' p q a e) : e.requestId = a.requestId := by
  rcases h.same with rfl | ⟨_, -, rfl⟩ <;> rfl

theorem StationMove.fetch (h : StationMove s s' p q a e) : e.fetch = a.fetch := by
  rcases h.same with rfl | ⟨_, -, rfl⟩ <;> rfl

/-- The requests stay in order. -/
theorem TrafficStep.inv (h : TrafficStep cfg s s') (hI : RequestInv cfg s) :
    RequestInv cfg s' := by
  cases h with
  | rest hsent hnodes hstations => exact hI.congr hsent hnodes hstations
  | move p q a e hsent hnodes hmove hfits =>
      refine ⟨?_, hnodes.trans hI.nodes⟩
      rw [hsent]
      exact hI.traffic.move hmove.route.ne hmove.front hmove.back hmove.other hmove.coreId
        hmove.requestId hmove.fetch hfits
  | send core src dest r hsent hnodes hrouted hdest hback hother =>
      refine ⟨?_, hnodes.trans hI.nodes⟩
      rw [hsent]
      exact hI.traffic.send (q := .inBuffer src dest) hrouted ⟨hdest, .inl ⟨rfl, rfl⟩⟩ hback hother

/-- What is in a queue after a move was there before or came with it. -/
theorem StationMove.mem (h : StationMove s s' p q a e) {st : Station} {b : Access ι}
    (hb : b ∈ stationed s' st) : b ∈ stationed s st ∨ (b = e ∧ st = q) := by
  by_cases hq : st = q
  · subst hq
    rw [h.back, List.mem_append, List.mem_singleton] at hb
    exact hb.imp_right fun hb => ⟨hb, rfl⟩
  · by_cases hp : st = p
    · subst hp
      left
      rw [h.front]
      exact List.mem_cons_of_mem a hb
    · rw [h.other st hp hq] at hb
      exact .inl hb

theorem StationMove.mem_front (h : StationMove s s' p q a e) : a ∈ stationed s p := by
  rw [h.front]
  exact List.mem_cons_self

/-- A request enters a channel. -/
theorem traffic_enter (hI : RequestInv cfg s) (ch : ℕ) :
    TrafficStep cfg s { s with dram := s.dram.fromCache ch } := by
  unfold SimpleDRAM.fromCache
  split
  · exact .rest rfl rfl rfl
  · rename_i req rest hq
    split
    · refine .move (.cache ch) (.channel ch) req req rfl rfl
        ⟨.enter ch, ?_, ?_, fun r hrp hrq => ?_, .inl rfl⟩ ?_
      · simp [stationed, hq]
      · simp [stationed, DelayQueue.push]
      · cases r with
        | cache c =>
            have hne : c ≠ ch := fun hc => hrp (hc ▸ rfl)
            simp [stationed, hne]
        | channel c =>
            have hne : c ≠ ch := fun hc => hrq (hc ▸ rfl)
            simp [stationed, hne]
        | _ => rfl
      · apply hI.traffic.fits (.cache ch) req
        show req ∈ s.dram.caches ch
        rw [hq]
        exact List.mem_cons_self
    · exact .rest rfl rfl rfl

/-- A channel answers a request. -/
theorem traffic_reply (hI : RequestInv cfg s) (ch : ℕ) :
    TrafficStep cfg s { s with dram := s.dram.toCache ch } := by
  unfold SimpleDRAM.toCache
  split
  · split
    · exact .rest rfl rfl rfl
    · rename_i req htop
      obtain ⟨⟨r, n⟩, hhead, rfl⟩ := Option.map_eq_some_iff.mp htop
      obtain ⟨rest, hq⟩ := List.head?_eq_some_iff.mp hhead
      refine .move (.channel ch) (.toCrossbar ch) r r.setReply rfl rfl
        ⟨.reply ch, ?_, ?_, fun st hrp hrq => ?_, .inr ⟨ch, rfl, rfl⟩⟩ ?_
      · simp [stationed, hq, DelayQueue.pop]
      · simp [stationed]
      · cases st with
        | channel c =>
            have hne : c ≠ ch := fun hc => hrp (hc ▸ rfl)
            simp [stationed, hne]
        | toCrossbar c =>
            have hne : c ≠ ch := fun hc => hrq (hc ▸ rfl)
            simp [stationed, hne]
        | _ => rfl
      · apply Outbound.setReply
        apply hI.traffic.fits (.channel ch) r
        show r ∈ ((s.dram.mem ch).queue.map Prod.fst)
        rw [hq]
        exact List.mem_cons_self
  · exact .rest rfl rfl rfl

/-- A request passes where a cache would be. -/
theorem traffic_noL2 (hI : RequestInv cfg s) (ch : ℕ) :
    TrafficStep cfg s { s with dram := s.dram.noL2Cycle ch } := by
  unfold SimpleDRAM.noL2Cycle
  split
  · exact .rest rfl rfl rfl
  · rename_i req rest hq
    refine .move (.fromCrossbar ch) (.cache ch) req req rfl rfl
      ⟨.noL2 ch, ?_, ?_, fun st hrp hrq => ?_, .inl rfl⟩ ?_
    · simp [stationed, hq]
    · simp [stationed]
    · cases st with
      | fromCrossbar c =>
          have hne : c ≠ ch := fun hc => hrp (hc ▸ rfl)
          simp [stationed, hne]
      | cache c =>
          have hne : c ≠ ch := fun hc => hrq (hc ▸ rfl)
          simp [stationed, hne]
      | _ => rfl
    · apply hI.traffic.fits (.fromCrossbar ch) req
      show req ∈ s.dram.fromCrossbarQueue ch
      rw [hq]
      exact List.mem_cons_self

/-- The interconnect moves a request to its destination. -/
theorem traffic_deliver (hI : RequestInv cfg s) (dest : ℕ) :
    TrafficStep cfg s { s with icnt := s.icnt.deliver dest } := by
  unfold SimpleInterconnect.deliver
  split
  · exact .rest rfl rfl rfl
  · rename_i src _
    split
    · exact .rest rfl rfl rfl
    · rename_i e rest hq
      refine .move (.inBuffer src dest) (.outBuffer dest) e.access e.access rfl rfl
        ⟨.deliver src dest, ?_, ?_, fun st hrp hrq => ?_, .inl rfl⟩ ?_
      · simp [stationed, hq, SimpleInterconnect.setIn, SimpleInterconnect.setOut]
      · simp [stationed, SimpleInterconnect.setIn, SimpleInterconnect.setOut]
      · cases st with
        | inBuffer src' dest' =>
            have hne : ¬ (src' = src ∧ dest' = dest) := by
              rintro ⟨rfl, rfl⟩
              exact hrp rfl
            exact congrArg _ (setIn_of_ne hne _ _)
        | outBuffer n =>
            have hne : n ≠ dest := fun hn => hrq (hn ▸ rfl)
            exact Function.update_of_ne hne ..
        | _ => rfl
      · apply hI.traffic.fits (.inBuffer src dest) e.access
        show e.access ∈ (s.icnt.inBuffers src dest).map (·.access)
        rw [hq]
        exact List.mem_cons_self

/-- A request leaves its core. -/
theorem traffic_send {core src dest : ℕ} {r : MemFetch ι}
    {icnt : SimpleInterconnect (Access ι)} (hcore : core < cfg.numCores)
    (hports : 0 < cfg.icntInjectionPortsPerCore) (hper : cfg.dramChannelsPerPartitions ≠ 0)
    (hdest : cfg.getDestNode (Access.ofFetch core (s.sent core).length r) = .ok dest)
    (hpush : s.icnt.push src dest (Access.ofFetch core (s.sent core).length r) = .ok icnt)
    (c : κ) :
    TrafficStep cfg s { s.setCore core c with
      icnt := icnt, sent := Function.update s.sent core (s.sent core ++ [r]) } := by
  obtain ⟨e, he, rfl⟩ := push_eq_ok hpush
  have hrouted : Routed cfg (Access.ofFetch core (s.sent core).length r) := by
    obtain ⟨ch, hch, -⟩ := bind_eq_ok.mp hdest
    exact ⟨hcore, hports, ch, channel_lt hper hch, hch⟩
  refine .send core src dest r rfl rfl hrouted hdest ?_ fun st hst => ?_
  · simp [stationed, SimpleInterconnect.setIn, he]
  · cases st with
    | inBuffer src' dest' =>
        have hne : ¬ (src' = src ∧ dest' = dest) := by
          rintro ⟨rfl, rfl⟩
          exact hst rfl
        exact congrArg _ (setIn_of_ne hne _ _)
    | _ => rfl

/-- A reply reaches its core. -/
theorem traffic_receive (hI : RequestInv cfg s) {core noc : ℕ} {rest : List (Access ι)}
    (hcore : core < cfg.numCores) (hnoc : noc < cfg.icntInjectionPortsPerCore)
    (hq : s.icnt.outBuffers (core * cfg.icntInjectionPortsPerCore + noc) = a :: rest) (c : κ) :
    TrafficStep cfg s { s.setCore core c with
      icnt := s.icnt.setOut (core * cfg.icntInjectionPortsPerCore + noc) rest
      returned := Function.update s.returned core (s.returned core ++ [a]) } := by
  have hmem : a ∈ stationed s (.outBuffer (core * cfg.icntInjectionPortsPerCore + noc)) := by
    show a ∈ s.icnt.outBuffers _
    rw [hq]
    exact List.mem_cons_self
  refine .move (.outBuffer (core * cfg.icntInjectionPortsPerCore + noc)) (.returned core) a a
    rfl rfl ⟨.receive _ core, ?_, ?_, fun st hrp hrq => ?_, .inl rfl⟩
    (RequestInv.at_port hcore hnoc (hI.traffic.routed _ a hmem) (hI.traffic.fits _ a hmem))
  · simp [stationed, hq, SimpleInterconnect.setOut]
  · simp [stationed]
  · cases st with
    | outBuffer n =>
        have hne : n ≠ core * cfg.icntInjectionPortsPerCore + noc := fun hn => hrp (hn ▸ rfl)
        exact Function.update_of_ne hne ..
    | returned n =>
        have hne : n ≠ core := fun hn => hrq (hn ▸ rfl)
        exact Function.update_of_ne hne ..
    | _ => rfl

/-- A request reaches its channel. -/
theorem traffic_toMemory (hI : RequestInv cfg s) {mem : ℕ} {rest : List (Access ι)}
    (hq : s.icnt.outBuffers (cfg.numCores * cfg.icntInjectionPortsPerCore + mem) = a :: rest) :
    TrafficStep cfg s { s with
      icnt := s.icnt.setOut (cfg.numCores * cfg.icntInjectionPortsPerCore + mem) rest
      dram := s.dram.push mem a } := by
  have hmem : a ∈ stationed s
      (.outBuffer (cfg.numCores * cfg.icntInjectionPortsPerCore + mem)) := by
    show a ∈ s.icnt.outBuffers _
    rw [hq]
    exact List.mem_cons_self
  refine .move (.outBuffer (cfg.numCores * cfg.icntInjectionPortsPerCore + mem))
    (.fromCrossbar mem) a a rfl rfl ⟨.toMemory _ mem, ?_, ?_, fun st hrp hrq => ?_, .inl rfl⟩
    (RequestInv.at_memory (hI.traffic.routed _ a hmem) (hI.traffic.fits _ a hmem))
  · simp [stationed, hq, SimpleInterconnect.setOut]
  · simp [stationed, SimpleDRAM.push]
  · cases st with
    | outBuffer n =>
        have hne : n ≠ cfg.numCores * cfg.icntInjectionPortsPerCore + mem :=
          fun hn => hrp (hn ▸ rfl)
        exact Function.update_of_ne hne ..
    | fromCrossbar n =>
        have hne : n ≠ mem := fun hn => hrq (hn ▸ rfl)
        exact Function.update_of_ne hne ..
    | _ => rfl

/-- A reply leaves its channel. -/
theorem traffic_fromMemory (hI : RequestInv cfg s) {mem src dest : ℕ} {rest : List (Access ι)}
    {icnt : SimpleInterconnect (Access ι)} (hq : s.dram.toCrossbarQueue mem = a :: rest)
    (hdest : cfg.getDestNode a = .ok dest) (hpush : s.icnt.push src dest a = .ok icnt) :
    TrafficStep cfg s { s with icnt := icnt, dram := s.dram.pop mem } := by
  obtain ⟨e, he, rfl⟩ := push_eq_ok hpush
  have hmem : a ∈ stationed s (.toCrossbar mem) := by
    show a ∈ s.dram.toCrossbarQueue mem
    rw [hq]
    exact List.mem_cons_self
  have hin : Inbound a := hI.traffic.fits _ a hmem
  refine .move (.toCrossbar mem) (.inBuffer src dest) a a rfl rfl
    ⟨.fromMemory mem src dest, ?_, ?_, fun st hrp hrq => ?_, .inl rfl⟩ ⟨hdest, .inr hin⟩
  · simp [stationed, hq, SimpleDRAM.pop]
  · simp [stationed, SimpleInterconnect.setIn, he]
  · cases st with
    | inBuffer src' dest' =>
        have hne : ¬ (src' = src ∧ dest' = dest) := by
          rintro ⟨rfl, rfl⟩
          exact hrq rfl
        exact congrArg _ (setIn_of_ne hne _ _)
    | toCrossbar n =>
        have hne : n ≠ mem := fun hn => hrp (hn ▸ rfl)
        exact Function.update_of_ne hne ..
    | _ => rfl

end Path

variable [DecidableEq τ] {ops : CoreInterface κ τ ι ε} {cfg : SimulationConfig}
  {s s' : Simulator κ τ ι}

/-- What a move does to the requests that left their cores. -/
theorem SimStep.traffic (h : SimStep ops cfg s s') (hI : RequestInv cfg s) :
    TrafficStep cfg s s' := by
  cases h with
  | slot n => exact .rest rfl rfl rfl
  | launch p d => exact .rest rfl rfl rfl
  | peek core slot tie => exact .rest rfl rfl rfl
  | issue core slot tie t u sched sched' => exact .rest rfl rfl rfl
  | popTile core => exact .rest rfl rfl rfl
  | report core t sched => exact .rest rfl rfl rfl
  | cycle core e c => exact .rest rfl rfl rfl
  | dramTick ch =>
      refine .rest rfl rfl ?_
      funext st
      cases st with
      | channel c =>
          show ((Function.update s.dram.mem ch (s.dram.mem ch).cycle c).queue.map _) = _
          by_cases hc : c = ch
          · subst hc
            rw [Function.update_self]
            rfl
          · rw [Function.update_of_ne hc]
            rfl
      | _ => rfl
  | dramAdmit ch => exact traffic_enter hI ch
  | dramReply ch => exact traffic_reply hI ch
  | send core noc dest r rest icnt hcore hnoc hper _ hdest hpush =>
      exact traffic_send hcore (by omega) hper hdest hpush _
  | receive core noc a rest hcore hnoc hq => exact traffic_receive hI hcore hnoc hq _
  | toMemory mem a rest _ hq => exact traffic_toMemory hI hq
  | fromMemory mem dest a rest icnt _ hq hdest hpush => exact traffic_fromMemory hI hq hdest hpush
  | deliver dest => exact traffic_deliver hI dest
  | icntClock n => exact .rest rfl rfl rfl

/-- Every move keeps the invariant. -/
theorem SimStep.requests (h : SimStep ops cfg s s') (hI : RequestInv cfg s) :
    RequestInv cfg s' := (h.traffic hI).inv hI

omit [DecidableEq τ] in
theorem CacheStep.traffic (h : CacheStep s s') (hI : RequestInv cfg s) : TrafficStep cfg s s' := by
  cases h with
  | noL2 ch => exact traffic_noL2 hI ch
  | clock n => exact .rest rfl rfl rfl

omit [DecidableEq τ] in
theorem CacheStep.requests (h : CacheStep s s') (hI : RequestInv cfg s) : RequestInv cfg s' :=
  (h.traffic hI).inv hI

end PyTorchSim.Analysis
