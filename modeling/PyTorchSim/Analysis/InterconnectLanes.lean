import PyTorchSim.Library.RoundRobin
import PyTorchSim.Library.Runs
import PyTorchSim.Library.Views
import PyTorchSim.Model.Interconnect

/-!
# The lanes of the interconnect

What belongs to one destination of the interconnect is a lane: the queues toward it, its
arrivals and the pointer to the node whose turn it is.  A cycle takes one step in each lane, and
the lanes do not touch each other.

A run of the interconnect is recorded with what the specification needs to know: a packet says
where and when it was pushed, and a lane which packets a cycle moved and which were popped.
-/

set_option autoImplicit false

namespace PyTorchSim.Analysis

open PyTorchSim.Library PyTorchSim.Model

/-- The part of the interconnect that belongs to one destination. -/
structure Lane (α : Type) where
  inBuffer : ℕ → List (Entity α)
  outBuffer : List α
  rrNextSrc : ℕ

/-- The lane of a destination. -/
def lane {α : Type} (n : SimpleInterconnect α) (dest : ℕ) : Lane α where
  inBuffer src := n.inBuffers src dest
  outBuffer := n.outBuffers dest
  rrNextSrc := n.rrNextSrc dest

/-- What the cycle with number `cycles` does in a lane: nothing, or it moves the front of one
queue to the arrivals. -/
inductive LaneStep {α : Type} (nNodes cycles : ℕ) (l : Lane α) :
    Option (ℕ × Entity α) → Lane α → Prop
  | idle : (∀ src < nNodes, ¬ ∃ e, (l.inBuffer src).head? = some e ∧ e.finishCycle ≤ cycles) →
      LaneStep nNodes cycles l none l
  | grant (src : ℕ) (e : Entity α) (rest : List (Entity α)) : src < nNodes →
      l.inBuffer src = e :: rest → e.finishCycle ≤ cycles →
      (∀ x < nNodes, (∃ e, (l.inBuffer x).head? = some e ∧ e.finishCycle ≤ cycles) →
        turnsTo nNodes l.rrNextSrc src ≤ turnsTo nNodes l.rrNextSrc x) →
      LaneStep nNodes cycles l (some (src, e))
        ⟨Function.update l.inBuffer src rest, l.outBuffer ++ [e.access], (src + 1) % nNodes⟩

/-- At most one packet enters the arrivals. -/
theorem LaneStep.outBuffer_eq {α : Type} {nNodes cycles : ℕ} {l l' : Lane α}
    {g : Option (ℕ × Entity α)} (h : LaneStep nNodes cycles l g l') :
    l'.outBuffer = l.outBuffer ++ (g.map fun x => x.2.access).toList := by
  cases h with
  | idle => simp
  | grant => rfl

/-- A queue only gets shorter, and what is granted was ready at the front of one. -/
theorem LaneStep.queues {α : Type} {nNodes cycles : ℕ} {l l' : Lane α}
    {g : Option (ℕ × Entity α)} (h : LaneStep nNodes cycles l g l') :
    (∀ src, ∀ e ∈ l'.inBuffer src, e ∈ l.inBuffer src) ∧
      ∀ x, g = some x → x.2 ∈ l.inBuffer x.1 ∧ x.2.finishCycle ≤ cycles := by
  cases h with
  | idle => exact ⟨fun _ _ => id, fun _ hx => by cases hx⟩
  | grant src e rest _ hqueue hfinish =>
      constructor
      · intro x a ha
        by_cases hx : x = src
        · subst hx
          dsimp only at ha
          rw [Function.update_self] at ha
          rw [hqueue]
          exact List.mem_cons_of_mem _ ha
        · simpa [Function.update_of_ne hx] using ha
      · rintro x hx
        cases hx
        exact ⟨by simp [hqueue], hfinish⟩

section Lanes

variable {α : Type} {n : SimpleInterconnect α} {dest d : ℕ}

theorem lane_setIn_self (src : ℕ) (l : List (Entity α)) : lane (n.setIn src dest l) dest =
    { lane n dest with inBuffer := Function.update (lane n dest).inBuffer src l } := by
  simp only [lane, SimpleInterconnect.setIn, Lane.mk.injEq, and_self, and_true]
  funext x
  by_cases hx : x = src
  · simp [hx]
  · simp [Function.update_of_ne hx]

theorem lane_setIn_of_ne (h : d ≠ dest) (src : ℕ) (l : List (Entity α)) :
    lane (n.setIn src dest l) d = lane n d := by
  simp only [lane, SimpleInterconnect.setIn, Lane.mk.injEq, and_self, and_true]
  funext x
  by_cases hx : x = src
  · simp [hx, Function.update_of_ne h]
  · simp [Function.update_of_ne hx]

theorem lane_setOut_self (l : List α) :
    lane (n.setOut dest l) dest = { lane n dest with outBuffer := l } := by
  simp [lane, SimpleInterconnect.setOut]

theorem lane_setOut_of_ne (h : d ≠ dest) (l : List α) : lane (n.setOut dest l) d = lane n d := by
  simp [lane, SimpleInterconnect.setOut, Function.update_of_ne h]

end Lanes

section Cycle

variable {α : Type} {n n' : SimpleInterconnect α} {dest d src : ℕ}

/-- A front is ready when its finish cycle has come. -/
theorem ready_iff : n.ready dest src = true ↔
    ∃ e, ((lane n dest).inBuffer src).head? = some e ∧ e.finishCycle ≤ n.cycles := by
  unfold SimpleInterconnect.ready lane
  cases h : n.inBuffers src dest <;> simp [h]

/-- The step of a destination leaves the size and the clock as they are. -/
theorem deliver_fixed (n : SimpleInterconnect α) (dest : ℕ) :
    (n.deliver dest).nNodes = n.nNodes ∧ (n.deliver dest).cycles = n.cycles ∧
      (n.deliver dest).latency = n.latency := by
  unfold SimpleInterconnect.deliver
  split
  · exact ⟨rfl, rfl, rfl⟩
  · split <;> exact ⟨rfl, rfl, rfl⟩

/-- It touches its own lane only. -/
theorem lane_deliver_of_ne (h : d ≠ dest) : lane (n.deliver dest) d = lane n d := by
  unfold SimpleInterconnect.deliver
  split
  · rfl
  · rename_i src _
    split
    · rfl
    · rename_i e rest _
      have hqueues := lane_setIn_of_ne (n := n.setOut dest (n.outBuffers dest ++ [e.access])) h
        src rest
      rw [lane_setOut_of_ne h] at hqueues
      obtain ⟨hin, hout, -⟩ := Lane.mk.injEq .. ▸ hqueues
      simp only [lane, Lane.mk.injEq]
      exact ⟨hin, hout, Function.update_of_ne h _ _⟩

/-- What it does in its own lane depends on that lane and the clock only. -/
theorem lane_deliver_congr (hlane : lane n dest = lane n' dest) (hnodes : n.nNodes = n'.nNodes)
    (hcycles : n.cycles = n'.cycles) :
    lane (n.deliver dest) dest = lane (n'.deliver dest) dest := by
  obtain ⟨hin, hout, hrr⟩ := Lane.mk.injEq .. ▸ hlane
  have hin' (x : ℕ) : n.inBuffers x dest = n'.inBuffers x dest := congrFun hin x
  have hready : n.ready dest = n'.ready dest := by
    funext x
    simp only [SimpleInterconnect.ready, hin' x, hcycles]
  have hnext : n.nextSrc dest = n'.nextSrc dest := by
    simp only [SimpleInterconnect.nextSrc, hready, hnodes, hrr]
  unfold SimpleInterconnect.deliver
  rw [hnext]
  cases n'.nextSrc dest with
  | none => exact hlane
  | some src =>
      dsimp only
      rw [hin' src]
      cases n'.inBuffers src dest with
      | nil => exact hlane
      | cons e rest =>
          simp only [lane, SimpleInterconnect.setIn, SimpleInterconnect.setOut, hout, hnodes,
            Function.update_self, Lane.mk.injEq, and_true]
          funext x
          by_cases hx : x = src
          · simp [hx]
          · simp [Function.update_of_ne hx, hin' x]

/-- The destinations of a cycle do not touch each other. -/
theorem deliver_local : Local (SimpleInterconnect.deliver (α := α)) lane
    fun n => (n.nNodes, n.cycles, n.latency) where
  frame n i j h := lane_deliver_of_ne h
  fixed_eq n i := by
    obtain ⟨hnodes, hcycles, hlatency⟩ := deliver_fixed n i
    rw [hnodes, hcycles, hlatency]
  congr n n' j hfixed hlane := by
    simp only [Prod.mk.injEq] at hfixed
    exact lane_deliver_congr hlane hfixed.1 hfixed.2.1

theorem cycle_fixed (n : SimpleInterconnect α) :
    n.cycle.nNodes = n.nNodes ∧ n.cycle.cycles = n.cycles + 1 ∧ n.cycle.latency = n.latency := by
  have hfixed := deliver_local.fixed_foldl (List.range n.nNodes) n
  simp only [Prod.mk.injEq] at hfixed
  exact ⟨hfixed.1, congrArg (· + 1) hfixed.2.1, hfixed.2.2⟩

/-- The step of a destination, in its lane. -/
theorem laneStep_deliver (hrr : n.rrNextSrc dest < n.nNodes) :
    ∃ g, LaneStep n.nNodes n.cycles (lane n dest) g (lane (n.deliver dest) dest) := by
  unfold SimpleInterconnect.deliver
  cases hnext : n.nextSrc dest with
  | none =>
      refine ⟨none, .idle ?_⟩
      intro src hsrc hready
      have hnone := (find_rotation_eq_none hrr).mp hnext src hsrc
      rw [ready_iff.mpr hready] at hnone
      cases hnone
  | some src =>
      obtain ⟨hsrc, hready, hfirst⟩ := find_rotation_eq_some hrr hnext
      obtain ⟨e, hhead, hfinish⟩ := ready_iff.mp hready
      dsimp only
      change (n.inBuffers src dest).head? = some e at hhead
      cases hqueue : n.inBuffers src dest with
      | nil =>
          rw [hqueue] at hhead
          cases hhead
      | cons a rest =>
          rw [hqueue] at hhead
          obtain rfl := Option.some.inj hhead
          refine ⟨some (src, a), ?_⟩
          have hgrant := LaneStep.grant (l := lane n dest) src a rest hsrc hqueue hfinish
            fun x hx hx' => hfirst x hx (ready_iff.mpr hx')
          convert hgrant using 1
          simp only [lane, SimpleInterconnect.setIn, SimpleInterconnect.setOut,
            Function.update_self, Lane.mk.injEq, and_true]
          funext x
          by_cases hx : x = src
          · simp [hx]
          · simp [Function.update_of_ne hx]

/-- **A cycle is one step in each lane.** -/
theorem laneStep_cycle (hdest : dest < n.nNodes) (hrr : n.rrNextSrc dest < n.nNodes) :
    ∃ g, LaneStep n.nNodes n.cycles (lane n dest) g (lane n.cycle dest) := by
  have hlane := deliver_local.view_foldl (List.nodup_range (n := n.nNodes)) n dest
  rw [if_pos (List.mem_range.mpr hdest)] at hlane
  obtain ⟨g, hg⟩ := laneStep_deliver hrr
  exact ⟨g, hlane ▸ hg⟩

/-- Beyond the nodes nothing happens. -/
theorem lane_cycle_of_le (hdest : n.nNodes ≤ dest) : lane n.cycle dest = lane n dest := by
  have hlane := deliver_local.view_foldl (List.nodup_range (n := n.nNodes)) n dest
  rwa [if_neg (by simpa using hdest)] at hlane

end Cycle

/-- A request on its way, with where and when it was pushed. -/
structure Packet (α : Type) where
  src : ℕ
  dest : ℕ
  request : α
  pushedAt : ℕ
  deriving DecidableEq, Repr

/-- An interconnect with its history: what was pushed between two nodes, what a cycle moved to
the arrivals of a node, with the number of that cycle, and what was popped there. -/
structure IcntRun (α : Type) where
  net : SimpleInterconnect (Packet α)
  pushed : ℕ → ℕ → List (Packet α) := fun _ _ => []
  moved : ℕ → List (Packet α × ℕ) := fun _ => []
  popped : ℕ → List (Packet α) := fun _ => []

/-- What the simulator calls of the interconnect. -/
inductive IcntAction (α : Type)
  | push (src dest : ℕ) (request : α)
  | cycle
  | pop (nid : ℕ)

namespace IcntRun

variable {α : Type}

/-- The interconnect before the first call. -/
def init (α : Type) (latency nNodes : ℕ) : IcntRun α where
  net := { latency := latency, nNodes := nNodes }

/-- A call, recorded. -/
def step (s : IcntRun α) : IcntAction α → Except SimFault (IcntRun α)
  | .push src dest request => do
    let p : Packet α := ⟨src, dest, request, s.net.cycles⟩
    let net ← s.net.push src dest p
    pure { s with
      net := net
      pushed := Function.update s.pushed src
        (Function.update (s.pushed src) dest (s.pushed src dest ++ [p])) }
  | .cycle => .ok { s with
      net := s.net.cycle
      moved := fun d => s.moved d ++
        ((s.net.cycle.outBuffers d).drop (s.net.outBuffers d).length).map (·, s.net.cycles) }
  | .pop nid => do
    let p ← s.net.top nid
    let net ← s.net.pop nid
    pure { s with
      net := net
      popped := Function.update s.popped nid (s.popped nid ++ [p]) }

/-- The packets that came from a node to the arrivals of another, in order. -/
def movedFrom (s : IcntRun α) (src dest : ℕ) : List (Packet α) :=
  ((s.moved dest).map Prod.fst).filter fun p => p.src = src

variable {s s' : IcntRun α} {d src dest : ℕ} {request : α}

/-- What a push does. -/
theorem step_push (h : s.step (.push src dest request) = .ok s') :
    src < s.net.nNodes ∧ dest < s.net.nNodes ∧ ∃ e : Entity (Packet α),
      e.access = ⟨src, dest, request, s.net.cycles⟩ ∧ e.dest = dest ∧
      e.finishCycle = (match (s.net.inBuffers src dest).getLast? with
        | none => s.net.cycles + s.net.latency
        | some b => b.finishCycle + 1) ∧
      s' = { s with
        net := s.net.setIn src dest (s.net.inBuffers src dest ++ [e])
        pushed := Function.update s.pushed src
          (Function.update (s.pushed src) dest (s.pushed src dest ++ [e.access])) } := by
  simp only [step, SimpleInterconnect.push] at h
  split at h
  · rename_i hnodes
    cases h
    refine ⟨hnodes.1, hnodes.2, _, rfl, rfl, ?_, rfl⟩
    cases (s.net.inBuffers src dest).getLast? <;> rfl
  · cases h

/-- What a cycle does in the lane of a node. -/
theorem step_cycle (h : s.step .cycle = .ok s') (hdest : d < s.net.nNodes)
    (hrr : s.net.rrNextSrc d < s.net.nNodes) :
    ∃ g, LaneStep s.net.nNodes s.net.cycles (lane s.net d) g (lane s'.net d) ∧
      s'.moved d = s.moved d ++ (g.map fun x => (x.2.access, s.net.cycles)).toList := by
  cases h
  obtain ⟨g, hg⟩ := laneStep_cycle hdest hrr
  refine ⟨g, hg, ?_⟩
  have hout : s.net.cycle.outBuffers d =
      s.net.outBuffers d ++ (g.map fun x => x.2.access).toList := hg.outBuffer_eq
  simp only [hout, List.drop_left]
  cases g <;> rfl

/-- Beyond the nodes a cycle moves nothing. -/
theorem step_cycle_of_le (h : s.step .cycle = .ok s') (hdest : s.net.nNodes ≤ d) :
    lane s'.net d = lane s.net d ∧ s'.moved d = s.moved d := by
  cases h
  have hlane := lane_cycle_of_le hdest
  refine ⟨hlane, ?_⟩
  have hout : s.net.cycle.outBuffers d = s.net.outBuffers d := congrArg Lane.outBuffer hlane
  simp [hout]

/-- What a pop does. -/
theorem step_pop (h : s.step (.pop dest) = .ok s') : ∃ p rest, s.net.outBuffers dest = p :: rest ∧
    s' = { s with
      net := s.net.setOut dest rest
      popped := Function.update s.popped dest (s.popped dest ++ [p]) } := by
  simp only [step, SimpleInterconnect.top, SimpleInterconnect.pop] at h
  split at h
  · cases hout : s.net.outBuffers dest with
    | nil =>
        rw [hout] at h
        cases h
    | cons p rest =>
        rw [hout] at h
        cases h
        exact ⟨p, rest, rfl, rfl⟩
  · cases h

/-- No call changes the size and the latency, and only a cycle advances the clock. -/
theorem step_fixed {a : IcntAction α} (h : s.step a = .ok s') :
    s'.net.nNodes = s.net.nNodes ∧ s'.net.latency = s.net.latency ∧
      s.net.cycles ≤ s'.net.cycles := by
  cases a with
  | push =>
      obtain ⟨-, -, e, -, -, -, rfl⟩ := step_push h
      exact ⟨rfl, rfl, le_rfl⟩
  | cycle =>
      cases h
      obtain ⟨hnodes, hcycles, hlatency⟩ := cycle_fixed s.net
      exact ⟨hnodes, hlatency, by rw [hcycles]; exact Nat.le_succ _⟩
  | pop =>
      obtain ⟨p, rest, -, rfl⟩ := step_pop h
      exact ⟨rfl, rfl, le_rfl⟩

end IcntRun

end PyTorchSim.Analysis
