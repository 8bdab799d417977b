import PyTorchSim.Analysis.InterconnectDelivery

/-!
# The latency of the interconnect

A ready time counts from the push only if the queue is empty.  Behind another packet it is one
more than that packet's, however long ago that was.
-/

set_option autoImplicit false

namespace PyTorchSim.Analysis

open PyTorchSim.Library PyTorchSim.Model

namespace IcntRun

variable {α : Type} {s s' : IcntRun α}

/-- The ready time of a packet counts from its push: the queue is empty, or the last packet in it
is ready late enough. -/
def InTime (s : IcntRun α) : IcntAction α → Prop
  | .push src dest _ => ∀ b, (s.net.inBuffers src dest).getLast? = some b →
      s.net.cycles + s.net.latency ≤ b.finishCycle + 1
  | _ => True

/-- No packet has been ready too early, and none will be. -/
structure Timely (s : IcntRun α) : Prop where
  waiting : ∀ src d, ∀ e ∈ s.net.inBuffers src d,
    e.access.pushedAt + s.net.latency ≤ e.finishCycle
  moved : ∀ d, ∀ x ∈ s.moved d, x.1.pushedAt + s.net.latency ≤ x.2

/-- A pushed packet is ready no earlier than the latency allows exactly if it is pushed in
time. -/
theorem le_finishCycle_iff (s : IcntRun α) (src dest : ℕ) (request : α) :
    s.net.cycles + s.net.latency ≤ (LaneRun.entity s.net.latency dest (s.laneRun dest) src
      request).finishCycle ↔ s.InTime (.push src dest request) := by
  have hbuffer : (s.laneRun dest).lane.inBuffer src = s.net.inBuffers src dest := rfl
  have hcycles : (s.laneRun dest).cycles = s.net.cycles := rfl
  unfold LaneRun.entity InTime
  simp only [hbuffer, hcycles]
  cases h : (s.net.inBuffers src dest).getLast? <;> simp

theorem Timely.push {src dest : ℕ} {request : α} (h : s.Timely)
    (hguard : s.InTime (.push src dest request))
    (hstep : s.step (.push src dest request) = .ok s') : s'.Timely := by
  obtain ⟨-, -, e, haccess, -, hfinish, rfl⟩ := step_push hstep
  have hready := (le_finishCycle_iff s src dest request).mpr hguard
  have he : e.access.pushedAt + s.net.latency ≤ e.finishCycle := by
    rw [haccess, hfinish]
    exact hready
  refine ⟨?_, h.moved⟩
  intro x d a ha
  change a ∈ (lane (s.net.setIn src dest _) d).inBuffer x at ha
  by_cases hd : d = dest
  · subst hd
    rw [lane_setIn_self] at ha
    dsimp only at ha
    by_cases hx : x = src
    · subst hx
      rw [Function.update_self, List.mem_append, List.mem_singleton] at ha
      rcases ha with ha | rfl
      · exact h.waiting x d a ha
      · exact he
    · rw [Function.update_of_ne hx] at ha
      exact h.waiting x d a ha
  · rw [lane_setIn_of_ne hd] at ha
    exact h.waiting x d a ha

theorem Timely.cycle (h : s.Timely) (hturn : ∀ d < s.net.nNodes,
    s.net.rrNextSrc d < s.net.nNodes) (hstep : s.step .cycle = .ok s') : s'.Timely := by
  have hlatency : s'.net.latency = s.net.latency := (step_fixed hstep).2.1
  -- What a cycle does to the packets of one destination.
  have hlane (d : ℕ) : (∀ src, ∀ e ∈ s'.net.inBuffers src d, e ∈ s.net.inBuffers src d) ∧
      ∀ x ∈ s'.moved d, x ∈ s.moved d ∨ ∃ src, ∃ e ∈ s.net.inBuffers src d,
        x = (e.access, s.net.cycles) ∧ e.finishCycle ≤ s.net.cycles := by
    by_cases hd : d < s.net.nNodes
    · obtain ⟨g, hg, hmoved⟩ := step_cycle hstep hd (hturn d hd)
      rw [hmoved]
      obtain ⟨hsub, hgrant⟩ := hg.queues
      refine ⟨hsub, ?_⟩
      intro x hx
      rcases List.mem_append.mp hx with hx | hx
      · exact .inl hx
      · cases g with
        | none => cases hx
        | some y =>
            obtain ⟨hmem, hfinish⟩ := hgrant y rfl
            exact .inr ⟨y.1, y.2, hmem, by simpa using hx, hfinish⟩
    · obtain ⟨hlane, hmoved⟩ := step_cycle_of_le hstep (le_of_not_gt hd)
      have hin (src : ℕ) : s'.net.inBuffers src d = s.net.inBuffers src d :=
        congrFun (congrArg Lane.inBuffer hlane) src
      exact ⟨fun src e he => hin src ▸ he, fun x hx => .inl (hmoved ▸ hx)⟩
  constructor
  · intro src d e he
    rw [hlatency]
    exact h.waiting src d e ((hlane d).1 src e he)
  · intro d x hx
    rw [hlatency]
    rcases (hlane d).2 x hx with hx | ⟨src, e, he, rfl, hfinish⟩
    · exact h.moved d x hx
    · exact (h.waiting src d e he).trans hfinish

/-- **The latency is kept when every packet is pushed in time**: then a packet that is pushed at
`c` is moved to its destination by a cycle whose number is at least `c + latency`. -/
theorem latency_kept (latency nNodes : ℕ) (s : IcntRun α)
    (hs : Reach step InTime (init α latency nNodes) s) :
    ∀ d, ∀ x ∈ s.moved d, x.1.pushedAt + latency ≤ x.2 := by
  have htimely : s.Timely := by
    refine hs.invariant (I := Timely) ⟨?_, ?_⟩ ?_
    · intro src d e he
      cases he
    · intro d x hx
      cases hx
    · intro t a t' hreach h hguard hstep
      cases a with
      | push src dest request => exact h.push hguard hstep
      | cycle =>
          refine h.cycle ?_ hstep
          intro d hd
          rw [(fixed_of_reach hreach).1] at hd ⊢
          exact (inv_of_reach hreach hd).turn
      | pop nid =>
          obtain ⟨p, rest, -, rfl⟩ := step_pop hstep
          exact ⟨h.waiting, h.moved⟩
  intro d x hx
  have := htimely.moved d x hx
  rwa [(fixed_of_reach hs).2] at this

/-- Two packets that are pushed in the same cycle are both pushed in time. -/
theorem latency_kept_two : ∃ s : IcntRun ℕ, (s.moved 0).length = 2 ∧
    ∀ x ∈ s.moved 0, x.1.pushedAt + 3 ≤ x.2 := by
  have hinit : Reach step InTime (init ℕ 3 1) (init ℕ 3 1) := .init
  have hfirst := hinit.step (.push 0 0 10) (by intro b hb; cases hb) rfl
  have hsecond := hfirst.step (.push 0 0 20) (by intro b hb; cases hb; decide) rfl
  obtain ⟨s, hreach, hmoved⟩ := hsecond.exists_of_foldlM (List.replicate 5 .cycle)
    (fun s => (s.moved 0).length) (b := 2) (by decide)
    fun _ a ha => by rw [List.eq_of_mem_replicate ha]; trivial
  exact ⟨s, hmoved, latency_kept 3 1 s hreach 0⟩

/-- The third packet is pushed at 4, behind one that is ready at 4, and moved at 5. -/
theorem latency_undercut : ∃ s : IcntRun ℕ,
    Reach step (fun _ _ => True) (init ℕ 3 1) s ∧
      ∃ x ∈ s.moved 0, ¬ x.1.pushedAt + 3 ≤ x.2 := by
  have hinit : Reach step (fun _ _ => True) (init ℕ 3 1) (init ℕ 3 1) := .init
  obtain ⟨s, hreach, hmoved⟩ := hinit.exists_of_foldlM
    [.push 0 0 10, .push 0 0 20, .cycle, .cycle, .cycle, .cycle, .push 0 0 30, .cycle, .cycle]
    (fun s => (s.moved 0)[2]?) (b := some (⟨0, 0, 30, 4⟩, 5)) (by decide) fun _ _ _ => trivial
  exact ⟨s, hreach, _, List.mem_of_getElem? hmoved, by decide⟩

end IcntRun

end PyTorchSim.Analysis
