import Mathlib.Algebra.Order.Group.Nat
import Mathlib.Tactic.Ring
import PyTorchSim.Analysis.InterconnectLanes

/-!
# What the interconnect delivers

Each lane keeps a split of what was pushed into what it moved and what still waits, in order.
While the front of a queue is ready, each cycle moves the pointer of the lane closer to it, so no
other node is granted the destination twice, and a waiting packet is moved after a number of
cycles that is known when it is pushed.
-/

set_option autoImplicit false

namespace PyTorchSim.Analysis

open Relation PyTorchSim.Library PyTorchSim.Model

/-- A lane with its history and the clock. -/
structure LaneRun (α : Type) where
  lane : Lane (Packet α)
  cycles : ℕ
  pushed : ℕ → List (Packet α)
  moved : List (Packet α × ℕ)
  popped : List (Packet α)

/-- The lane of a destination in a run. -/
def IcntRun.laneRun {α : Type} (s : IcntRun α) (d : ℕ) : LaneRun α where
  lane := Analysis.lane s.net d
  cycles := s.net.cycles
  pushed src := s.pushed src d
  moved := s.moved d
  popped := s.popped d

namespace LaneRun

variable {α : Type}

/-- What is pushed into the queue of a node. -/
def entity (latency d : ℕ) (r : LaneRun α) (src : ℕ) (request : α) : Entity (Packet α) where
  finishCycle := match (r.lane.inBuffer src).getLast? with
    | none => r.cycles + latency
    | some b => b.finishCycle + 1
  dest := d
  access := ⟨src, d, request, r.cycles⟩

/-- What can happen to the lane of the destination `d`. -/
inductive Event (nNodes latency d : ℕ) (r : LaneRun α) : LaneRun α → Prop
  | stay : Event nNodes latency d r r
  | push (src : ℕ) (request : α) : src < nNodes → Event nNodes latency d r { r with
      lane := { r.lane with
        inBuffer := Function.update r.lane.inBuffer src
          (r.lane.inBuffer src ++ [r.entity latency d src request]) }
      pushed := Function.update r.pushed src
        (r.pushed src ++ [(r.entity latency d src request).access]) }
  | cycle (g : Option (ℕ × Entity (Packet α))) (l : Lane (Packet α)) :
      LaneStep nNodes r.cycles r.lane g l → Event nNodes latency d r { r with
        lane := l
        cycles := r.cycles + 1
        moved := r.moved ++ (g.map fun x => (x.2.access, r.cycles)).toList }
  | pop (p : Packet α) (rest : List (Packet α)) : r.lane.outBuffer = p :: rest →
      Event nNodes latency d r { r with
        lane := { r.lane with outBuffer := rest }
        popped := r.popped ++ [p] }

/-- The packets that came from a node, in order. -/
def movedFrom (r : LaneRun α) (src : ℕ) : List (Packet α) :=
  (r.moved.map Prod.fst).filter fun p => p.src = src

/-- **The invariant of a lane**: its arrivals are what was moved and not popped, a queue is what
was pushed and not moved, and the ready times of a queue rise. -/
structure Inv (nNodes d : ℕ) (r : LaneRun α) : Prop where
  turn : r.lane.rrNextSrc < nNodes
  arrivals : r.moved.map Prod.fst = r.popped ++ r.lane.outBuffer
  split : ∀ src, r.pushed src =
    r.movedFrom src ++ (r.lane.inBuffer src).map Entity.access
  origin : ∀ src, ∀ p ∈ r.pushed src, p.src = src ∧ p.dest = d
  sources : ∀ x ∈ r.moved, x.1 ∈ r.pushed x.1.src
  rising : ∀ src, (r.lane.inBuffer src).Pairwise fun a b => a.finishCycle < b.finishCycle

variable {nNodes latency d : ℕ} {r r' : LaneRun α}

/-- What is pushed is ready after everything before it. -/
theorem Inv.lt_entity (h : Inv nNodes d r) (src : ℕ) (request : α) {a : Entity (Packet α)}
    (ha : a ∈ r.lane.inBuffer src) :
    a.finishCycle < (r.entity latency d src request).finishCycle := by
  have hrising := h.rising src
  unfold entity
  rcases List.eq_nil_or_concat (r.lane.inBuffer src) with hnil | ⟨l, b, hlast⟩
  · rw [hnil] at ha
    cases ha
  · rw [List.concat_eq_append] at hlast
    rw [hlast] at ha hrising ⊢
    rw [List.getLast?_concat]
    dsimp only
    rcases List.mem_append.mp ha with ha | ha
    · have := (List.pairwise_append.mp hrising).2.2 a ha b (by simp)
      omega
    · rw [List.mem_singleton.mp ha]
      omega

/-- The front of a queue comes from its node. -/
theorem Inv.access_of_mem (h : Inv nNodes d r) {src : ℕ} {e : Entity (Packet α)}
    (he : e ∈ r.lane.inBuffer src) : e.access ∈ r.pushed src := by
  rw [h.split src]
  exact List.mem_append_right _ (List.mem_map_of_mem he)

theorem Inv.event (h : Inv nNodes d r) (hev : Event nNodes latency d r r') :
    Inv nNodes d r' := by
  cases hev with
  | stay => exact h
  | push src request hsrc =>
      refine ⟨h.turn, h.arrivals, ?_, ?_, ?_, ?_⟩
      · intro x
        by_cases hx : x = src
        · subst hx
          simp [movedFrom, h.split x]
        · simp only [Function.update_of_ne hx]
          exact h.split x
      · intro x p hp
        dsimp only at hp
        by_cases hx : x = src
        · subst hx
          rw [Function.update_self, List.mem_append, List.mem_singleton] at hp
          rcases hp with hp | rfl
          · exact h.origin x p hp
          · exact ⟨rfl, rfl⟩
        · rw [Function.update_of_ne hx] at hp
          exact h.origin x p hp
      · intro x hx
        have hold := h.sources x hx
        by_cases hsrc : x.1.src = src
        · dsimp only
          rw [hsrc, Function.update_self]
          exact List.mem_append_left _ (hsrc ▸ hold)
        · simpa only [Function.update_of_ne hsrc] using hold
      · intro x
        dsimp only
        by_cases hx : x = src
        · subst hx
          rw [Function.update_self, List.pairwise_append]
          refine ⟨h.rising x, List.pairwise_singleton _ _, ?_⟩
          intro a ha b hb
          rw [List.mem_singleton.mp hb]
          exact h.lt_entity x request ha
        · simp only [Function.update_of_ne hx]
          exact h.rising x
  | cycle g l hstep =>
      cases hstep with
      | idle => exact ⟨h.turn, by simpa using h.arrivals, by simpa [movedFrom] using h.split,
          h.origin, by simpa using h.sources, h.rising⟩
      | grant src e rest hsrc hqueue hfinish hfirst =>
          have hmem : e.access ∈ r.pushed src := h.access_of_mem (by rw [hqueue]; simp)
          obtain ⟨hfrom, -⟩ := h.origin src _ hmem
          refine ⟨Nat.mod_lt _ (by omega), ?_, ?_, h.origin, ?_, ?_⟩
          · simp [h.arrivals]
          · intro x
            have hold := h.split x
            by_cases hx : x = src
            · subst hx
              rw [hqueue] at hold
              simpa [movedFrom, hfrom] using hold
            · have hne : e.access.src ≠ x := fun heq => hx (heq.symm.trans hfrom)
              simpa [movedFrom, hne, Function.update_of_ne hx] using hold
          · intro x hx
            simp only [Option.map_some, Option.toList_some, List.mem_append,
              List.mem_singleton] at hx
            rcases hx with hx | rfl
            · exact h.sources x hx
            · dsimp only
              rwa [hfrom]
          · intro x
            by_cases hx : x = src
            · subst hx
              have hrising := h.rising x
              rw [hqueue] at hrising
              simpa only [Function.update_self] using hrising.of_cons
            · simp only [Function.update_of_ne hx]
              exact h.rising x
  | pop p rest hout =>
      refine ⟨h.turn, ?_, h.split, h.origin, h.sources, h.rising⟩
      simp [h.arrivals, hout]

/-- An event adds to what was moved and to what was pushed. -/
theorem Event.grows (hev : Event nNodes latency d r r') :
    r.moved <+: r'.moved ∧ (∀ src, r.pushed src <+: r'.pushed src) ∧ r.cycles ≤ r'.cycles := by
  cases hev with
  | stay => exact ⟨List.prefix_rfl, fun _ => List.prefix_rfl, le_rfl⟩
  | push src request =>
      refine ⟨List.prefix_rfl, ?_, le_rfl⟩
      intro x
      by_cases hx : x = src
      · subst hx
        simp
      · simp [Function.update_of_ne hx]
  | cycle => exact ⟨List.prefix_append _ _, fun _ => List.prefix_rfl, Nat.le_succ _⟩
  | pop => exact ⟨List.prefix_rfl, fun _ => List.prefix_rfl, le_rfl⟩

/-- A row of events. -/
abbrev Path (nNodes latency d : ℕ) : LaneRun α → LaneRun α → Prop :=
  ReflTransGen (Event nNodes latency d)

theorem Path.inv (hpath : Path nNodes latency d r r') (h : Inv nNodes d r) : Inv nNodes d r' := by
  induction hpath with
  | refl => exact h
  | tail _ hev ih => exact ih.event hev

theorem Path.grows (hpath : Path nNodes latency d r r') :
    r.moved <+: r'.moved ∧ (∀ src, r.pushed src <+: r'.pushed src) ∧ r.cycles ≤ r'.cycles := by
  induction hpath with
  | refl => exact ⟨List.prefix_rfl, fun _ => List.prefix_rfl, le_rfl⟩
  | tail _ hev ih =>
      obtain ⟨hmoved, hpushed, hcycles⟩ := hev.grows
      exact ⟨ih.1.trans hmoved, fun src => (ih.2.1 src).trans (hpushed src),
        ih.2.2.trans hcycles⟩

/-- The front of the queue of a node waits for its turn only. -/
def Ready (r : LaneRun α) (src : ℕ) : Prop :=
  ∃ e, (r.lane.inBuffer src).head? = some e ∧ e.finishCycle ≤ r.cycles

/-- Whoever is granted the destination while another node is ready comes before it. -/
theorem Inv.comes_before {src x : ℕ} {e : Entity (Packet α)} (h : Inv nNodes d r)
    (hsrc : src < nNodes) (hready : r.Ready src) (hx : x < nNodes)
    (hmem : e ∈ r.lane.inBuffer x) (hne : e.access.src ≠ src)
    (hfirst : ∀ y < nNodes, r.Ready y →
      turnsTo nNodes r.lane.rrNextSrc x ≤ turnsTo nNodes r.lane.rrNextSrc y) :
    turnsTo nNodes r.lane.rrNextSrc x < turnsTo nNodes r.lane.rrNextSrc src := by
  obtain ⟨hfrom, -⟩ := h.origin x _ (h.access_of_mem hmem)
  apply lt_of_le_of_ne (hfirst src hsrc hready)
  intro heq
  exact hne (hfrom.trans (eq_of_turnsTo_eq h.turn hx hsrc heq))

/-- A ready node stays ready until it is granted the destination, and every grant brings the
pointer closer to it. -/
theorem Path.passed {src : ℕ} (hpath : Path nNodes latency d r r') (h : Inv nNodes d r)
    (hsrc : src < nNodes) (hready : r.Ready src) {gs : List (Packet α × ℕ)}
    (hgs : r'.moved = r.moved ++ gs) (hnot : ∀ x ∈ gs, x.1.src ≠ src) :
    r'.Ready src ∧ Passed nNodes src r.lane.rrNextSrc (gs.map fun x => x.1.src)
      r'.lane.rrNextSrc := by
  induction hpath generalizing gs with
  | refl =>
      obtain rfl : gs = [] := by simpa using hgs
      exact ⟨hready, .nil⟩
  | @tail r₁ r₂ hpath hev ih =>
      obtain ⟨gs₁, hgs₁⟩ := (Path.grows hpath).1
      have hin := Path.inv hpath h
      cases hev with
      | stay => exact ih hgs hnot
      | push x request hx =>
          obtain ⟨⟨e, he, hfinish⟩, hpassed⟩ := ih hgs hnot
          refine ⟨⟨e, ?_, hfinish⟩, hpassed⟩
          dsimp only
          by_cases hxs : src = x
          · subst hxs
            rw [Function.update_self, List.head?_append, he, Option.some_or]
          · rwa [Function.update_of_ne hxs]
      | pop p rest hout => exact ih hgs hnot
      | cycle g l hstep =>
          dsimp only at hgs
          rw [← hgs₁, List.append_assoc, List.append_cancel_left_eq] at hgs
          subst hgs
          obtain ⟨hready₁, hpassed⟩ := ih hgs₁.symm
            fun x hx => hnot x (List.mem_append_left _ hx)
          obtain ⟨e, he, hfinish⟩ := hready₁
          cases hstep with
          | idle hidle => exact absurd ⟨e, he, hfinish⟩ (hidle src hsrc)
          | grant x a rest hx hqueue ha hfirst =>
              have hne : a.access.src ≠ src := hnot (a.access, r₁.cycles) (by simp)
              have hmem : a ∈ r₁.lane.inBuffer x := by
                rw [hqueue]
                exact List.mem_cons_self ..
              have hlt := hin.comes_before hsrc ⟨e, he, hfinish⟩ hx hmem hne hfirst
              have hxs : src ≠ x := by
                rintro rfl
                exact hne (hin.origin src _ (hin.access_of_mem hmem)).1
              refine ⟨⟨e, ?_, hfinish.trans (Nat.le_succ _)⟩, ?_⟩
              · dsimp only
                rwa [Function.update_of_ne hxs]
              · simp only [Option.map_some, Option.toList_some, List.map_append, List.map_cons,
                  List.map_nil, (hin.origin x _ (hin.access_of_mem hmem)).1]
                exact hpassed.found x hx hlt

/-- A queue with a packet that is ready has a front that is ready. -/
theorem Inv.ready_of_getElem {src k : ℕ} {e : Entity (Packet α)} (h : Inv nNodes d r)
    (he : (r.lane.inBuffer src)[k]? = some e) (hfinish : e.finishCycle ≤ r.cycles) :
    r.Ready src := by
  have hrising := h.rising src
  unfold Ready
  cases hqueue : r.lane.inBuffer src with
  | nil => simp [hqueue] at he
  | cons a rest =>
      rw [hqueue] at he hrising
      refine ⟨a, rfl, ?_⟩
      rcases List.mem_cons.mp (List.mem_of_getElem? he) with rfl | hmem
      · exact hfinish
      · have := (List.pairwise_cons.mp hrising).1 e hmem
        omega

/-- How far a packet with `k` others before it in the queue of `src` is from its turn. -/
def distance (nNodes : ℕ) (r : LaneRun α) (src k : ℕ) : ℕ :=
  k * nNodes + turnsTo nNodes r.lane.rrNextSrc src

theorem Inv.distance_lt {src k i : ℕ} (h : Inv nNodes d r) (hsrc : src < nNodes) (hk : k ≤ i) :
    distance nNodes r src k < (i + 1) * nNodes := by
  have hle := Nat.mul_le_mul_right nNodes hk
  have hlt := turnsTo_lt h.turn hsrc
  unfold distance
  rw [Nat.succ_mul]
  omega

/-- **One event brings a waiting packet closer to its turn**: the packet is moved, or it stays
in the queue, and with a cycle from its ready time on its distance shrinks. -/
theorem Inv.event_distance {src k : ℕ} {e : Entity (Packet α)} (h : Inv nNodes d r)
    (hsrc : src < nNodes) (he : (r.lane.inBuffer src)[k]? = some e)
    (hev : Event nNodes latency d r r') :
    (k = 0 ∧ (r'.movedFrom src).length = (r.movedFrom src).length + 1) ∨
    ∃ k', (r'.lane.inBuffer src)[k']? = some e ∧
      (r'.movedFrom src).length + k' = (r.movedFrom src).length + k ∧
      (r'.cycles = r.cycles ∧ distance nNodes r' src k' = distance nNodes r src k ∨
        r'.cycles = r.cycles + 1 ∧ (e.finishCycle ≤ r.cycles →
          distance nNodes r' src k' < distance nNodes r src k)) := by
  cases hev with
  | stay => exact .inr ⟨k, he, rfl, .inl ⟨rfl, rfl⟩⟩
  | pop p rest hout => exact .inr ⟨k, he, rfl, .inl ⟨rfl, rfl⟩⟩
  | push x request hx =>
      refine .inr ⟨k, ?_, rfl, .inl ⟨rfl, rfl⟩⟩
      dsimp only
      by_cases hxs : src = x
      · subst hxs
        rw [Function.update_self, List.getElem?_append_left (List.getElem?_eq_some_iff.mp he).1]
        exact he
      · rwa [Function.update_of_ne hxs]
  | cycle g l hstep =>
      cases hstep with
      | idle hidle =>
          refine .inr ⟨k, he, by simp [movedFrom], .inr ⟨rfl, ?_⟩⟩
          intro hfinish
          exact absurd (h.ready_of_getElem he hfinish) (hidle src hsrc)
      | grant x a rest hx hqueue ha hfirst =>
          have hmem : a ∈ r.lane.inBuffer x := by
            rw [hqueue]
            exact List.mem_cons_self ..
          have hfrom := (h.origin x _ (h.access_of_mem hmem)).1
          by_cases hxs : src = x
          · -- The queue itself has its turn.
            subst hxs
            rw [hqueue] at he
            cases k with
            | zero => exact .inl ⟨rfl, by simp [movedFrom, hfrom]⟩
            | succ k =>
                refine .inr ⟨k, ?_, ?_, .inr ⟨rfl, ?_⟩⟩
                · simpa using he
                · simp [movedFrom, hfrom]
                  omega
                · intro _
                  have hlt : turnsTo nNodes ((src + 1) % nNodes) src < nNodes :=
                    turnsTo_lt (Nat.mod_lt _ (by omega)) hsrc
                  unfold distance
                  rw [Nat.succ_mul]
                  dsimp only
                  omega
          · have hne : a.access.src ≠ src := fun heq => hxs (heq.symm.trans hfrom)
            refine .inr ⟨k, ?_, by simp [movedFrom, hne], .inr ⟨rfl, ?_⟩⟩
            · dsimp only
              rwa [Function.update_of_ne hxs]
            · intro hfinish
              have hready := h.ready_of_getElem he hfinish
              have hlt := h.comes_before hsrc hready hx hmem hne hfirst
              have hnext := turnsTo_succ_mod h.turn hsrc hx hlt
              unfold distance
              dsimp only
              omega

/-- Along a run a packet is moved, or it comes closer with every cycle from its ready time on. -/
theorem Path.moved_or_closer {src i : ℕ} {e : Entity (Packet α)}
    (hpath : Path nNodes latency d r r') (h : Inv nNodes d r) (hsrc : src < nNodes)
    (he : (r.lane.inBuffer src)[i]? = some e) :
    (r.movedFrom src).length + i < (r'.movedFrom src).length ∨
    ∃ k ≤ i, (r'.lane.inBuffer src)[k]? = some e ∧
      (r'.movedFrom src).length + k = (r.movedFrom src).length + i ∧
      (max r.cycles e.finishCycle ≤ r'.cycles → r'.cycles + distance nNodes r' src k <
        max r.cycles e.finishCycle + (i + 1) * nNodes) := by
  induction hpath with
  | refl =>
      refine .inr ⟨i, le_rfl, he, rfl, ?_⟩
      intro _
      have hdistance := h.distance_lt hsrc (le_refl i)
      omega
  | @tail r₁ r₂ hpath hev ih =>
      have hin := Path.inv hpath h
      have hin' := hin.event hev
      rcases ih with hmoved | ⟨k, hki, hk, hlength, hclose⟩
      · have hgrow := (hev.grows.1.map Prod.fst).filter (fun p => p.src = src) |>.length_le
        exact .inl (lt_of_lt_of_le hmoved hgrow)
      · rcases hin.event_distance hsrc hk hev with ⟨hzero, hone⟩ | ⟨k', hk', hlength', hdist⟩
        · exact .inl (by omega)
        · have hki' : k' ≤ i := by
            have hgrow := (hev.grows.1.map Prod.fst).filter (fun p => p.src = src) |>.length_le
            change (r₁.movedFrom src).length ≤ (r₂.movedFrom src).length at hgrow
            omega
          refine .inr ⟨k', hki', hk', by omega, ?_⟩
          intro hready
          have hdistance := hin'.distance_lt hsrc hki'
          rcases hdist with ⟨hcycles, hdist⟩ | ⟨hcycles, hdist⟩
          · have := hclose (by omega)
            omega
          · by_cases hbefore : max r.cycles e.finishCycle ≤ r₁.cycles
            · have hold := hclose hbefore
              have hnew := hdist (by omega)
              omega
            · omega

/-- **A packet is moved in its place**, at the latest a round of the nodes after its ready time
for itself and for each packet before it. -/
theorem Path.moved_at {src i : ℕ} {e : Entity (Packet α)}
    (hpath : Path nNodes latency d r r') (h : Inv nNodes d r) (hsrc : src < nNodes)
    (he : (r.lane.inBuffer src)[i]? = some e)
    (hlate : max r.cycles e.finishCycle + (i + 1) * nNodes ≤ r'.cycles) :
    (r'.movedFrom src)[(r.movedFrom src).length + i]? = some e.access := by
  have hmoved : (r.movedFrom src).length + i < (r'.movedFrom src).length := by
    rcases hpath.moved_or_closer h hsrc he with hmoved | ⟨k, -, -, -, hclose⟩
    · exact hmoved
    · have := hclose (by omega)
      omega
  have hplace : (r.pushed src)[(r.movedFrom src).length + i]? = some e.access := by
    rw [h.split src, List.getElem?_append_right (Nat.le_add_right _ _), Nat.add_sub_cancel_left,
      List.getElem?_map, he, Option.map_some]
  obtain ⟨rest, hrest⟩ := (Path.grows hpath).2.1 src
  have hplace' : (r'.pushed src)[(r.movedFrom src).length + i]? = some e.access := by
    rw [← hrest, List.getElem?_append_left (List.getElem?_eq_some_iff.mp hplace).1]
    exact hplace
  rwa [(hpath.inv h).split src, List.getElem?_append_left hmoved] at hplace'

end LaneRun

namespace IcntRun

variable {α : Type} {s s' : IcntRun α} {latency nNodes d : ℕ}

/-- Every call is an event of every lane. -/
theorem event_of_step {a : IcntAction α} (h : s.step a = .ok s') (hd : d < s.net.nNodes)
    (hrr : s.net.rrNextSrc d < s.net.nNodes) :
    LaneRun.Event s.net.nNodes s.net.latency d (s.laneRun d) (s'.laneRun d) := by
  cases a with
  | push src dest request =>
      obtain ⟨hsrc, -, e, haccess, hdest, hfinish, rfl⟩ := step_push h
      by_cases hdd : d = dest
      · subst hdd
        have he : e = LaneRun.entity s.net.latency d (s.laneRun d) src request := by
          cases e
          simp only at haccess hdest hfinish
          subst haccess hdest hfinish
          rfl
        subst he
        convert LaneRun.Event.push (r := s.laneRun d) src request hsrc using 1
        simp only [laneRun, lane_setIn_self, LaneRun.mk.injEq, and_self, and_true]
        refine ⟨rfl, rfl, funext fun x => ?_⟩
        by_cases hx : x = src
        · simp [hx]
        · simp [Function.update_of_ne hx]
      · convert LaneRun.Event.stay using 1
        simp only [laneRun, lane_setIn_of_ne hdd, LaneRun.mk.injEq, and_self, and_true]
        refine ⟨trivial, rfl, funext fun x => ?_⟩
        by_cases hx : x = src
        · simp [hx, Function.update_of_ne hdd]
        · simp [Function.update_of_ne hx]
  | cycle =>
      obtain ⟨g, hg, hmoved⟩ := step_cycle h hd hrr
      have hevent : LaneRun.Event s.net.nNodes s.net.latency d (s.laneRun d) _ :=
        .cycle g (lane s'.net d) hg
      convert hevent using 1
      cases h
      simp only [laneRun, LaneRun.mk.injEq, and_true, true_and]
      exact ⟨(cycle_fixed s.net).2.1, hmoved⟩
  | pop nid =>
      obtain ⟨p, rest, hout, rfl⟩ := step_pop h
      by_cases hdd : d = nid
      · subst hdd
        convert LaneRun.Event.pop (r := s.laneRun d) p rest hout using 1
        simp only [laneRun, lane_setOut_self, Function.update_self]
        rfl
      · convert LaneRun.Event.stay using 1
        simp only [laneRun, lane_setOut_of_ne hdd, Function.update_of_ne hdd]
        rfl

/-- The size and the latency never change. -/
theorem fixed_of_reach {guard : IcntRun α → IcntAction α → Prop} (h : Reach step guard s s') :
    s'.net.nNodes = s.net.nNodes ∧ s'.net.latency = s.net.latency := by
  induction h with
  | init => exact ⟨rfl, rfl⟩
  | step a _ _ hstep ih =>
      obtain ⟨hnodes, hlatency, -⟩ := step_fixed hstep
      exact ⟨hnodes.trans ih.1, hlatency.trans ih.2⟩

/-- A run is a row of events of every lane. -/
theorem path_of_reach {guard : IcntRun α → IcntAction α → Prop} (h : Reach step guard s s')
    (hd : d < s.net.nNodes) (hinv : (s.laneRun d).Inv s.net.nNodes d) :
    LaneRun.Path s.net.nNodes s.net.latency d (s.laneRun d) (s'.laneRun d) := by
  induction h with
  | init => exact .refl
  | @step t t' a hreach _ hstep ih =>
      obtain ⟨hnodes, hlatency⟩ := fixed_of_reach hreach
      have hturn : t.net.rrNextSrc d < s.net.nNodes := (ih.inv hinv).turn
      rw [← hnodes] at hd hturn
      have hevent := event_of_step hstep hd hturn
      rw [hnodes, hlatency] at hevent
      exact ih.tail hevent

/-- The lanes of the interconnect before the first call. -/
theorem inv_init (hd : d < nNodes) : ((init α latency nNodes).laneRun d).Inv nNodes d where
  turn := Nat.zero_lt_of_lt hd
  arrivals := rfl
  split _ := rfl
  origin _ p hp := by cases hp
  sources x hx := by cases hx
  rising _ := List.Pairwise.nil

theorem inv_of_reach {guard : IcntRun α → IcntAction α → Prop}
    (h : Reach step guard (init α latency nNodes) s) (hd : d < nNodes) :
    (s.laneRun d).Inv nNodes d :=
  (path_of_reach h hd (inv_init hd)).inv (inv_init hd)

/-- A number that is not a node has no packets. -/
structure Unused (s : IcntRun α) (d : ℕ) : Prop where
  lane : lane s.net d = ⟨fun _ => [], [], 0⟩
  pushed : ∀ src, s.pushed src d = []
  moved : s.moved d = []
  popped : s.popped d = []

theorem unused_of_reach {guard : IcntRun α → IcntAction α → Prop}
    (h : Reach step guard (init α latency nNodes) s) (hd : nNodes ≤ d) : s.Unused d := by
  induction h with
  | init => exact ⟨rfl, fun _ => rfl, rfl, rfl⟩
  | @step t t' a hreach _ hstep ih =>
      have hnodes : t.net.nNodes = nNodes := (fixed_of_reach hreach).1
      cases a with
      | push src dest request =>
          obtain ⟨-, hdest, e, -, -, -, rfl⟩ := step_push hstep
          have hne : d ≠ dest := by omega
          refine ⟨(lane_setIn_of_ne hne _ _).trans ih.lane, ?_, ih.moved, ih.popped⟩
          intro x
          by_cases hx : x = src
          · simp [hx, Function.update_of_ne hne, ih.pushed]
          · simp [Function.update_of_ne hx, ih.pushed]
      | cycle =>
          obtain ⟨hlane, hmoved⟩ := step_cycle_of_le hstep (by omega : t.net.nNodes ≤ d)
          cases hstep
          exact ⟨hlane.trans ih.lane, ih.pushed, hmoved.trans ih.moved, ih.popped⟩
      | pop nid =>
          obtain ⟨p, rest, hout, rfl⟩ := step_pop hstep
          have hempty : t.net.outBuffers d = [] := congrArg Lane.outBuffer ih.lane
          have hne : d ≠ nid := by
            rintro rfl
            rw [hempty] at hout
            cases hout
          exact ⟨(lane_setOut_of_ne hne _).trans ih.lane, ih.pushed, ih.moved,
            (Function.update_of_ne hne _ _).trans ih.popped⟩

/-- Nothing is lost, made twice or brought out of order: what was pushed from one node to another
is what came to the arrivals of the other, followed by what waits in the queue, and the arrivals
are what was popped, followed by what can be popped. -/
structure Delivers (s : IcntRun α) : Prop where
  arrivals : ∀ d, (s.moved d).map Prod.fst = s.popped d ++ s.net.outBuffers d
  in_order : ∀ src d, s.pushed src d =
    s.movedFrom src d ++ (s.net.inBuffers src d).map Entity.access
  origin : ∀ d, ∀ x ∈ s.moved d, x.1.dest = d ∧ x.1 ∈ s.pushed x.1.src d

theorem delivers_of_reach {guard : IcntRun α → IcntAction α → Prop}
    (h : Reach step guard (init α latency nNodes) s) : s.Delivers := by
  constructor
  · intro d
    by_cases hd : d < nNodes
    · exact (inv_of_reach h hd).arrivals
    · have hunused := unused_of_reach h (le_of_not_gt hd)
      have hout : s.net.outBuffers d = [] := congrArg Lane.outBuffer hunused.lane
      simp [hunused.moved, hunused.popped, hout]
  · intro src d
    by_cases hd : d < nNodes
    · exact (inv_of_reach h hd).split src
    · have hunused := unused_of_reach h (le_of_not_gt hd)
      have hin : s.net.inBuffers src d = [] :=
        congrFun (congrArg Lane.inBuffer hunused.lane) src
      simp [movedFrom, hunused.moved, hunused.pushed, hin]
  · intro d x hx
    by_cases hd : d < nNodes
    · have hinv := inv_of_reach h hd
      have hmem : x.1 ∈ s.pushed x.1.src d := hinv.sources x hx
      exact ⟨(hinv.origin _ _ hmem).2, hmem⟩
    · rw [(unused_of_reach h (le_of_not_gt hd)).moved] at hx
      cases hx

/-- A cycle brings at most one packet to the arrivals of a node. -/
theorem outBuffers_cycle (h : s.step .cycle = .ok s') (hinv : ∀ d < s.net.nNodes,
    s.net.rrNextSrc d < s.net.nNodes) (d : ℕ) :
    ∃ l, l.length ≤ 1 ∧ s'.net.outBuffers d = s.net.outBuffers d ++ l := by
  by_cases hd : d < s.net.nNodes
  · obtain ⟨g, hg, -⟩ := step_cycle h hd (hinv d hd)
    refine ⟨_, ?_, hg.outBuffer_eq⟩
    cases g <;> simp
  · obtain ⟨hlane, -⟩ := step_cycle_of_le h (le_of_not_gt hd)
    have hout : s'.net.outBuffers d = s.net.outBuffers d := congrArg Lane.outBuffer hlane
    exact ⟨[], by simp, by simp [hout]⟩

/-- While the front of a queue is ready and stays, no node is granted the destination twice. -/
theorem grants_nodup {src : ℕ} {guard : IcntRun α → IcntAction α → Prop}
    (h : Reach step guard s s') (hd : d < s.net.nNodes)
    (hinv : (s.laneRun d).Inv s.net.nNodes d) (hsrc : src < s.net.nNodes)
    (hready : s.net.ready d src = true)
    (hnot : ∀ x ∈ (s'.moved d).drop (s.moved d).length, x.1.src ≠ src) :
    (((s'.moved d).drop (s.moved d).length).map fun x => x.1.src).Nodup := by
  have hpath := path_of_reach h hd hinv
  obtain ⟨gs, hgs⟩ := hpath.grows.1
  change s.moved d ++ gs = s'.moved d at hgs
  rw [← hgs, List.drop_left] at hnot ⊢
  obtain ⟨-, hpassed⟩ := hpath.passed hinv hsrc (ready_iff.mp hready) hgs.symm hnot
  exact (hpassed.between hinv.turn hsrc).2.1

/-- **The interconnect delivers**: the packets between two nodes arrive once and in the order of
their pushes, a cycle brings at most one packet to a node, a node that is ready sees no other
node granted its destination twice, and every packet arrives in its place, after a number of
cycles that is known when it is pushed. -/
theorem interconnect_delivers (latency nNodes : ℕ) (s : IcntRun α)
    (hs : Reach step (fun _ _ => True) (init α latency nNodes) s) :
    s.Delivers ∧
    (∀ s', s.step .cycle = .ok s' → ∀ d, ∃ l, l.length ≤ 1 ∧
      s'.net.outBuffers d = s.net.outBuffers d ++ l) ∧
    ∀ s', Reach step (fun _ _ => True) s s' → ∀ src < nNodes, ∀ d < nNodes,
      (s.net.ready d src = true →
        (∀ x ∈ (s'.moved d).drop (s.moved d).length, x.1.src ≠ src) →
        (((s'.moved d).drop (s.moved d).length).map fun x => x.1.src).Nodup) ∧
      ∀ i e, (s.net.inBuffers src d)[i]? = some e →
        max s.net.cycles e.finishCycle + (i + 1) * nNodes ≤ s'.net.cycles →
        (s'.movedFrom src d)[(s.movedFrom src d).length + i]? = some e.access := by
  obtain ⟨hnodes, -⟩ := fixed_of_reach hs
  change s.net.nNodes = nNodes at hnodes
  subst hnodes
  refine ⟨delivers_of_reach hs, ?_, ?_⟩
  · intro s' hstep
    exact outBuffers_cycle hstep fun d hd => (inv_of_reach hs hd).turn
  · intro s' hs' src hsrc d hd
    have hinv := inv_of_reach hs hd
    refine ⟨grants_nodup hs' hd hinv hsrc, ?_⟩
    intro i e he hlate
    exact (path_of_reach hs' hd hinv).moved_at hinv hsrc he hlate

/-- Two nodes send to the second one. -/
theorem interconnect_delivers_two : ∃ s : IcntRun ℕ,
    (s.popped 1).map Packet.request = [10, 20] ∧ s.Delivers := by
  have hinit : Reach step (fun _ _ => True) (init ℕ 0 2) (init ℕ 0 2) := .init
  obtain ⟨s, hreach, hpopped⟩ := hinit.exists_of_foldlM
    [.push 0 1 10, .push 1 1 20, .cycle, .cycle, .pop 1, .pop 1]
    (fun s => (s.popped 1).map Packet.request) (b := [10, 20]) (by decide) fun _ _ _ => trivial
  exact ⟨s, hpopped, (interconnect_delivers 0 2 s hreach).1⟩

end IcntRun

end PyTorchSim.Analysis
