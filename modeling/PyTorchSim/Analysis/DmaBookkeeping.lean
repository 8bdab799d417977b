import Mathlib.Data.Finset.Card
import PyTorchSim.Analysis.DmaTransit
import PyTorchSim.Analysis.RequestConservation
import PyTorchSim.Analysis.SimulatorTiles

/-!
# The DMA engine loses nothing

The ledger of the DMA engine holds in every run of a core and its requests, whatever the order
of the replies, as long as a reply comes only after a cycle of the caches took the request.  The
cores of a simulator without a cache run like this: each is followed by such a core with its
requests, step by step.
-/

set_option autoImplicit false

namespace PyTorchSim.Analysis

open PyTorchSim.Model PyTorchSim.Library

variable {τ ι : Type} [DecidableEq τ] [DecidableEq ι] {P : TileProgram τ ι} {cfg : CoreConfig}
  {p p' : CorePath τ ι} {i : ι}

/-! ## A core and its requests -/

/-- The requests of an instruction that left the core and are not answered, by their numbers. -/
def outstanding (p : CorePath τ ι) (i : ι) : Finset ℕ :=
  (Finset.range p.sent.length).filter fun n =>
    n ∉ p.answered ∧ (p.sent[n]?).map (·.customData) = some i

/-- The caches have not taken one of them. -/
def Untaken (p : CorePath τ ι) (i : ι) : Prop := ∃ n ∈ outstanding p i, n ∉ p.taken

/-- The invariant of a core and its requests. -/
structure PathInv (P : TileProgram τ ι) (p : CorePath τ ι) : Prop where
  core : CoreInv P p.core
  ledger : DmaInv p.core (fun i => (outstanding p i).card) (Untaken p)
  carried : Carried P p.core
  answered : ∀ n ∈ p.answered, n ∈ p.taken
  taken : ∀ n ∈ p.taken, n < p.sent.length

omit [DecidableEq τ] in
theorem mem_outstanding {n : ℕ} : n ∈ outstanding p i ↔
    n < p.sent.length ∧ n ∉ p.answered ∧ (p.sent[n]?).map (·.customData) = some i := by
  unfold outstanding
  rw [Finset.mem_filter, Finset.mem_range]

omit [DecidableEq τ] in
theorem outstanding_congr (hsent : p'.sent = p.sent) (hanswered : p'.answered = p.answered) :
    outstanding p' = outstanding p := by
  funext i
  unfold outstanding
  rw [hsent, hanswered]

omit [DecidableEq τ] in
/-- A request that leaves the core is outstanding. -/
theorem outstanding_send {r : MemFetch ι} (hsent : p'.sent = p.sent ++ [r])
    (hanswered : p'.answered = p.answered) (hlt : ∀ n ∈ p.answered, n < p.sent.length) (i : ι) :
    outstanding p' i =
      if r.customData = i then insert p.sent.length (outstanding p i) else outstanding p i := by
  have hold : ∀ n < p.sent.length, (p.sent ++ [r])[n]? = p.sent[n]? := fun n hn =>
    List.getElem?_append_left hn
  have hnew : (p.sent ++ [r])[p.sent.length]? = some r := by
    rw [List.getElem?_append_right (Nat.le_refl _), Nat.sub_self]
    rfl
  have hfresh : p.sent.length ∉ p.answered := fun h => absurd (hlt _ h) (Nat.lt_irrefl _)
  ext n
  rw [mem_outstanding, hsent, hanswered, List.length_append, List.length_singleton]
  rcases Nat.lt_trichotomy n p.sent.length with hn | rfl | hn
  · rw [hold n hn]
    split
    · rw [Finset.mem_insert, mem_outstanding]
      have hne := hn.ne
      have hlt' : n < p.sent.length + 1 := by omega
      simp [hn, hne, hlt']
    · rw [mem_outstanding]
      have hlt' : n < p.sent.length + 1 := by omega
      simp [hn, hlt']
  · rw [hnew]
    split
    · rename_i hr
      simp [hfresh, hr]
    · rename_i hr
      rw [mem_outstanding]
      simp [hr]
  · have hle : ¬ n < p.sent.length + 1 := by omega
    have hne : n ≠ p.sent.length := by omega
    have hnot : ¬ n < p.sent.length := by omega
    split
    · rw [Finset.mem_insert, mem_outstanding]
      simp [hle, hne, hnot]
    · rw [mem_outstanding]
      simp [hle, hnot]

omit [DecidableEq τ] in
/-- A request that is answered is not outstanding any more. -/
theorem outstanding_answer {n : ℕ} (hsent : p'.sent = p.sent)
    (hanswered : p'.answered = insert n p.answered) (i : ι) :
    outstanding p' i = (outstanding p i).erase n := by
  ext m
  rw [mem_outstanding, Finset.mem_erase, mem_outstanding, hsent, hanswered, Finset.mem_insert]
  tauto

omit [DecidableEq τ] in
/-- How many requests are outstanding after one left the core. -/
theorem card_outstanding_send (core : Core τ ι) (r : MemFetch ι)
    (hlt : ∀ n ∈ p.answered, n < p.sent.length) :
    (fun i => (outstanding p i).card + if r.customData = i then 1 else 0) =
      fun i => (outstanding { p with core := core, sent := p.sent ++ [r] } i).card := by
  have hnot : ∀ i, p.sent.length ∉ outstanding p i := fun i h =>
    Nat.lt_irrefl _ (mem_outstanding.mp h).1
  have hsend : ∀ i, outstanding { p with core := core, sent := p.sent ++ [r] } i =
      if r.customData = i then insert p.sent.length (outstanding p i) else outstanding p i :=
    outstanding_send rfl rfl hlt
  funext i
  rw [hsend]
  split
  · rw [Finset.card_insert_of_notMem (hnot i)]
  · rfl

omit [DecidableEq τ] in
/-- How many requests are outstanding after one was answered. -/
theorem card_outstanding_answer {n : ℕ} {r : MemFetch ι} (core : Core τ ι)
    (hmem : n ∈ outstanding p r.customData) (hr : p.sent[n]? = some r) :
    (fun i => (outstanding p i).card - if r.customData = i then 1 else 0) =
      fun i => (outstanding { p with core := core, answered := insert n p.answered } i).card := by
  have hanswer : ∀ i, outstanding { p with core := core, answered := insert n p.answered } i =
      (outstanding p i).erase n := outstanding_answer rfl rfl
  funext i
  rw [hanswer]
  by_cases hi : r.customData = i
  · subst hi
    rw [if_pos rfl, Finset.card_erase_of_mem hmem]
  · have hother : n ∉ outstanding p i := by
      intro h
      have hcustom := (mem_outstanding.mp h).2.2
      rw [hr] at hcustom
      exact hi (Option.some.inj hcustom)
    rw [if_neg hi, Finset.erase_eq_of_notMem hother]
    rfl

namespace PathInv

omit [DecidableEq τ] in
/-- What is outstanding of an instruction when the caches took one of its requests and not
another one. -/
theorem two_outstanding {n : ℕ} (hn : n ∈ outstanding p i) (htaken : n ∈ p.taken)
    (hun : Untaken p i) : 1 < (outstanding p i).card := by
  obtain ⟨m, hm, hnot⟩ := hun
  refine Finset.one_lt_card.mpr ⟨n, hn, m, hm, ?_⟩
  rintro rfl
  exact hnot htaken

omit [DecidableEq τ] in
/-- A legal reply is to an outstanding request. -/
theorem answer_outstanding {n : ℕ} {r : MemFetch ι} (hnew : n ∉ p.answered)
    (hr : p.sent[n]? = some r) : n ∈ outstanding p r.customData := by
  refine mem_outstanding.mpr ⟨(List.getElem?_eq_some_iff.mp hr).1, hnew, ?_⟩
  rw [hr]
  rfl

omit [DecidableEq τ] in
/-- Before the first tile. -/
theorem init (hP : ∀ i, (P.heap.inst i).opcode = .movin ∨ (P.heap.inst i).opcode = .movout →
    ∀ n ∈ (P.heap.inst i).tileSize, 0 < n) : PathInv P (CorePath.init P) := by
  have hnone : ∀ i, outstanding (CorePath.init P) i = ∅ := fun i => rfl
  refine ⟨.init P, ?_, ⟨fun i hi => ?_⟩, fun n hn => absurd hn (Finset.notMem_empty n),
    fun n hn => absurd hn (Finset.notMem_empty n)⟩
  · have hledger := DmaInv.init hP
    exact hledger.setLate fun i ⟨n, hn, _⟩ => absurd hn (Finset.notMem_empty n)
  · rcases hi with ⟨-, hi⟩ | ⟨-, -, _, hi⟩ <;> cases hi

/-- A step keeps the invariant. -/
theorem step {a : PathAction τ} (hI : PathInv P p) (ha : CorePath.Legal p a)
    (h : CorePath.step cfg p a = .ok p') : PathInv P p' := by
  have hlt : ∀ n ∈ p.answered, n < p.sent.length := fun n hn => hI.taken n (hI.answered n hn)
  cases a with
  | issue t =>
      cases h
      have hstep : OuterStep p.core (p.core.issue t) := .issue _ t ha
      exact ⟨hstep.inv hI.core, hI.ledger.issue t, hI.carried.issue t, hI.answered, hI.taken⟩
  | popFinishedTile =>
      cases h
      have hstep : OuterStep p.core p.core.popFinishedTile.2 := .popFinishedTile _
      exact ⟨hstep.inv hI.core, hI.ledger.popFinishedTile, hI.carried.popFinishedTile, hI.answered,
        hI.taken⟩
  | coreCycle env taken =>
      obtain ⟨core, hcycle, h⟩ := bind_eq_ok.mp h
      cases h
      have hout : Outcome (CycleStep cfg) StopsWith p.core id (p.core.cycle cfg env) :=
        cycle_outcome hI.core
      rw [hcycle] at hout
      obtain ⟨hcore, -, hcarried⟩ := Outcome.invariant
        (I := fun c => CoreInv P c ∧ DmaInv c (fun i => (outstanding p i).card) (Untaken p) ∧
          Carried P c)
        (fun c c' hc hstep => ⟨cycle_keeps cfg P c c' hc.1 hstep, hstep.dma hc.1 hc.2.1,
          hstep.carried hc.1 hc.2.1 hc.2.2⟩) hout ⟨hI.core, hI.ledger, hI.carried⟩
      have hledger := cycle_ledger hI.core hI.ledger hcycle
      have hsame : outstanding { p with core := core, taken := p.taken ∪ taken } =
          outstanding p := outstanding_congr rfl rfl
      refine ⟨hcore, ?_, hcarried, fun n hn => Finset.mem_union_left _ (hI.answered n hn),
        fun n hn => ?_⟩
      · rw [hsame]
        refine hledger.setLate fun i ⟨n, hn, _⟩ => Finset.card_pos.mpr ⟨n, ?_⟩
        rwa [hsame] at hn
      · rcases Finset.mem_union.mp hn with hn | hn
        · exact hI.taken n hn
        · exact ha n hn
  | popMemoryRequest =>
      dsimp only [CorePath.step] at h
      split at h
      · cases h
        exact hI
      · rename_i r rest hq
        cases h
        have hstep : OuterStep p.core { p.core with requestQueue := rest } :=
          .popMemoryRequest _ r rest hq
        have hsend : ∀ i, outstanding { p with
            core := { p.core with requestQueue := rest }, sent := p.sent ++ [r] } i =
              if r.customData = i then insert p.sent.length (outstanding p i)
              else outstanding p i := outstanding_send rfl rfl hlt
        refine ⟨hstep.inv hI.core, ?_, hI.carried.still rfl rfl fun _ => id, hI.answered,
          fun n hn => ?_⟩
        · have hledger := hI.ledger.popRequest hq
          have hcard := card_outstanding_send { p.core with requestQueue := rest } r hlt
          have hlate : (fun i => Untaken p i ∨ r.customData = i) = Untaken { p with
              core := { p.core with requestQueue := rest }, sent := p.sent ++ [r] } := by
            funext i
            unfold Untaken
            rw [hsend]
            have hnew : p.sent.length ∉ p.taken := fun h => Nat.lt_irrefl _ (hI.taken _ h)
            refine propext ⟨?_, ?_⟩
            · rintro (⟨n, hn, hntaken⟩ | hr)
              · refine ⟨n, ?_, hntaken⟩
                split
                · exact Finset.mem_insert_of_mem hn
                · exact hn
              · refine ⟨p.sent.length, ?_, hnew⟩
                rw [if_pos hr]
                exact Finset.mem_insert_self _ _
            · rintro ⟨n, hn, hntaken⟩
              split at hn
              · rename_i hr
                exact .inr hr
              · exact .inl ⟨n, hn, hntaken⟩
          rw [hcard, hlate] at hledger
          exact hledger
        · have hn' := hI.taken n hn
          show n < (p.sent ++ [r]).length
          rw [List.length_append]
          omega
  | pushMemoryResponse n =>
      obtain ⟨htaken, hnew⟩ := ha
      dsimp only [CorePath.step] at h
      split at h
      · cases h
        exact hI
      · rename_i r hr
        cases h
        have hmem := answer_outstanding hnew hr
        have hout : 0 < (outstanding p r.customData).card := Finset.card_pos.mpr ⟨n, hmem⟩
        have hanswer : ∀ i, outstanding { p with
            core := p.core.pushMemoryResponse r, answered := insert n p.answered } i =
              (outstanding p i).erase n := outstanding_answer rfl rfl
        refine ⟨hI.core.response r, ?_, hI.carried.response hI.ledger hout, fun m hm => ?_,
          hI.taken⟩
        · have hledger := hI.ledger.response hI.core hout (two_outstanding hmem htaken)
          have hcard := card_outstanding_answer (p.core.pushMemoryResponse r) hmem hr
          have hlate : Untaken p = Untaken { p with
              core := p.core.pushMemoryResponse r, answered := insert n p.answered } := by
            funext i
            unfold Untaken
            rw [hanswer]
            refine propext ⟨?_, ?_⟩
            · rintro ⟨m, hm, hmtaken⟩
              refine ⟨m, Finset.mem_erase.mpr ⟨?_, hm⟩, hmtaken⟩
              rintro rfl
              exact hmtaken htaken
            · rintro ⟨m, hm, hmtaken⟩
              exact ⟨m, Finset.mem_of_mem_erase hm, hmtaken⟩
          rw [hcard, hlate] at hledger
          exact hledger
        · rcases Finset.mem_insert.mp hm with rfl | hm
          · exact htaken
          · exact hI.answered m hm

/-- The invariant holds in every state that a core and its requests reach. -/
theorem of_reach (hP : ∀ i, (P.heap.inst i).opcode = .movin ∨ (P.heap.inst i).opcode = .movout →
      ∀ n ∈ (P.heap.inst i).tileSize, 0 < n)
    (h : Reach (CorePath.step cfg) CorePath.Legal (CorePath.init P) p) : PathInv P p :=
  h.invariant (.init hP) fun _ _ _ _ hI ha hok => hI.step ha hok

end PathInv

/-- The bookkeeping of the DMA engine is exact: a load or store that needs the engine is in one
of its queues, once, until it is retired; the count of an instruction is that of its requests;
an instruction in the list of waiting ones waits for one; and the reply that brings the count
to zero finds its instruction in this list and moves it to the queue of finished ones. -/
structure DmaExact (P : TileProgram τ ι) (p : CorePath τ ι) : Prop where
  placed : ∀ i, NeedsData P p.core.events i →
    p.core.transit.count i = 1 ∨ (p.core.transit.count i = 0 ∧ Retired P p.core i)
  counted : ∀ i, (p.core.heap.inst i).nrWaitingRequest =
    unsent p.core i + (outstanding p i).card
  waiting : ∀ i ∈ p.core.dmaWaitingQueue,
    (∃ r ∈ p.core.requestQueue, r.customData = i) ∨ (outstanding p i).Nonempty
  found : ∀ n r, CorePath.Legal p (.pushMemoryResponse n) → p.sent[n]? = some r →
    (p.core.heap.inst r.customData).decWaitingRequest = 0 →
    r.customData ∈ p.core.dmaWaitingQueue ∧
      r.customData ∉ (p.core.pushMemoryResponse r).dmaWaitingQueue ∧
      r.customData ∈ (p.core.pushMemoryResponse r).dmaFinishedQueue

omit [DecidableEq τ] in
theorem PathInv.exact (hI : PathInv P p) : DmaExact P p := by
  refine ⟨fun i hi => ?_, hI.ledger.count, fun i hi => ?_, fun n r hlegal hr hzero => ?_⟩
  · by_cases htransit : i ∈ p.core.transit
    · exact .inl (List.count_eq_one_of_mem hI.core.transit_nodup htransit)
    · refine .inr ⟨List.count_eq_zero.mpr htransit, ?_⟩
      exact (hI.carried.placed i hi).resolve_left htransit
  · have hpos := hI.ledger.waiting i hi
    have hcount := hI.ledger.count i
    have hpending : p.core.dma.pendingAccesses.countP (·.customData = i) = 0 := by
      refine List.countP_eq_zero.mpr fun r hr => ?_
      rw [decide_eq_true_eq]
      rintro rfl
      exact hI.core.not_waiting (hI.ledger.current r hr) hi
    unfold unsent at hcount
    by_cases hout : (outstanding p i).Nonempty
    · exact .inr hout
    · rw [Finset.not_nonempty_iff_eq_empty.mp hout, Finset.card_empty] at hcount
      have hqueue : 0 < p.core.requestQueue.countP (·.customData = i) := by omega
      obtain ⟨r, hr, hri⟩ := List.countP_pos_iff.mp hqueue
      exact .inl ⟨r, hr, of_decide_eq_true hri⟩
  · obtain ⟨htaken, hnew⟩ := hlegal
    have hmem := PathInv.answer_outstanding hnew hr
    have hwait := hI.ledger.response_found (Finset.card_pos.mpr ⟨n, hmem⟩)
      (PathInv.two_outstanding hmem htaken) hzero
    have hnodup : p.core.dmaWaitingQueue.Nodup := hI.core.placement.exclusive.nodup .waiting
    refine ⟨hwait, ?_, ?_⟩
    · unfold Core.pushMemoryResponse
      dsimp only
      rw [if_pos ⟨hzero, hwait⟩]
      exact hnodup.not_mem_erase
    · unfold Core.pushMemoryResponse
      dsimp only
      rw [if_pos ⟨hzero, hwait⟩]
      exact List.mem_append_right _ List.mem_cons_self

/-! ## The cores of a simulator -/

section Follow

variable {scfg : SimulationConfig} {plans : ℕ → TilePlan τ ι}
  {s s' : Simulator (Core τ ι) τ ι} {core : ℕ}

/-- A cycle of the caches took the request. -/
def PastCache : Station → Access ι → Prop
  | .cache _, _ => True
  | .channel _, _ => True
  | .fromCrossbar _, _ => False
  | _, a => Inbound a

/-- A core of the simulator and its requests. -/
structure Follows (P : TileProgram τ ι) (scfg : SimulationConfig) (core : ℕ)
    (s : Simulator (Core τ ι) τ ι) (p : CorePath τ ι) : Prop where
  reach : Reach (CorePath.step scfg.coreConfig) CorePath.Legal (CorePath.init P) p
  state : p.core = s.cores core
  sent : p.sent = s.sent core
  answered : ∀ n, n ∈ p.answered ↔ ∃ a ∈ s.returned core, a.requestId = n
  taken : ∀ st, ∀ a ∈ stationed s st, a.coreId = core → PastCache st a → a.requestId ∈ p.taken

/-- A core of the simulator runs like one with any memory behind it. -/
def Followed (P : TileProgram τ ι) (scfg : SimulationConfig) (core : ℕ)
    (s : Simulator (Core τ ι) τ ι) : Prop := ∃ p, Follows P scfg core s p

/-- The caches may take every request that left the core. -/
def Served (P : TileProgram τ ι) (scfg : SimulationConfig) (core : ℕ)
    (s : Simulator (Core τ ι) τ ι) : Prop :=
  ∃ p, Follows P scfg core s p ∧ ∀ n < p.sent.length, n ∈ p.taken

omit [DecidableEq τ] [DecidableEq ι] in
/-- Only a cycle of the caches takes a request. -/
theorem past_of_move {st st' : Station} {a e : Access ι} (hmove : StationMove s s' st st' a e)
    (hfits : Fits scfg st a) (hcache : ∀ ch, st ≠ .fromCrossbar ch) (h : PastCache st' e) :
    PastCache st a := by
  obtain ⟨hroute, -, -, -, hsame⟩ := hmove
  cases hroute with
  | deliver src dest =>
      rcases hsame with rfl | ⟨_, hq, -⟩
      · exact h
      · cases hq
  | toMemory nid ch => exact h.elim
  | noL2 ch => exact absurd rfl (hcache ch)
  | enter ch => trivial
  | reply ch => trivial
  | fromMemory ch src dest => exact hfits
  | receive nid k =>
      rcases hsame with rfl | ⟨_, hq, -⟩
      · exact h
      · cases hq

/-- The queues to the caches only grow between two cycles of the caches. -/
theorem SimStep.fromCrossbar (h : SimStep (Core.interface scfg.coreConfig) scfg s s') (ch : ℕ) :
    stationed s (.fromCrossbar ch) <+: stationed s' (.fromCrossbar ch) := by
  cases h with
  | dramAdmit c =>
      show s.dram.fromCrossbarQueue ch <+: (s.dram.fromCache c).fromCrossbarQueue ch
      unfold SimpleDRAM.fromCache
      split
      · exact List.prefix_refl _
      · split
        · exact List.prefix_refl _
        · exact List.prefix_refl _
  | dramReply c =>
      show s.dram.fromCrossbarQueue ch <+: (s.dram.toCache c).fromCrossbarQueue ch
      unfold SimpleDRAM.toCache
      split
      · split
        · exact List.prefix_refl _
        · exact List.prefix_refl _
      · exact List.prefix_refl _
  | toMemory mem a rest _ _ =>
      show s.dram.fromCrossbarQueue ch <+:
        Function.update s.dram.fromCrossbarQueue mem (s.dram.fromCrossbarQueue mem ++ [a]) ch
      by_cases hch : ch = mem
      · subst hch
        rw [Function.update_self]
        exact List.prefix_append _ _
      · rw [Function.update_of_ne hch]
  | _ => exact List.prefix_refl _

omit [DecidableEq τ] [DecidableEq ι] in
/-- A request that a move of the simulator finds past the caches was past them before. -/
theorem past_back {st : Station} {b : Access ι} (h : TrafficStep scfg s s')
    (hR : RequestInv scfg s)
    (hcache : ∀ ch, stationed s (.fromCrossbar ch) <+: stationed s' (.fromCrossbar ch))
    (hb : b ∈ stationed s' st) (hpast : PastCache st b) :
    ∃ st' a, a ∈ stationed s st' ∧ PastCache st' a ∧ a.coreId = b.coreId ∧
      a.requestId = b.requestId := by
  cases h with
  | rest _ _ hstations =>
      rw [hstations] at hb
      exact ⟨st, b, hb, hpast, rfl, rfl⟩
  | move p q a e _ _ hmove _ =>
      rcases hmove.mem hb with hold | ⟨rfl, rfl⟩
      · exact ⟨st, b, hold, hpast, rfl, rfl⟩
      · have hfront : ∀ ch, p ≠ .fromCrossbar ch := by
          rintro ch rfl
          have hle := (hcache ch).length_le
          rw [hmove.front, List.length_cons] at hle
          omega
        exact ⟨p, a, hmove.mem_front,
          past_of_move hmove (hR.traffic.fits p a hmove.mem_front) hfront hpast,
          hmove.coreId.symm, hmove.requestId.symm⟩
  | send k src dest r _ _ _ _ hback hother =>
      by_cases hst : st = .inBuffer src dest
      · subst hst
        rw [hback, List.mem_append, List.mem_singleton] at hb
        rcases hb with hb | rfl
        · exact ⟨_, b, hb, hpast, rfl, rfl⟩
        · have hreply : MfType.request r.isWrite = MfType.reply r.isWrite := hpast.1
          cases hw : r.isWrite <;> rw [hw] at hreply <;> cases hreply
      · rw [hother st hst] at hb
        exact ⟨st, b, hb, hpast, rfl, rfl⟩

namespace Follows

variable {p p' : CorePath τ ι}

/-- The core and what it has sent and got back stay as they are. -/
theorem congr (hF : Follows P scfg core s p) (hcore : s'.cores core = s.cores core)
    (hsent : s'.sent core = s.sent core) (hreturned : s'.returned core = s.returned core)
    (htaken : ∀ st, ∀ a ∈ stationed s' st, a.coreId = core → PastCache st a →
      a.requestId ∈ p.taken) : Follows P scfg core s' p := by
  refine ⟨hF.reach, hF.state.trans hcore.symm, hF.sent.trans hsent.symm, fun n => ?_, htaken⟩
  rw [hreturned]
  exact hF.answered n

/-- The core moves, and no request of it goes on. -/
theorem act {a : PathAction τ} (hF : Follows P scfg core s p) (ha : CorePath.Legal p a)
    (hstep : CorePath.step scfg.coreConfig p a = .ok p') (hcore : p'.core = s'.cores core)
    (hsent : p'.sent = s'.sent core) (hanswered : p'.answered = p.answered)
    (hreturned : s'.returned core = s.returned core)
    (htaken : ∀ st, ∀ a ∈ stationed s' st, a.coreId = core → PastCache st a →
      a.requestId ∈ p'.taken) : Follows P scfg core s' p' := by
  refine ⟨hF.reach.step a ha hstep, hcore, hsent, fun n => ?_, htaken⟩
  rw [hanswered, hreturned]
  exact hF.answered n

/-- A move without the caches takes no request. -/
theorem past (hF : Follows P scfg core s p) (h : TrafficStep scfg s s') (hR : RequestInv scfg s)
    (hcache : ∀ ch, stationed s (.fromCrossbar ch) <+: stationed s' (.fromCrossbar ch)) :
    ∀ st, ∀ a ∈ stationed s' st, a.coreId = core → PastCache st a → a.requestId ∈ p.taken := by
  intro st b hb hcore hpast
  obtain ⟨st', a, ha, hpast', hcoreId, hid⟩ := past_back h hR hcache hb hpast
  rw [← hid]
  exact hF.taken st' a ha (hcoreId.trans hcore) hpast'

end Follows

/-- Every move of the simulator is one of the core, or leaves it as it is. -/
theorem SimStep.follow {p : CorePath τ ι}
    (h : SimStep (Core.interface scfg.coreConfig) scfg s s') (hT : TilesInv P plans scfg s)
    (hR : RequestInv scfg s) (hF : Follows P scfg core s p) :
    ∃ p', Follows P scfg core s' p' ∧ ∀ n ∈ p.taken, n ∈ p'.taken := by
  have hpast := hF.past (h.traffic hR) hR h.fromCrossbar
  cases h with
  | slot n => exact ⟨p, hF.congr rfl rfl rfl hpast, fun _ => id⟩
  | launch q d _ => exact ⟨p, hF.congr rfl rfl rfl hpast, fun _ => id⟩
  | peek k slot tie => exact ⟨p, hF.congr rfl rfl rfl hpast, fun _ => id⟩
  | issue k slot tie t u shown taken hpeek _ _ hget =>
      by_cases hk : k = core
      · subst hk
        have hlegal : u ∉ p.core.issuedTiles := by
          rw [hF.state]
          exact (hT.issue hpeek hget).1
        refine ⟨{ p with core := p.core.issue u }, hF.act (a := .issue u) hlegal rfl ?_ hF.sent
          rfl rfl hpast, fun _ => id⟩
        show p.core.issue u = Function.update s.cores k _ k
        rw [Function.update_self, hF.state]
        rfl
      · refine ⟨p, hF.congr ?_ rfl rfl hpast, fun _ => id⟩
        exact Function.update_of_ne (Ne.symm hk) ..
  | popTile k _ =>
      by_cases hk : k = core
      · subst hk
        refine ⟨{ p with core := p.core.popFinishedTile.2 },
          hF.act (a := .popFinishedTile) trivial rfl ?_ hF.sent rfl rfl hpast, fun _ => id⟩
        show p.core.popFinishedTile.2 = Function.update s.cores k _ k
        rw [Function.update_self, hF.state]
        rfl
      · refine ⟨p, hF.congr ?_ rfl rfl hpast, fun _ => id⟩
        exact Function.update_of_ne (Ne.symm hk) ..
  | report k t taken _ _ =>
      by_cases hk : k = core
      · subst hk
        refine ⟨{ p with core := p.core.popFinishedTile.2 },
          hF.act (a := .popFinishedTile) trivial rfl ?_ hF.sent rfl rfl hpast, fun _ => id⟩
        show p.core.popFinishedTile.2 = Function.update s.cores k _ k
        rw [Function.update_self, hF.state]
        rfl
      · refine ⟨p, hF.congr ?_ rfl rfl hpast, fun _ => id⟩
        exact Function.update_of_ne (Ne.symm hk) ..
  | cycle k e c hcycle =>
      by_cases hk : k = core
      · subst hk
        have hstep : CorePath.step scfg.coreConfig p (.coreCycle e ∅) =
            .ok { p with core := c, taken := p.taken ∪ ∅ } := by
          have hcycle' : p.core.cycle scfg.coreConfig e = .ok c := by
            rw [hF.state]
            exact hcycle
          show (p.core.cycle scfg.coreConfig e >>= _) = _
          rw [hcycle']
          rfl
        refine ⟨_, hF.act (a := .coreCycle e ∅)
          (fun n hn => absurd hn (Finset.notMem_empty n)) hstep ?_ hF.sent rfl rfl fun st a ha hc hp =>
            Finset.mem_union_left _ (hpast st a ha hc hp), fun n => Finset.mem_union_left _⟩
        show c = Function.update s.cores k c k
        rw [Function.update_self]
      · refine ⟨p, hF.congr ?_ rfl rfl hpast, fun _ => id⟩
        exact Function.update_of_ne (Ne.symm hk) ..
  | dramTick ch => exact ⟨p, hF.congr rfl rfl rfl hpast, fun _ => id⟩
  | dramAdmit ch => exact ⟨p, hF.congr rfl rfl rfl hpast, fun _ => id⟩
  | dramReply ch => exact ⟨p, hF.congr rfl rfl rfl hpast, fun _ => id⟩
  | send k noc dest r rest icnt _ _ _ hq _ _ =>
      by_cases hk : k = core
      · subst hk
        have hq' : p.core.requestQueue = r :: rest := by
          rw [hF.state]
          exact hq
        have hstep : CorePath.step scfg.coreConfig p .popMemoryRequest =
            .ok { p with core := { p.core with requestQueue := rest }, sent := p.sent ++ [r] } := by
          dsimp only [CorePath.step]
          rw [hq']
        refine ⟨_, hF.act (a := .popMemoryRequest) trivial hstep ?_ ?_ rfl rfl hpast,
          fun _ => id⟩
        · show { p.core with requestQueue := rest } = Function.update s.cores k _ k
          rw [Function.update_self, ← hF.state]
          show _ = { p.core with requestQueue := p.core.requestQueue.tail }
          rw [hq']
          rfl
        · show p.sent ++ [r] = Function.update s.sent k _ k
          rw [Function.update_self, hF.sent]
      · refine ⟨p, hF.congr ?_ ?_ rfl hpast, fun _ => id⟩
        · exact Function.update_of_ne (Ne.symm hk) ..
        · exact Function.update_of_ne (Ne.symm hk) ..
  | receive k noc a rest hcore hnoc hq =>
      by_cases hk : k = core
      · subst hk
        have hmem : a ∈ stationed s (.outBuffer (k * scfg.icntInjectionPortsPerCore + noc)) := by
          show a ∈ s.icnt.outBuffers _
          rw [hq]
          exact List.mem_cons_self
        obtain ⟨hin, hcoreId⟩ := RequestInv.at_port hcore hnoc (hR.traffic.routed _ a hmem)
          (hR.traffic.fits _ a hmem)
        have hsent := hR.traffic.sent _ a hmem
        rw [hcoreId, ← hF.sent] at hsent
        have hnew : a.requestId ∉ p.answered := by
          intro h
          obtain ⟨b, hb, hid⟩ := (hF.answered _).mp h
          have hreturned : b ∈ stationed s (.returned k) := hb
          have hbcore : b.coreId = k := (hR.traffic.fits _ b hreturned).2
          have hkey : b.key = a.key := by rw [Access.key, Access.key, hbcore, hcoreId, hid]
          have hmine : b.key ∈ (stationed s (.returned k)).map Access.key :=
            List.mem_map_of_mem hreturned
          rw [hkey] at hmine
          cases hR.traffic.exclusive.unique _ _ _ hmine (List.mem_map_of_mem hmem)
        have hstep : CorePath.step scfg.coreConfig p (.pushMemoryResponse a.requestId) =
            .ok { p with
              core := p.core.pushMemoryResponse a.fetch
              answered := insert a.requestId p.answered } := by
          dsimp only [CorePath.step]
          rw [hsent]
        refine ⟨_, ⟨hF.reach.step (.pushMemoryResponse a.requestId)
          ⟨hF.taken _ a hmem hcoreId hin, hnew⟩ hstep, ?_, hF.sent, fun n => ?_, hpast⟩,
          fun _ => id⟩
        · show p.core.pushMemoryResponse a.fetch = Function.update s.cores k _ k
          rw [Function.update_self, hF.state]
          rfl
        · show n ∈ insert a.requestId p.answered ↔
            ∃ b ∈ Function.update s.returned k (s.returned k ++ [a]) k, b.requestId = n
          rw [Function.update_self, Finset.mem_insert, hF.answered]
          constructor
          · rintro (rfl | ⟨b, hb, hid⟩)
            · exact ⟨a, List.mem_append_right _ List.mem_cons_self, rfl⟩
            · exact ⟨b, List.mem_append_left _ hb, hid⟩
          · rintro ⟨b, hb, hid⟩
            rcases List.mem_append.mp hb with hb | hb
            · exact .inr ⟨b, hb, hid⟩
            · rw [List.mem_singleton.mp hb] at hid
              exact .inl hid.symm
      · refine ⟨p, hF.congr ?_ rfl ?_ hpast, fun _ => id⟩
        · exact Function.update_of_ne (Ne.symm hk) ..
        · exact Function.update_of_ne (Ne.symm hk) ..
  | toMemory mem a rest _ _ => exact ⟨p, hF.congr rfl rfl rfl hpast, fun _ => id⟩
  | fromMemory mem dest a rest icnt _ _ _ _ => exact ⟨p, hF.congr rfl rfl rfl hpast, fun _ => id⟩
  | deliver dest => exact ⟨p, hF.congr rfl rfl rfl hpast, fun _ => id⟩
  | icntClock n => exact ⟨p, hF.congr rfl rfl rfl hpast, fun _ => id⟩

/-- A core has a cycle, after which the caches may take every request that left it. -/
theorem Follows.serve {p : CorePath τ ι} {e : CycleEnv} {c : Core τ ι}
    (hF : Follows P scfg core s p) (h : (s.cores core).cycle scfg.coreConfig e = .ok c) :
    Served P scfg core (s.setCore core c) := by
  have hstep : CorePath.step scfg.coreConfig p (.coreCycle e (Finset.range p.sent.length)) =
      .ok { p with core := c, taken := p.taken ∪ Finset.range p.sent.length } := by
    show (p.core.cycle scfg.coreConfig e >>= _) = _
    rw [hF.state, h]
    rfl
  refine ⟨_, hF.act (a := .coreCycle e (Finset.range p.sent.length))
    (fun n hn => Finset.mem_range.mp hn) hstep ?_ hF.sent rfl rfl
    fun st a ha hc hp => Finset.mem_union_left _ (hF.taken st a ha hc hp),
    fun n hn => Finset.mem_union_right _ (Finset.mem_range.mpr hn)⟩
  show c = Function.update s.cores core c core
  rw [Function.update_self]

/-- A move that sends no request of the core. -/
theorem SimStep.served (h : SimStep (Core.interface scfg.coreConfig) scfg s s')
    (hT : TilesInv P plans scfg s) (hR : RequestInv scfg s) (hsent : s'.sent = s.sent)
    (hS : Served P scfg core s) : Served P scfg core s' := by
  obtain ⟨p, hF, hall⟩ := hS
  obtain ⟨p', hF', htaken⟩ := h.follow hT hR hF
  refine ⟨p', hF', fun n hn => htaken n (hall n ?_)⟩
  rw [hF'.sent, hsent, ← hF.sent] at hn
  exact hn

/-- The caches take requests. -/
theorem CacheStep.served (h : CacheStep s s') (hR : RequestInv scfg s)
    (hS : Served P scfg core s) : Served P scfg core s' := by
  obtain ⟨p, hF, hall⟩ := hS
  have hsent : s'.sent core = s.sent core := by cases h <;> rfl
  have hcores : s'.cores core = s.cores core := by cases h <;> rfl
  have hreturned : s'.returned core = s.returned core := by cases h <;> rfl
  refine ⟨p, hF.congr hcores hsent hreturned fun st b hb hcore _ => hall _ ?_, hall⟩
  have hR' := h.requests hR
  have hget := hR'.traffic.sent st b hb
  rw [hcore, hsent, ← hF.sent] at hget
  exact (List.getElem?_eq_some_iff.mp hget).1

/-- What holds of a simulator between two moves. -/
structure RunInv (P : TileProgram τ ι) (plans : ℕ → TilePlan τ ι) (scfg : SimulationConfig)
    (core : ℕ) (s : Simulator (Core τ ι) τ ι) : Prop where
  tiles : TilesInv P plans scfg s
  requests : RequestInv scfg s
  followed : Followed P scfg core s

theorem SimStep.run (h : SimStep (Core.interface scfg.coreConfig) scfg s s')
    (hI : RunInv P plans scfg core s) : RunInv P plans scfg core s' := by
  obtain ⟨p, hF⟩ := hI.followed
  obtain ⟨p', hF', -⟩ := h.follow hI.tiles hI.requests hF
  exact ⟨h.tiles hI.tiles, h.requests hI.requests, p', hF'⟩

/-- A report is one move, and no request leaves a core. -/
theorem reportTile_move {k : ℕ}
    (h : Simulator.reportTile (Core.interface scfg.coreConfig) scfg k s = .ok s') :
    SimStep (Core.interface scfg.coreConfig) scfg s s' ∧ s'.sent = s.sent := by
  unfold Simulator.reportTile at h
  rcases hpop : (Core.interface scfg.coreConfig).popFinishedTile (s.cores k) with ⟨tile, c⟩
  have hc : c = ((Core.interface scfg.coreConfig).popFinishedTile (s.cores k)).2 := by rw [hpop]
  rw [hpop] at h
  cases tile with
  | none =>
      cases h
      refine ⟨?_, rfl⟩
      rw [hc]
      exact .popTile s k (by rw [hpop])
  | some t =>
      obtain ⟨q, hq, h⟩ := bind_eq_ok.mp h
      obtain rfl := schedulerOf_ok hq
      obtain ⟨sched, hsched, h⟩ := bind_eq_ok.mp h
      cases h
      refine ⟨?_, rfl⟩
      rw [hc]
      exact .report s k t sched (by rw [hpop]) (mapError_ok hsched)

/-- A core of the simulator has its turn. -/
theorem cycleCore_served {env : TickEnv CycleEnv} {k : ℕ} (hI : RunInv P plans scfg core s)
    (h : Simulator.cycleCore (Core.interface scfg.coreConfig) scfg env s k = .ok s') :
    RunInv P plans scfg core s' ∧ (k = core ∨ Served P scfg core s → Served P scfg core s') := by
  unfold Simulator.cycleCore at h
  obtain ⟨t, hreport, h⟩ := bind_eq_ok.mp h
  obtain ⟨c, hcycle, h⟩ := bind_eq_ok.mp h
  cases h
  obtain ⟨hmove, hsent⟩ := reportTile_move hreport
  have hI₁ : RunInv P plans scfg core t := hmove.run hI
  have hturn : SimStep (Core.interface scfg.coreConfig) scfg t (t.setCore k c) :=
    .cycle t k (env.core k) c (mapError_ok hcycle)
  refine ⟨hturn.run hI₁, ?_⟩
  rintro (rfl | hS)
  · obtain ⟨p, hF⟩ := hI₁.followed
    exact hF.serve (mapError_ok hcycle)
  · exact hturn.served hI₁.tiles hI₁.requests rfl
      (hmove.served hI.tiles hI.requests hsent hS)

/-- After all cores had their turn, the caches may take what a core has sent. -/
theorem cycleCores_served {env : TickEnv CycleEnv} (l : List ℕ)
    (hI : RunInv P plans scfg core s) (hl : core ∈ l ∨ Served P scfg core s)
    (h : l.foldlM (Simulator.cycleCore (Core.interface scfg.coreConfig) scfg env) s = .ok s') :
    RunInv P plans scfg core s' ∧ Served P scfg core s' := by
  induction l generalizing s with
  | nil =>
      cases h
      exact ⟨hI, hl.resolve_left List.not_mem_nil⟩
  | cons k l ih =>
      rw [List.foldlM_cons] at h
      obtain ⟨t, ht, h⟩ := bind_eq_ok.mp h
      obtain ⟨hI₁, hserved⟩ := cycleCore_served hI ht
      refine ih hI₁ ?_ h
      rcases hl with hl | hS
      · rcases List.mem_cons.mp hl with rfl | hl
        · exact .inr (hserved (.inl rfl))
        · exact .inl hl
      · exact .inr (hserved (.inr hS))

/-- A cycle of the cores and the caches. -/
theorem coreCycle_run {env : TickEnv CycleEnv} (hcore : core < scfg.numCores)
    (hI : RunInv P plans scfg core s)
    (h : Simulator.coreCycle (Core.interface scfg.coreConfig) scfg env s = .ok s') :
    RunInv P plans scfg core s' := by
  unfold Simulator.coreCycle at h
  obtain ⟨t, hissue, h⟩ := bind_eq_ok.mp h
  obtain ⟨u, hcycle, h⟩ := bind_eq_ok.mp h
  cases h
  have hout : Outcome (SimStep (Core.interface scfg.coreConfig) scfg) NodesExist s id
      (Simulator.issueTiles (Core.interface scfg.coreConfig) scfg env s) :=
    issueTiles_outcome hI.requests
  rw [hissue] at hout
  have hI₁ : RunInv P plans scfg core t := Outcome.invariant (fun _ _ hs hstep => hstep.run hs) hout hI
  obtain ⟨hI₂, hS⟩ := cycleCores_served _ hI₁ (.inl (List.mem_range.mpr hcore)) hcycle
  have hcaches : Relation.ReflTransGen CacheStep u
      { u with dram := u.dram.cacheCycle, coreCycles := u.coreCycles + 1 } :=
    (cacheCycle_steps u (List.range u.dram.nCh)).tail (.clock _ _)
  obtain ⟨⟨hT, hR⟩, p, hF, -⟩ := Outcome.invariant
    (I := fun v => (TilesInv P plans scfg v ∧ RequestInv scfg v) ∧ Served P scfg core v)
    (fun v w hv hstep => ⟨⟨CacheStep.tiles hstep hv.1.1, CacheStep.requests hstep hv.1.2⟩,
      CacheStep.served hstep hv.1.2 hv.2⟩) hcaches ⟨⟨hI₂.tiles, hI₂.requests⟩, hS⟩
  exact ⟨hT, hR, p, hF⟩

/-- An action of the simulator. -/
theorem simStep_run {a : SimAction CycleEnv} (hcore : core < scfg.numCores)
    (hI : RunInv P plans scfg core s)
    (h : Simulator.step (Core.interface scfg.coreConfig) scfg s a = .ok s') :
    RunInv P plans scfg core s' := by
  have hsteps : ∀ {u v : Simulator (Core τ ι) τ ι}, RunInv P plans scfg core u →
      Relation.ReflTransGen (SimStep (Core.interface scfg.coreConfig) scfg) u v →
      RunInv P plans scfg core v := fun hu huv =>
    Outcome.invariant (fun _ _ hs hstep => SimStep.run hstep hs) huv hu
  cases a with
  | enqueueGraph q =>
      dsimp only [Simulator.step] at h
      split at h
      · obtain ⟨d, hd, h⟩ := bind_eq_ok.mp h
        cases h
        exact SimStep.run (.launch s q d (mapError_ok hd)) hI
      · cases h
  | tick mask env =>
      obtain ⟨m, dram, icnt⟩ := mask
      -- what follows the cycle of the cores is a row of moves without the caches
      have hrest : ∀ t, RunInv P plans scfg core t →
          (if icnt then Simulator.icntCycle (Core.interface scfg.coreConfig) scfg
            (if dram then t.dramCycle else t) else pure (if dram then t.dramCycle else t)) = .ok s' →
          RunInv P plans scfg core s' := by
        intro t ht hok
        have hout : Outcome (SimStep (Core.interface scfg.coreConfig) scfg) NodesExist t id
            (if icnt then Simulator.icntCycle (Core.interface scfg.coreConfig) scfg
              (if dram then t.dramCycle else t) else pure (if dram then t.dramCycle else t)) :=
          memory_outcome ht.requests dram icnt
        rw [hok] at hout
        exact hsteps ht hout
      dsimp only [Simulator.step, Simulator.tick] at h
      cases m with
      | true =>
          obtain ⟨t, ht, h⟩ := bind_eq_ok.mp h
          exact hrest t (coreCycle_run hcore hI ht) h
      | false => exact hrest s hI h

/-- The invariant holds in every state a simulator reaches. -/
theorem runInv_of_reach (hcore : core < scfg.numCores)
    (h : Reach (Simulator.step (Core.interface scfg.coreConfig) scfg) (fun _ _ => True)
      (Simulator.init scfg (fun _ => { heap := P.heap }) plans) s) :
    RunInv P plans scfg core s := by
  refine h.invariant ⟨.init P plans scfg, .init scfg _ plans, CorePath.init P, .init, rfl, rfl,
    fun n => ?_, fun st a ha => ?_⟩ fun _ _ _ _ hI _ hok => simStep_run hcore hI hok
  · exact ⟨fun hn => absurd hn (Finset.notMem_empty n), fun ⟨_, hb, _⟩ => absurd hb List.not_mem_nil⟩
  · cases st <;> exact absurd ha List.not_mem_nil

end Follow

/-- **The DMA engine loses nothing.**  In every run of a core with any memory behind it that
takes requests in the cycles of the caches, for tiles with at least one element, the bookkeeping
is exact; and every core of a simulator runs like such a core, from the first cycle on, with the
requests that it sent and the replies that it got. -/
theorem dma_bookkeeping (P : TileProgram τ ι)
    (hsizes : ∀ i, (P.heap.inst i).opcode = .movin ∨ (P.heap.inst i).opcode = .movout →
      ∀ n ∈ (P.heap.inst i).tileSize, 0 < n) :
    (∀ cfg p, Reach (CorePath.step cfg) CorePath.Legal (CorePath.init P) p → DmaExact P p) ∧
      ∀ cfg (plans : ℕ → TilePlan τ ι) s,
        Reach (Simulator.step (Core.interface cfg.coreConfig) cfg) (fun _ _ => True)
          (Simulator.init cfg (fun _ => { heap := P.heap }) plans) s →
        ∀ core < cfg.numCores, ∃ p,
          Reach (CorePath.step cfg.coreConfig) CorePath.Legal (CorePath.init P) p ∧
            p.core = s.cores core ∧ p.sent = s.sent core ∧
              (∀ n, n ∈ p.answered ↔ ∃ a ∈ s.returned core, a.requestId = n) ∧ DmaExact P p := by
  have hexact : ∀ cfg p, Reach (CorePath.step cfg) CorePath.Legal (CorePath.init P) p →
      DmaExact P p := fun cfg p h => (PathInv.of_reach hsizes h).exact
  refine ⟨hexact, fun cfg plans s h core hcore => ?_⟩
  obtain ⟨p, hF⟩ := (runInv_of_reach hcore h).followed
  exact ⟨p, hF.reach, hF.state, hF.sent, hF.answered, hexact _ p hF.reach⟩

/-- The tile that loads one element: its load is issued, and when its request has come back it is
retired. -/
theorem dma_bookkeeping_oneLoad : ∃ s : Simulator (Core (Fin 1) (Fin 1)) (Fin 1) (Fin 1),
    (s.cores 0).transit = [] ∧ CoreEvent.tagRegistered 0 none ∈ (s.cores 0).events ∧
      Retired oneLoad (s.cores 0) 0 := by
  have hinit : Reach (Simulator.step (Core.interface smallConfig.coreConfig) smallConfig)
      (fun _ _ => True) (Simulator.init smallConfig (fun _ => { heap := oneLoad.heap })
        fun _ => oneLoadKernel) _ := .init
  obtain ⟨s, hreach, hrun⟩ := hinit.exists_of_foldlM
    (.enqueueGraph 0 :: List.replicate 9
      (.tick ⟨true, true, true⟩ { core := fun _ => {}, tie := fun _ _ => 0 }))
    (fun s => ((s.cores 0).transit, decide (CoreEvent.tagRegistered 0 none ∈ (s.cores 0).events)))
    (b := ([], true)) (by decide +kernel) fun _ _ _ => trivial
  obtain ⟨htransit, hevent⟩ := Prod.mk.inj hrun
  have hmem := of_decide_eq_true hevent
  obtain ⟨p, -, hcore, -, -, hexact⟩ :=
    (dma_bookkeeping oneLoad (by decide)).2 smallConfig _ s hreach 0 (by decide)
  rw [← hcore] at htransit hmem
  refine ⟨s, ?_⟩
  rw [← hcore]
  refine ⟨htransit, hmem, ?_⟩
  rcases hexact.placed 0 (.inr ⟨rfl, rfl, none, hmem⟩) with hone | ⟨-, hret⟩
  · rw [htransit] at hone
    cases hone
  · exact hret

end PyTorchSim.Analysis
