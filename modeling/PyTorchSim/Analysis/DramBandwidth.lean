import Mathlib.Algebra.Order.Archimedean.Basic
import Mathlib.Data.Rat.Floor
import Mathlib.Tactic.Linarith
import Mathlib.Tactic.Positivity
import PyTorchSim.Library.Runs
import PyTorchSim.Library.Views
import PyTorchSim.Model.SimpleDram

/-!
# The bandwidth of the simple DRAM

A channel pays for a request with its credit, which grows by the bytes of a cycle in every cycle.
The account balances: what was admitted and the credit together are the first credit and the
bytes of all cycles.  A window is bounded by its cycles and the credit at its start, and a channel
that has nothing to do saves credit without a bound.
-/

set_option autoImplicit false

namespace PyTorchSim.Analysis

open PyTorchSim.Library PyTorchSim.Model

variable {ι : Type}

/-- What a cycle makes of the queue toward the memory and the credit of a channel. -/
def channelStep {α : Type} (need bytes : ℚ) (v : List α × ℚ) : List α × ℚ :=
  if 0 < bytes then match v.1 with
    | [] => ([], v.2 + bytes)
    | req :: rest =>
      if v.2 + bytes < need then (req :: rest, v.2 + bytes) else (rest, v.2 + bytes - need)
  else (v.1.tail, v.2)

/-- The queue of a channel and its credit. -/
def channel (d : SimpleDRAM ι) (ch : ℕ) : List (Access ι) × ℚ := (d.caches ch, d.bwCreditBytes ch)

/-- The values that never change. -/
def dramFixed (d : SimpleDRAM ι) : ℕ × ℕ × ℕ × ℚ :=
  (d.nCh, d.latency, d.reqSize, d.bytesPerDramCycle)

/-- The turn of a channel in a cycle. -/
def channelTurn (d : SimpleDRAM ι) (ch : ℕ) : SimpleDRAM ι := ((d.tick ch).fromCache ch).toCache ch

theorem toCache_channel (d : SimpleDRAM ι) (i : ℕ) :
    channel (d.toCache i) = channel d ∧ dramFixed (d.toCache i) = dramFixed d := by
  unfold SimpleDRAM.toCache
  split
  · split <;> exact ⟨rfl, rfl⟩
  · exact ⟨rfl, rfl⟩

theorem channelTurn_frame (d : SimpleDRAM ι) {i j : ℕ} (h : j ≠ i) :
    channel (channelTurn d i) j = channel d j := by
  unfold channelTurn
  rw [(toCache_channel _ i).1]
  unfold SimpleDRAM.fromCache SimpleDRAM.tick channel
  dsimp only
  split
  · split <;> simp [Function.update_of_ne h]
  · split <;> split <;> simp [Function.update_of_ne h]

theorem fromCache_fixed (d : SimpleDRAM ι) (i : ℕ) : dramFixed (d.fromCache i) = dramFixed d := by
  unfold SimpleDRAM.fromCache
  split
  · rfl
  · split <;> rfl

theorem channelTurn_fixed (d : SimpleDRAM ι) (i : ℕ) :
    dramFixed (channelTurn d i) = dramFixed d := by
  unfold channelTurn
  rw [(toCache_channel _ i).2, fromCache_fixed]
  rfl

/-- The turn of a channel in its own view. -/
theorem channelTurn_self (d : SimpleDRAM ι) (i : ℕ) :
    channel (channelTurn d i) i = channelStep d.reqSize d.bytesPerDramCycle (channel d i) := by
  unfold channelTurn
  rw [(toCache_channel _ i).1]
  unfold SimpleDRAM.fromCache SimpleDRAM.tick SimpleDRAM.admits channel channelStep
  dsimp only
  by_cases hpos : 0 < d.bytesPerDramCycle
  · cases hqueue : d.caches i with
    | nil => simp [hqueue, hpos]
    | cons req rest =>
        by_cases hlt : d.bwCreditBytes i + d.bytesPerDramCycle < d.reqSize
        · simp [hpos, hlt, hqueue]
        · simp [hpos, hlt]
  · cases hqueue : d.caches i <;> simp [hqueue, hpos]

/-- The turns of a cycle do not touch each other. -/
theorem channelTurn_local : Local (channelTurn (ι := ι)) channel dramFixed where
  frame d _ _ h := channelTurn_frame d h
  fixed_eq := channelTurn_fixed
  congr d d' j hfixed hview := by
    simp only [dramFixed, Prod.mk.injEq] at hfixed
    rw [channelTurn_self, channelTurn_self, hview, hfixed.2.2.1, hfixed.2.2.2]

/-- **A cycle of the DRAM is one step of every channel.** -/
theorem channel_cycle (d : SimpleDRAM ι) {ch : ℕ} (hch : ch < d.nCh) :
    channel d.cycle ch = channelStep d.reqSize d.bytesPerDramCycle (channel d ch) := by
  have hview := channelTurn_local.view_foldl (List.nodup_range (n := d.nCh)) d ch
  rw [if_pos (List.mem_range.mpr hch), channelTurn_self] at hview
  exact hview

theorem dramFixed_cycle (d : SimpleDRAM ι) : dramFixed d.cycle = dramFixed d :=
  channelTurn_local.fixed_foldl (List.range d.nCh) d

/-- The cycles of the caches leave the credit as it is. -/
theorem cacheCycle_credit (d : SimpleDRAM ι) :
    dramFixed d.cacheCycle = dramFixed d ∧ d.cacheCycle.bwCreditBytes = d.bwCreditBytes := by
  unfold SimpleDRAM.cacheCycle
  induction List.range d.nCh generalizing d with
  | nil => exact ⟨rfl, rfl⟩
  | cons i l ih =>
      have hone : dramFixed (d.noL2Cycle i) = dramFixed d ∧
          (d.noL2Cycle i).bwCreditBytes = d.bwCreditBytes := by
        unfold SimpleDRAM.noL2Cycle
        split <;> exact ⟨rfl, rfl⟩
      rw [List.foldl_cons]
      exact ⟨(ih _).1.trans hone.1, (ih _).2.trans hone.2⟩

/-- A DRAM with the number of its cycles and the bytes that each channel has admitted. -/
structure DramRun (ι : Type) where
  dram : SimpleDRAM ι
  cycles : ℕ := 0
  admitted : ℕ → ℕ := fun _ => 0

/-- What happens to the DRAM.  With an L2 cache the queue toward the memory is whatever the cache
makes of it. -/
inductive DramAction (ι : Type)
  | push (cid : ℕ) (request : Access ι)
  | cacheCycle
  | cache (ch : ℕ) (queue : List (Access ι))
  | cycle
  | pop (cid : ℕ)

namespace DramRun

/-- The DRAM before the first cycle. -/
def init (ι : Type) (nCh latency reqSize : ℕ) (bytesPerDramCycle : ℚ) : DramRun ι where
  dram := {
    nCh := nCh, latency := latency, reqSize := reqSize, bytesPerDramCycle := bytesPerDramCycle }

/-- A channel admits the requests by which a cycle shortens the queue toward the memory. -/
def step (s : DramRun ι) : DramAction ι → Except SimFault (DramRun ι)
  | .push cid request => .ok { s with dram := s.dram.push cid request }
  | .cacheCycle => .ok { s with dram := s.dram.cacheCycle }
  | .cache ch queue => .ok { s with
      dram := { s.dram with caches := Function.update s.dram.caches ch queue } }
  | .cycle => .ok {
      dram := s.dram.cycle
      cycles := s.cycles + 1
      admitted := fun ch => s.admitted ch +
        ((s.dram.caches ch).length - (s.dram.cycle.caches ch).length) * s.dram.reqSize }
  | .pop cid => .ok { s with dram := s.dram.pop cid }

/-- The bytes of a window, at most the bytes of its cycles and two requests. -/
def WithinCap (s s' : DramRun ι) (ch : ℕ) : Prop :=
  (s'.admitted ch : ℚ) ≤ s.admitted ch + (s'.cycles - s.cycles : ℕ) * s.dram.bytesPerDramCycle +
    2 * s.dram.reqSize

/-- A call with the admission of a channel: the credit pays for what is admitted, and at most one
request is. -/
structure Paid (s s' : DramRun ι) (ch n : ℕ) : Prop where
  fixed : dramFixed s'.dram = dramFixed s.dram
  cycles_eq : s'.cycles = s.cycles + n
  account : s'.admitted ch + s'.dram.bwCreditBytes ch =
    s.admitted ch + s.dram.bwCreditBytes ch + n * s.dram.bytesPerDramCycle
  nonneg : 0 ≤ s.dram.bwCreditBytes ch → 0 ≤ s'.dram.bwCreditBytes ch
  admitted_le : s'.admitted ch ≤ s.admitted ch + n * s.dram.reqSize

variable {s s' s'' : DramRun ι} {ch m n : ℕ}

theorem Paid.refl (s : DramRun ι) (ch : ℕ) : Paid s s ch 0 where
  fixed := rfl
  cycles_eq := rfl
  account := by simp
  nonneg := id
  admitted_le := by simp

theorem Paid.trans (h : Paid s s' ch m) (h' : Paid s' s'' ch n) : Paid s s'' ch (m + n) := by
  have hfixed := h.fixed
  simp only [dramFixed, Prod.mk.injEq] at hfixed
  refine ⟨h'.fixed.trans h.fixed, ?_, ?_, fun hs => h'.nonneg (h.nonneg hs), ?_⟩
  · rw [h'.cycles_eq, h.cycles_eq, Nat.add_assoc]
  · have haccount := h'.account
    rw [h.account, hfixed.2.2.2] at haccount
    rw [haccount]
    push_cast
    ring
  · have hle := h'.admitted_le
    rw [hfixed.2.2.1] at hle
    have := h.admitted_le
    rw [Nat.add_mul]
    omega

/-- One step of a channel pays for what it admits. -/
theorem channelStep_paid {α : Type} (need : ℕ) {bytes : ℚ} (hpos : 0 < bytes)
    (v : List α × ℚ) :
    ((v.1.length - (channelStep need bytes v).1.length : ℕ) : ℚ) * need +
        (channelStep need bytes v).2 = v.2 + bytes ∧
      v.1.length - (channelStep need bytes v).1.length ≤ 1 ∧
      (0 ≤ v.2 → 0 ≤ (channelStep need bytes v).2) := by
  obtain ⟨queue, credit⟩ := v
  unfold channelStep
  rw [if_pos hpos]
  cases queue with
  | nil =>
      refine ⟨by simp, by simp, ?_⟩
      intro h
      dsimp only at h ⊢
      linarith
  | cons req rest =>
      dsimp only
      split
      · refine ⟨by simp, by simp, ?_⟩
        intro h
        dsimp only
        linarith
      · refine ⟨?_, by simp, ?_⟩
        · simp
        · intro _
          dsimp only
          linarith

/-- The cycle of a channel. -/
theorem paid_cycle (hpos : 0 < s.dram.bytesPerDramCycle) (hch : ch < s.dram.nCh)
    (hstep : s.step .cycle = .ok s') : Paid s s' ch 1 := by
  cases hstep
  have hview := channel_cycle s.dram hch
  obtain ⟨haccount, hone, hnonneg⟩ := channelStep_paid s.dram.reqSize hpos (channel s.dram ch)
  rw [← hview] at haccount hone hnonneg
  refine ⟨dramFixed_cycle _, rfl, ?_, hnonneg, ?_⟩
  · dsimp only [channel] at haccount ⊢
    push_cast at haccount ⊢
    linarith
  · dsimp only [channel] at hone ⊢
    have := Nat.mul_le_mul_right s.dram.reqSize hone
    omega

/-- Other calls leave the account as it is. -/
theorem paid_other {a : DramAction ι} (ha : a ≠ .cycle) (hstep : s.step a = .ok s') :
    Paid s s' ch 0 := by
  cases a with
  | cycle => exact absurd rfl ha
  | push cid request =>
      cases hstep
      exact ⟨rfl, rfl, by simp [SimpleDRAM.push], id, by simp⟩
  | cache ch' queue =>
      cases hstep
      exact ⟨rfl, rfl, by simp, id, by simp⟩
  | pop cid =>
      cases hstep
      exact ⟨rfl, rfl, by simp [SimpleDRAM.pop], id, by simp⟩
  | cacheCycle =>
      cases hstep
      obtain ⟨hfixed, hcredit⟩ := cacheCycle_credit s.dram
      refine ⟨hfixed, rfl, ?_, ?_, by simp⟩
      · simp [hcredit]
      · intro h
        rwa [hcredit]

/-- **The account of a window.** -/
theorem paid_of_reach {guard : DramRun ι → DramAction ι → Prop} (h : Reach step guard s s')
    (hpos : 0 < s.dram.bytesPerDramCycle) (hch : ch < s.dram.nCh) :
    ∃ n, Paid s s' ch n := by
  induction h with
  | init => exact ⟨0, Paid.refl s ch⟩
  | @step t t' a _ _ hstep ih =>
      obtain ⟨n, hn⟩ := ih
      have hfixed := hn.fixed
      simp only [dramFixed, Prod.mk.injEq] at hfixed
      by_cases ha : a = .cycle
      · subst ha
        have hcycle : Paid t t' ch 1 :=
          paid_cycle (by rwa [hfixed.2.2.2]) (by rwa [hfixed.1]) hstep
        exact ⟨_, hn.trans hcycle⟩
      · exact ⟨_, hn.trans (paid_other ha hstep)⟩

/-- A window is within the cap when little credit was saved before it. -/
theorem withinCap_of_credit {guard : DramRun ι → DramAction ι → Prop}
    (h : Reach step guard s s') (hpos : 0 < s.dram.bytesPerDramCycle) (hch : ch < s.dram.nCh)
    (hnonneg : 0 ≤ s.dram.bwCreditBytes ch)
    (hcredit : s.dram.bwCreditBytes ch ≤ 2 * s.dram.reqSize) : WithinCap s s' ch := by
  obtain ⟨n, hn⟩ := paid_of_reach h hpos hch
  have haccount := hn.account
  have hend := hn.nonneg hnonneg
  unfold WithinCap
  rw [hn.cycles_eq, Nat.add_sub_cancel_left]
  linarith

/-- It is within the cap, too, when a cycle pays for a request. -/
theorem withinCap_of_le {guard : DramRun ι → DramAction ι → Prop}
    (h : Reach step guard s s') (hpos : 0 < s.dram.bytesPerDramCycle) (hch : ch < s.dram.nCh)
    (hle : (s.dram.reqSize : ℚ) ≤ s.dram.bytesPerDramCycle) : WithinCap s s' ch := by
  obtain ⟨n, hn⟩ := paid_of_reach h hpos hch
  have hadmitted : (s'.admitted ch : ℚ) ≤ s.admitted ch + n * s.dram.reqSize := by
    exact_mod_cast hn.admitted_le
  have hmul : (n : ℚ) * s.dram.reqSize ≤ n * s.dram.bytesPerDramCycle := by gcongr
  unfold WithinCap
  rw [hn.cycles_eq, Nat.add_sub_cancel_left]
  have htwo : (0 : ℚ) ≤ 2 * s.dram.reqSize := by positivity
  linarith

/-- A channel that has nothing to do saves the bytes of every cycle. -/
theorem exists_idle (s : DramRun ι)
    (hpos : 0 < s.dram.bytesPerDramCycle) (hch : ch < s.dram.nCh)
    (hidle : s.dram.caches ch = []) (k : ℕ) :
    ∃ s', Reach step (fun _ _ => True) s s' ∧ Paid s s' ch k ∧ s'.dram.caches ch = [] ∧
      s'.dram.bwCreditBytes ch = s.dram.bwCreditBytes ch + k * s.dram.bytesPerDramCycle := by
  induction k with
  | zero => exact ⟨s, .init, Paid.refl s ch, hidle, by simp⟩
  | succ k ih =>
      obtain ⟨t, hreach, hpaid, hempty, hcredit⟩ := ih
      have hfixed := hpaid.fixed
      simp only [dramFixed, Prod.mk.injEq] at hfixed
      obtain ⟨t', hstep⟩ : ∃ t', t.step .cycle = .ok t' := ⟨_, rfl⟩
      have hch' : ch < t.dram.nCh := by rwa [hfixed.1]
      have hcycle := paid_cycle (by rwa [hfixed.2.2.2]) hch' hstep
      refine ⟨t', hreach.step _ trivial hstep, hpaid.trans hcycle, ?_⟩
      cases hstep
      have hview := channel_cycle t.dram hch'
      rw [hfixed.2.2.2] at hview
      simp only [channel, channelStep, hempty, if_pos hpos, Prod.mk.injEq] at hview
      refine ⟨hview.1, ?_⟩
      rw [hview.2, hcredit]
      push_cast
      ring

/-- With enough credit a cycle admits a request, cycle after cycle. -/
theorem exists_burst (s : DramRun ι)
    (hpos : 0 < s.dram.bytesPerDramCycle) (hch : ch < s.dram.nCh) (m : ℕ)
    (hlength : m ≤ (s.dram.caches ch).length)
    (hcredit : (m : ℚ) * s.dram.reqSize ≤ s.dram.bwCreditBytes ch) :
    ∃ s', Reach step (fun _ _ => True) s s' ∧ Paid s s' ch m ∧
      s'.admitted ch = s.admitted ch + m * s.dram.reqSize := by
  induction m generalizing s with
  | zero => exact ⟨s, .init, Paid.refl s ch, by simp⟩
  | succ m ih =>
      obtain ⟨t, hstep⟩ : ∃ t, s.step .cycle = .ok t := ⟨_, rfl⟩
      have hcycle := paid_cycle hpos hch hstep
      have hfixed := hcycle.fixed
      simp only [dramFixed, Prod.mk.injEq] at hfixed
      have hview := channel_cycle s.dram hch
      push_cast at hcredit
      have hneed : ¬ s.dram.bwCreditBytes ch + s.dram.bytesPerDramCycle < s.dram.reqSize := by
        have hm : (0 : ℚ) ≤ m * s.dram.reqSize := by positivity
        rw [not_lt]
        linarith
      cases hqueue : s.dram.caches ch with
      | nil => simp [hqueue] at hlength
      | cons req rest =>
          simp only [channel, channelStep, hqueue, if_pos hpos, if_neg hneed,
            Prod.mk.injEq] at hview
          have hcaches : t.dram.caches ch = rest := by
            cases hstep
            exact hview.1
          have hleft : t.dram.bwCreditBytes ch =
              s.dram.bwCreditBytes ch + s.dram.bytesPerDramCycle - s.dram.reqSize := by
            cases hstep
            exact hview.2
          have hone : t.admitted ch = s.admitted ch + s.dram.reqSize := by
            cases hstep
            simp [hview.1, hqueue]
          obtain ⟨s', hreach, hpaid, hadmitted⟩ := ih t (by rwa [hfixed.2.2.2])
            (by rwa [hfixed.1]) (by rw [hcaches]; simpa [hqueue] using hlength)
            (by rw [hleft, hfixed.2.2.1]; linarith)
          refine ⟨s', (Reach.init.step _ trivial hstep).trans hreach,
            Nat.add_comm 1 m ▸ hcycle.trans hpaid, ?_⟩
          rw [hadmitted, hone, hfixed.2.2.1, Nat.succ_mul]
          omega

/-- A channel whose cycles do not pay for a request goes beyond the cap after a long rest. -/
theorem exists_not_withinCap {nCh reqSize : ℕ} {bytes : ℚ} (hpos : 0 < bytes)
    (hch : ch < nCh) (latency : ℕ) (req : Access ι) (hlt : bytes < reqSize) :
    ∃ s s', Reach step (fun _ _ => True) (init ι nCh latency reqSize bytes) s ∧
      Reach step (fun _ _ => True) s s' ∧ ¬ WithinCap s s' ch := by
  have hdiff : (0 : ℚ) < reqSize - bytes := by linarith
  obtain ⟨m, hm⟩ := exists_nat_gt (2 * (reqSize : ℚ) / (reqSize - bytes))
  obtain ⟨k, hk⟩ := exists_nat_gt ((m : ℚ) * reqSize / bytes)
  rw [div_lt_iff₀ hdiff] at hm
  rw [div_lt_iff₀ hpos] at hk
  obtain ⟨s, hreach, hpaid, -, hcredit⟩ := exists_idle
    (init ι nCh latency reqSize bytes) hpos hch rfl k
  have hfixed := hpaid.fixed
  simp only [dramFixed, Prod.mk.injEq] at hfixed
  -- The queue of the channel fills, and the saved credit is spent.
  obtain ⟨t, hfill⟩ : ∃ t, s.step (.cache ch (List.replicate m req)) = .ok t := ⟨_, rfl⟩
  have htcredit : t.dram.bwCreditBytes ch = 2 * reqSize + k * bytes := by
    cases hfill
    rw [hcredit]
    simp [init, mul_comm]
  have htcaches : t.dram.caches ch = List.replicate m req := by
    cases hfill
    exact Function.update_self ..
  have hother : Paid s t ch 0 := paid_other (by simp) hfill
  have htfixed := hother.fixed
  simp only [dramFixed, Prod.mk.injEq] at htfixed
  have hsize : t.dram.reqSize = reqSize := htfixed.2.2.1.trans hfixed.2.2.1
  have hbytes : t.dram.bytesPerDramCycle = bytes := htfixed.2.2.2.trans hfixed.2.2.2
  obtain ⟨s', hburst, hspent, hadmitted⟩ := exists_burst t
    (by rwa [hbytes]) (by rwa [htfixed.1, hfixed.1] : ch < t.dram.nCh) m
    (by rw [htcaches, List.length_replicate]) (by
      rw [htcredit, hsize]
      have : (0 : ℚ) ≤ 2 * reqSize := by positivity
      linarith)
  refine ⟨t, s', hreach.step _ trivial hfill, hburst, ?_⟩
  unfold WithinCap
  rw [hadmitted, hspent.cycles_eq, Nat.add_sub_cancel_left, hsize, hbytes]
  push_cast
  linarith

/-- **When the bandwidth cap holds**: a window is within the cap if its channel starts with the
credit of at most two requests, or if a cycle pays for a request; and all windows of all runs are
exactly in the second case. -/
theorem bandwidth_cap_iff (nCh latency reqSize : ℕ) (bytes : ℚ) (hpos : 0 < bytes)
    (hch : ch < nCh) (req : Access ι) :
    (∀ s s', Reach step (fun _ _ => True) (init ι nCh latency reqSize bytes) s →
      Reach step (fun _ _ => True) s s' →
      (s.dram.bwCreditBytes ch ≤ 2 * reqSize ∨ reqSize ≤ bytes) → WithinCap s s' ch) ∧
    ((∀ s s', Reach step (fun _ _ => True) (init ι nCh latency reqSize bytes) s →
      Reach step (fun _ _ => True) s s' → WithinCap s s' ch) ↔ (reqSize : ℚ) ≤ bytes) := by
  have hwindow : ∀ s s', Reach step (fun _ _ => True) (init ι nCh latency reqSize bytes) s →
      Reach step (fun _ _ => True) s s' →
      (s.dram.bwCreditBytes ch ≤ 2 * reqSize ∨ reqSize ≤ bytes) → WithinCap s s' ch := by
    intro s s' hs hs' hcase
    obtain ⟨n, hn⟩ := paid_of_reach hs hpos hch
    have hfixed := hn.fixed
    simp only [dramFixed, Prod.mk.injEq] at hfixed
    have hsize : s.dram.reqSize = reqSize := hfixed.2.2.1
    have hbytes : s.dram.bytesPerDramCycle = bytes := hfixed.2.2.2
    have hspos : 0 < s.dram.bytesPerDramCycle := by rwa [hbytes]
    have hsch : ch < s.dram.nCh := by rwa [hfixed.1]
    rcases hcase with hcredit | hle
    · have hfirst : (0 : ℚ) ≤ (init ι nCh latency reqSize bytes).dram.bwCreditBytes ch := by
        change (0 : ℚ) ≤ reqSize * 2
        positivity
      exact withinCap_of_credit hs' hspos hsch (hn.nonneg hfirst) (by rwa [hsize])
    · exact withinCap_of_le hs' hspos hsch (by rwa [hsize, hbytes])
  refine ⟨hwindow, ?_, ?_⟩
  · intro hall
    by_contra hlt
    obtain ⟨s, s', hs, hs', hnot⟩ := exists_not_withinCap hpos hch latency req
      (not_le.mp hlt)
    exact hnot (hall s s' hs hs')
  · intro hle s s' hs hs'
    exact hwindow s s' hs hs' (.inr hle)

/-- A read of 32 bytes. -/
def oneRead : Access ℕ where
  fetch := {
    addr := 0, isWrite := false, size := 32, numaId := 0, customData := 0, cacheable := false }
  coreId := 0
  requestId := 0
  mfType := .readRequest

/-- A channel of 32 bytes in a cycle admits 160 bytes in 5 cycles and keeps the cap. -/
theorem bandwidth_cap_iff_example : ∃ s s' : DramRun ℕ,
    s'.admitted 0 = 160 ∧ s'.cycles = 5 ∧ WithinCap s s' 0 := by
  have hinit : Reach step (fun _ _ => True) (init ℕ 1 10 32 32) (init ℕ 1 10 32 32) := .init
  obtain ⟨s', hreach, hfact⟩ := hinit.exists_of_foldlM
    (.cache 0 (List.replicate 5 oneRead) :: List.replicate 5 .cycle)
    (fun s => (s.admitted 0, s.cycles)) (b := (160, 5)) (by decide +kernel) fun _ _ _ => trivial
  rw [Prod.mk.injEq] at hfact
  exact ⟨_, s', hfact.1, hfact.2,
    (bandwidth_cap_iff 1 10 32 32 (by norm_num) (by decide) oneRead).2.mpr (by norm_num) _ s'
      hinit hreach⟩

/-- After one idle cycle a channel of 16 bytes in a cycle admits 160 bytes in 5 cycles. -/
theorem bandwidth_cap_exceeded : ∃ s s' : DramRun ℕ,
    Reach step (fun _ _ => True) (init ℕ 1 10 32 16) s ∧ Reach step (fun _ _ => True) s s' ∧
      ¬ WithinCap s s' 0 := by
  refine ⟨_, _, .of_foldlM [.cycle, .cache 0 (List.replicate 5 oneRead)] .init rfl
    fun _ _ _ => trivial, .of_foldlM (List.replicate 5 .cycle) .init rfl fun _ _ _ => trivial, ?_⟩
  unfold WithinCap
  decide +kernel

end DramRun

end PyTorchSim.Analysis
