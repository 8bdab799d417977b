import PyTorchSim.Analysis.CacheTraffic

/-!
# The size of the miss queue

An access looks for room in the miss queue before it sends anything.  The checks count the request
of the access, but the ones for a write that is passed on are satisfied by a queue that is exactly
full, and none counts the write-backs of the block that a miss evicts.
-/

set_option autoImplicit false

namespace PyTorchSim.Analysis

open PyTorchSim.Model PyTorchSim.Library
open DataCache (WithEvents ReadRequestResult sendWriteRequest)

/-- The block that an access evicts when it takes a line. -/
def evictedBlock (cfg : CacheConfig) (c : DataCache) (f : CacheFetch) (addr time : ℕ) :
    Option EvictedBlockInfo :=
  match accessProbe cfg c f addr with
  | .ok (_, idx) =>
    match TagArray.access cfg c.lines (cfg.getBlockAddr addr) time idx f.accessSector with
    | .ok r => r.evicted
    | .error _ => none
  | .error _ => none

/-- The packets of the write-back of a block. -/
def writeBackPackets (cfg : CacheConfig) : Option EvictedBlockInfo → ℕ
  | some e => if cfg.writePolicy ≠ .writeThrough then e.modifiedSize / cfg.atomSize else 0
  | none => 0

/-- The requests of a miss: its write, its read unless the block is on its way, and the
write-backs. -/
def missPushes (cfg : CacheConfig) (c : DataCache) (f : CacheFetch) (addr time : ℕ) : ℕ :=
  f.isWrite.toNat + (!c.mshrs.probe (cfg.getMshrAddr addr)).toNat +
    writeBackPackets cfg (evictedBlock cfg c f addr time)

/-- A write is passed on: it hits in a cache that does not write back, or it misses in one that
does not allocate for it. -/
def PassedOn (cfg : CacheConfig) (c : DataCache) (f : CacheFetch) (addr : ℕ) : Prop :=
  f.isWrite = true ∧ ∃ status idx, accessProbe cfg c f addr = .ok (status, idx) ∧
    if status = .hit then cfg.writePolicy ≠ .writeBack
    else cfg.writeAllocPolicy = .noWriteAllocate

/-- There is room for what an access sends: the queue is not exactly full when a write is passed
on, and it holds the write-backs when an accepted miss evicts a block. -/
def HasRoom (cfg : CacheConfig) (c : DataCache) : CacheAction → Prop
  | .access f addr time =>
    (PassedOn cfg c f addr → c.missQueue.length ≠ cfg.missQueueSize) ∧
    (Requests cfg c f addr = true → evictedBlock cfg c f addr time ≠ none →
      c.missQueue.length + missPushes cfg c f addr time ≤ cfg.missQueueSize)
  | _ => True

section

variable {cfg : CacheConfig} {addr blockAddr idx id time : ℕ} {s s' : WithEvents}

/-- The write-backs of a block. -/
theorem writeBackEvicted_length {evicted : Option EvictedBlockInfo}
    (h : DataCache.writeBackEvicted cfg evicted s = .ok s') :
    s'.1.missQueue.length = s.1.missQueue.length + writeBackPackets cfg evicted := by
  cases evicted with
  | none =>
    cases h
    rfl
  | some e =>
    dsimp only [DataCache.writeBackEvicted, writeBackPackets] at h ⊢
    split at h
    · next hpolicy =>
      unfold DataCache.writeBack at h
      split at h
      · cases h
      · cases h
        rw [(writeBackOne_foldl cfg e _ s).queue, if_pos hpolicy]
        simp
    · next hpolicy =>
      cases h
      rw [if_neg hpolicy, Nat.add_zero]

/-- An accepted read request sends itself unless its block is on its way, and evicts what the
access of the tag array evicts. -/
theorem ReadRequest.length {r : ReadRequestResult}
    (h : ReadRequest cfg addr blockAddr idx id time s r) (hmiss : r.doMiss = true) :
    r.state.1.missQueue.length =
        s.1.missQueue.length + (!s.1.mshrs.probe (cfg.getMshrAddr addr)).toNat ∧
      ∃ res, TagArray.access cfg s.1.lines blockAddr time idx (s.1.fetches id).accessSector =
        .ok res ∧ r.evicted = res.evicted := by
  cases h with
  | failed => cases hmiss
  | merged res mshrs hhit htag =>
    refine ⟨?_, res, htag, rfl⟩
    rw [hhit]
    rfl
  | sent res mshrs hhit hqueue htag =>
    refine ⟨?_, res, htag, rfl⟩
    rw [hhit]
    simp

end

section

variable {cfg : CacheConfig} {c c' : DataCache} {f : CacheFetch} {addr time : ℕ}
  {status : CacheRequestStatus} {events : List CacheEvent}

/-- Only a miss evicts a block. -/
theorem accessProbe_of_evicts (h : evictedBlock cfg c f addr time ≠ none) :
    ∃ idx, accessProbe cfg c f addr = .ok (.miss, idx) := by
  unfold evictedBlock at h
  cases hprobe : accessProbe cfg c f addr with
  | error e => simp [hprobe] at h
  | ok answer =>
    obtain ⟨status, idx⟩ := answer
    rw [hprobe] at h
    dsimp only at h
    cases htag : TagArray.access cfg c.lines (cfg.getBlockAddr addr) time idx f.accessSector with
    | error e => simp [htag] at h
    | ok r =>
      rw [htag] at h
      obtain ⟨status', i, hprobe', hcase⟩ := tagAccess_cases htag
      cases hcase with
      | miss =>
        have hfirst := probe_start (2 ^ 32 - 1) hprobe' (by decide)
        change accessProbe cfg c f addr = _ at hfirst
        exact ⟨i, hprobe ▸ hfirst⟩
      | _ => exact absurd rfl h

/-- A write that is passed on is sent, unless the queue is longer than it may be. -/
theorem passedOn_length (hpass : PassedOn cfg c f addr)
    (h : DataCache.access cfg addr time c.uniqueUid ((c.newFetch f).2, []) =
      .ok (status, c', events)) :
    c.missQueueFull cfg 0 = true ∨ c'.missQueue.length = c.missQueue.length + 1 := by
  obtain ⟨hwrite, probed, idx, hprobe, hcase⟩ := hpass
  have hself := newFetch_fetches c f
  unfold DataCache.access at h
  dsimp only at h
  rw [hself] at h
  change (accessProbe cfg c f addr >>= _) = _ at h
  rw [hprobe] at h
  change DataCache.processTagProbe cfg f.isWrite probed addr idx c.uniqueUid time _ = _ at h
  obtain ⟨⟨st, t⟩, hhandler, h⟩ := bind_eq_ok.mp h
  obtain ⟨u, -, h⟩ := bind_eq_ok.mp h
  cases h
  rw [hwrite] at hhandler
  by_cases hhit : probed = .hit
  · subst hhit
    rw [if_pos rfl] at hcase
    change DataCache.wrHit cfg addr idx c.uniqueUid time .hit _ = _ at hhandler
    unfold DataCache.wrHit at hhandler
    cases hpolicy : cfg.writePolicy with
    | writeBack => exact absurd hpolicy hcase
    | writeThrough =>
      rw [hpolicy] at hhandler
      dsimp only [DataCache.wrHitWt] at hhandler
      split at hhandler
      · next hfull => exact .inl hfull
      · obtain ⟨⟨idx', t'⟩, htouch, hhandler⟩ := bind_eq_ok.mp hhandler
        cases hhandler
        obtain ⟨lines, rfl⟩ := touch_eq htouch
        exact .inr (List.length_append ..)
    | writeEvict =>
      rw [hpolicy] at hhandler
      dsimp only [DataCache.wrHitWe] at hhandler
      split at hhandler
      · next hfull => exact .inl hfull
      · cases hhandler
        exact .inr (List.length_append ..)
    | readOnly | localWbGlobalWt =>
      rw [hpolicy] at hhandler
      cases hhandler
  · rw [if_neg hhit] at hcase
    have hselect : DataCache.selectHandler cfg true probed = some (DataCache.wrMiss cfg) := by
      simp [DataCache.selectHandler, hhit, hcase]
    rw [hselect] at hhandler
    dsimp only [DataCache.wrMiss] at hhandler
    rw [hcase] at hhandler
    dsimp only [DataCache.wrMissNoWa] at hhandler
    split at hhandler
    · next hfull => exact .inl hfull
    · cases hhandler
      exact .inr (List.length_append ..)

/-- The length of the queue after an accepted miss. -/
theorem readMiss_length {probed : CacheRequestStatus} {idx id : ℕ} {s s' : WithEvents}
    {r : ReadRequestResult} (hprobe : accessProbe cfg c f addr = .ok (probed, idx))
    (hlines : s.1.lines = c.lines) (hmshrs : s.1.mshrs = c.mshrs)
    (hsector : (s.1.fetches id).accessSector = f.accessSector)
    (hqueue : s.1.missQueue.length = c.missQueue.length + f.isWrite.toNat)
    (hrequest : ReadRequest cfg addr (cfg.getBlockAddr addr) idx id time s r)
    (hmiss : r.doMiss = true) (hback : DataCache.writeBackEvicted cfg r.evicted r.state = .ok s') :
    s'.1.missQueue.length = c.missQueue.length + missPushes cfg c f addr time := by
  obtain ⟨hlength, res, htag, hevicted⟩ := hrequest.length hmiss
  rw [hlines, hsector] at htag
  have hblock : evictedBlock cfg c f addr time = r.evicted := by
    rw [hevicted]
    simp [evictedBlock, hprobe, htag]
  rw [writeBackEvicted_length hback, hlength, hqueue, hmshrs]
  unfold missPushes
  rw [hblock]
  omega

/-- An accepted miss that evicts nothing has room. -/
theorem missPushes_le (hrequests : Requests cfg c f addr = true)
    (hevicts : evictedBlock cfg c f addr time = none) :
    c.missQueue.length + missPushes cfg c f addr time ≤ cfg.missQueueSize := by
  simp only [Requests, Bool.and_eq_true, Bool.not_eq_true', DataCache.missQueueFull,
    decide_eq_false_iff_not] at hrequests
  have hroom := hrequests.1.2
  have hone := Bool.toNat_le (!c.mshrs.probe (cfg.getMshrAddr addr))
  unfold missPushes
  rw [hevicts]
  cases hwrite : f.isWrite <;> rw [hwrite] at hroom <;>
    simp only [missRoom, writeBackPackets, Bool.toNat_true, Bool.toNat_false, if_true,
      Bool.false_eq_true, if_false] at hroom ⊢ <;> omega

/-- **What an access does to a queue that is not too long**: it stays so exactly if there was room
for what was sent. -/
theorem access_length_iff (hlength : c.missQueue.length ≤ cfg.missQueueSize)
    (h : DataCache.access cfg addr time c.uniqueUid ((c.newFetch f).2, []) =
      .ok (status, c', events)) :
    c'.missQueue.length ≤ cfg.missQueueSize ↔ HasRoom cfg c (.access f addr time) := by
  have hself := newFetch_fetches c f
  by_cases hpass : PassedOn cfg c f addr
  · have hone : c'.missQueue.length = c.missQueue.length + 1 := by
      refine (passedOn_length hpass h).resolve_left ?_
      simp only [DataCache.missQueueFull, decide_eq_true_eq]
      omega
    have hquiet : Requests cfg c f addr = true → evictedBlock cfg c f addr time = none := by
      obtain ⟨hwrite, probed, idx, hprobe, hcase⟩ := hpass
      intro hrequests
      by_contra hevicts
      obtain ⟨i, hmiss⟩ := accessProbe_of_evicts hevicts
      rw [hprobe] at hmiss
      cases hmiss
      rw [if_neg (by decide)] at hcase
      simp [Requests, hwrite, hcase] at hrequests
    rw [hone]
    constructor
    · intro hle
      exact ⟨fun _ => by omega, fun hrequests hevicts => absurd (hquiet hrequests) hevicts⟩
    · intro hroom
      have := hroom.1 hpass
      omega
  · have hroom : HasRoom cfg c (.access f addr time) ↔ (Requests cfg c f addr = true →
        evictedBlock cfg c f addr time ≠ none →
        c.missQueue.length + missPushes cfg c f addr time ≤ cfg.missQueueSize) :=
      and_iff_right fun h => absurd h hpass
    rw [hroom]
    obtain ⟨probed, idx, hprobe, houtcome⟩ := access_cases h
    rw [hself] at hprobe
    change accessProbe cfg c f addr = _ at hprobe
    -- Without a miss nothing is evicted.
    have hquiet (hprobed : probed ≠ .miss) : evictedBlock cfg c f addr time = none := by
      by_contra hevicts
      obtain ⟨i, hmiss⟩ := accessProbe_of_evicts hevicts
      rw [hprobe] at hmiss
      cases hmiss
      exact hprobed rfl
    have hstays (hlen : c'.missQueue.length = c.missQueue.length)
        (hrequests : Requests cfg c f addr = true → evictedBlock cfg c f addr time = none) :
        c'.missQueue.length ≤ cfg.missQueueSize ↔ (Requests cfg c f addr = true →
          evictedBlock cfg c f addr time ≠ none →
          c.missQueue.length + missPushes cfg c f addr time ≤ cfg.missQueueSize) := by
      rw [hlen]
      exact ⟨fun _ hreq hevicts => absurd (hrequests hreq) hevicts, fun _ => hlength⟩
    have hmisses (hrequests : Requests cfg c f addr = true)
        (hlen : c'.missQueue.length = c.missQueue.length + missPushes cfg c f addr time) :
        c'.missQueue.length ≤ cfg.missQueueSize ↔ (Requests cfg c f addr = true →
          evictedBlock cfg c f addr time ≠ none →
          c.missQueue.length + missPushes cfg c f addr time ≤ cfg.missQueueSize) := by
      rw [hlen]
      refine ⟨fun hle _ _ => hle, fun hevicting => ?_⟩
      by_cases hevicts : evictedBlock cfg c f addr time = none
      · exact missPushes_le hrequests hevicts
      · exact hevicting hrequests hevicts
    have hpassed (hwrite : f.isWrite = true) (hcase : if probed = .hit then
        cfg.writePolicy ≠ .writeBack else cfg.writeAllocPolicy = .noWriteAllocate) : False :=
      hpass ⟨hwrite, probed, idx, hprobe, hcase⟩
    generalize hs : ((c', events) : WithEvents) = s' at houtcome
    have hc : c' = s'.1 := congrArg Prod.fst hs
    subst hc
    cases houtcome with
    | failed hfails =>
      refine hstays rfl fun hrequests => ?_
      cases hfails with
      | lineAlloc hstatus | hitQueue hstatus => exact hquiet (by rw [hstatus]; decide)
      | aroundQueue hwrite hpolicy =>
        rw [hself] at hwrite
        simp [Requests, hwrite, hpolicy] at hrequests
      | missQueue hqueue =>
        rw [hself] at hqueue
        change c.missQueueFull cfg _ = true at hqueue
        simp [Requests, hqueue] at hrequests
      | mshr hfull =>
        change c.mshrs.full cfg _ = true at hfull
        simp [Requests, hfull] at hrequests
    | readHit idx' t hstatus _ htouch =>
      obtain ⟨lines, rfl⟩ := touch_eq htouch
      exact hstays rfl fun _ => hquiet (by rw [hstatus]; decide)
    | writeHit idx' t hstatus _ _ htouch =>
      obtain ⟨lines, rfl⟩ := touch_eq htouch
      exact hstays rfl fun _ => hquiet (by rw [hstatus]; decide)
    | writeThrough idx' t hstatus hwrite hpolicy =>
      rw [hself] at hwrite
      exact (hpassed hwrite (by rw [if_pos hstatus, hpolicy]; decide)).elim
    | writeEvict hstatus hwrite hpolicy =>
      rw [hself] at hwrite
      exact (hpassed hwrite (by rw [if_pos hstatus, hpolicy]; decide)).elim
    | writeAround hstatus hwrite hpolicy =>
      rw [hself] at hwrite
      exact (hpassed hwrite (by rw [if_neg hstatus, hpolicy])).elim
    | readMiss r _ _ _ hread hroom hrequest hmiss hback =>
      rw [hself] at hread hroom
      have havail := hrequest.room hmiss
      change c.missQueueFull cfg _ = false at hroom
      change c.mshrs.full cfg _ = false at havail
      refine hmisses (by simp [Requests, hread, havail, hread ▸ hroom]) ?_
      exact readMiss_length hprobe rfl rfl (by rw [hself]) (by rw [hread]; rfl) hrequest hmiss
        hback
    | writeAllocate r _ _ _ hwrite hpolicy hroom hrequest hmiss hback =>
      rw [hself] at hwrite hroom
      have havail := hrequest.room hmiss
      change c.missQueueFull cfg _ = false at hroom
      change c.mshrs.full cfg _ = false at havail
      refine hmisses (by simp [Requests, hwrite, hpolicy, havail, hwrite ▸ hroom]) ?_
      refine readMiss_length hprobe rfl rfl ?_ ?_ hrequest hmiss hback
      · rw [writeAlloc_fetch, hself]
        rfl
      · rw [hwrite]
        exact List.length_append ..

/-- The other calls never make the queue longer. -/
theorem step_length_le {a : CacheAction} (ha : ∀ f addr time, a ≠ .access f addr time)
    (hstep : c.step cfg a = .ok c') : c'.missQueue.length ≤ c.missQueue.length := by
  cases a with
  | access f addr time => exact absurd rfl (ha f addr time)
  | fill id time =>
    rcases step_fill hstep with ⟨-, rfl⟩ | ⟨_, _, _, -, -, -, rfl⟩ <;> exact le_rfl
  | popNextAccess =>
    rcases step_pop hstep with rfl | ⟨_, _, -, rfl⟩ <;> exact le_rfl
  | cycle =>
    cases hstep
    simp [DataCache.cycle]

/-- **When the miss queue keeps its size**: a call on a cache whose queue is not too long keeps
it so exactly if there is room for what it sends, and in a run whose calls all have room the queue
is never too long. -/
theorem missQueue_length_iff (cfg : CacheConfig) (tags : ℕ → ℕ × ℕ) (fetches : ℕ → CacheFetch) :
    (∀ c c' a, c.missQueue.length ≤ cfg.missQueueSize → c.step cfg a = .ok c' →
      (c'.missQueue.length ≤ cfg.missQueueSize ↔ HasRoom cfg c a)) ∧
    ∀ c, Reach (DataCache.step cfg) (HasRoom cfg) (.initial cfg tags fetches) c →
      c.missQueue.length ≤ cfg.missQueueSize := by
  have hiff : ∀ c c' a, c.missQueue.length ≤ cfg.missQueueSize → c.step cfg a = .ok c' →
      (c'.missQueue.length ≤ cfg.missQueueSize ↔ HasRoom cfg c a) := by
    intro c c' a hlength hstep
    cases a with
    | access f addr time =>
      obtain ⟨status, events, haccess⟩ := step_access hstep
      exact access_length_iff hlength haccess
    | _ =>
      have hle := (step_length_le (by simp) hstep).trans hlength
      exact iff_of_true hle trivial
  refine ⟨hiff, ?_⟩
  intro c hreach
  refine hreach.invariant (I := fun c => c.missQueue.length ≤ cfg.missQueueSize)
    (Nat.zero_le _) ?_
  intro c a c' _ hlength hroom hstep
  exact (hiff c c' a hlength hstep).mpr hroom

/-- A cache that passes writes on, with a queue for one miss. -/
def writeAroundCache : CacheConfig :=
  { smallCache .normal 1 1 with writeAllocPolicy := .noWriteAllocate }

/-- A write of the core. -/
def aroundFetch (addr : ℕ) : CacheFetch where
  addr := addr
  accessType := .globalAccW
  mfType := .writeRequest
  dataSize := 8

/-- The second write is passed on to a queue that is full. -/
theorem missQueue_too_long : ∃ c,
    Reach (DataCache.step writeAroundCache) (fun _ _ => True)
      (.initial writeAroundCache (fun _ => (1, 1)) aroundFetch) c ∧
      ¬ c.missQueue.length ≤ writeAroundCache.missQueueSize := by
  have hinit : Reach (DataCache.step writeAroundCache) (fun _ _ => True)
      (.initial writeAroundCache (fun _ => (1, 1)) aroundFetch) _ := .init
  obtain ⟨c, hreach, hlength⟩ := hinit.exists_of_foldlM
    [.access (aroundFetch 0) 0 1, .access (aroundFetch 32) 32 2]
    (fun c => c.missQueue.length) (b := 2) (by decide +kernel) fun _ _ _ => trivial
  exact ⟨c, hreach, by rw [hlength]; decide⟩

end

end PyTorchSim.Analysis
