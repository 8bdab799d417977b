import PyTorchSim.Library.Runs
import PyTorchSim.Model.Cache

/-!
# What an access of the data cache does

`DataCache.access` takes one of a few paths: it fails, it hits, it passes a write on, or it asks
for a block, alone or behind a write.  `AccessOutcome` has one constructor for each path, with
the tests that lead to it.  What holds of all accesses is read off from these cases.
-/

set_option autoImplicit false

namespace PyTorchSim.Analysis

open PyTorchSim.Model PyTorchSim.Library
open DataCache (WithEvents ReadRequestResult sendWriteRequest sendReadRequest)

section

variable {cfg : CacheConfig} {addr blockAddr idx id time : ℕ} {s s' : WithEvents}

/-- The paths of `send_read_request`. -/
inductive ReadRequest (cfg : CacheConfig) (addr blockAddr idx id time : ℕ) (s : WithEvents) :
    ReadRequestResult → Prop
  /-- No entry, no room in the entry, or no room in the miss queue. -/
  | failed (h : s.1.mshrs.full cfg (cfg.getMshrAddr addr) = true ∨
      s.1.missQueueFull cfg 0 = true) :
      ReadRequest cfg addr blockAddr idx id time s ⟨false, none, s⟩
  /-- The block is on its way. -/
  | merged (r : TagArray.AccessResult) (mshrs : MshrTable)
      (hhit : s.1.mshrs.probe (cfg.getMshrAddr addr) = true)
      (htag : TagArray.access cfg s.1.lines blockAddr time idx (s.1.fetches id).accessSector =
        .ok r)
      (hadd : s.1.mshrs.add cfg (cfg.getMshrAddr addr) id = .ok mshrs) :
      ReadRequest cfg addr blockAddr idx id time s
        ⟨true, r.evicted, { s.1 with lines := r.lines, mshrs }, s.2⟩
  /-- The block is asked for. -/
  | sent (r : TagArray.AccessResult) (mshrs : MshrTable)
      (hhit : s.1.mshrs.probe (cfg.getMshrAddr addr) = false)
      (hqueue : s.1.missQueueFull cfg 0 = false)
      (htag : TagArray.access cfg s.1.lines blockAddr time idx (s.1.fetches id).accessSector =
        .ok r)
      (hadd : s.1.mshrs.add cfg (cfg.getMshrAddr addr) id = .ok mshrs) :
      ReadRequest cfg addr blockAddr idx id time s
        ⟨true, r.evicted, { s.1 with
          lines := r.lines
          mshrs
          extraMfFields := Function.update s.1.extraMfFields id (some {
            blockAddr := cfg.getMshrAddr addr
            addr := (s.1.fetches id).addr
            cacheIndex := r.idx
            dataSize := (s.1.fetches id).dataSize })
          fetches := Function.update s.1.fetches id { s.1.fetches id with
            dataSize := cfg.atomSize
            addr := cfg.getMshrAddr addr }
          missQueue := s.1.missQueue ++ [id] }, s.2⟩

theorem sendReadRequest_cases {res : ReadRequestResult}
    (h : sendReadRequest cfg addr blockAddr idx id time s = .ok res) :
    ReadRequest cfg addr blockAddr idx id time s res := by
  unfold DataCache.sendReadRequest at h
  dsimp only at h
  split at h
  · next hmerge =>
    rw [Bool.and_eq_true] at hmerge
    obtain ⟨r, htag, h⟩ := bind_eq_ok.mp h
    obtain ⟨mshrs, hadd, h⟩ := bind_eq_ok.mp h
    cases h
    exact .merged r mshrs hmerge.1 htag hadd
  · next hmerge =>
    split at h
    · next hsend =>
      simp only [Bool.and_eq_true, Bool.not_eq_true'] at hsend
      obtain ⟨r, htag, h⟩ := bind_eq_ok.mp h
      obtain ⟨mshrs, hadd, h⟩ := bind_eq_ok.mp h
      cases h
      exact .sent r mshrs hsend.1.1 hsend.2 htag hadd
    · next hsend =>
      cases h
      apply ReadRequest.failed
      cases hfull : s.1.mshrs.full cfg (cfg.getMshrAddr addr) with
      | true => exact .inl rfl
      | false =>
        right
        cases hprobe : s.1.mshrs.probe (cfg.getMshrAddr addr) <;>
          simp_all

/-- The requests that have to fit into the miss queue for a miss. -/
def missRoom (write : Bool) : ℕ := if write then 2 else 1

/-- The room that an accepted read request found. -/
theorem ReadRequest.room {addr blockAddr idx id time : ℕ} {s : WithEvents}
    {r : DataCache.ReadRequestResult} (h : ReadRequest cfg addr blockAddr idx id time s r)
    (hmiss : r.doMiss = true) : s.1.mshrs.full cfg (cfg.getMshrAddr addr) = false := by
  have hadd {t t' : MshrTable} {b : ℕ} (h : t.add cfg b id = .ok t') : t.full cfg b = false := by
    unfold MshrTable.add at h
    split at h
    · cases h
    · next hfull => simpa using hfull
  cases h with
  | failed => cases hmiss
  | merged _ _ _ _ h | sent _ _ _ _ _ h => exact hadd h

/-- Why an access fails. -/
inductive AccessFails (cfg : CacheConfig) (addr id : ℕ) (status : CacheRequestStatus)
    (s : WithEvents) : Prop
  | lineAlloc (hstatus : status = .reservationFail)
  | hitQueue (hstatus : status = .hit)
  | aroundQueue (hwrite : (s.1.fetches id).isWrite = true)
      (hpolicy : cfg.writeAllocPolicy = .noWriteAllocate)
  | missQueue (hqueue : s.1.missQueueFull cfg (missRoom (s.1.fetches id).isWrite) = true)
  | mshr (hfull : s.1.mshrs.full cfg (cfg.getMshrAddr addr) = true)

/-- The paths of an access, after a probe with the answer `status` and the line `idx`. -/
inductive AccessOutcome (cfg : CacheConfig) (addr idx id time : ℕ) (status : CacheRequestStatus)
    (s : WithEvents) : CacheRequestStatus → WithEvents → Prop
  | failed (hfails : AccessFails cfg addr id status s) :
      AccessOutcome cfg addr idx id time status s .reservationFail s
  | readHit (idx' : ℕ) (c : DataCache) (hstatus : status = .hit)
      (hread : (s.1.fetches id).isWrite = false)
      (htouch : s.1.touch cfg addr idx id time = .ok (idx', c)) :
      AccessOutcome cfg addr idx id time status s .hit (c, s.2)
  | writeHit (idx' : ℕ) (c : DataCache) (hstatus : status = .hit)
      (hwrite : (s.1.fetches id).isWrite = true)
      (hpolicy : cfg.writePolicy = .writeBack)
      (htouch : s.1.touch cfg addr idx id time = .ok (idx', c)) :
      AccessOutcome cfg addr idx id time status s .hit (c.setBlockStatus idx' id .modified, s.2)
  | writeThrough (idx' : ℕ) (c : DataCache) (hstatus : status = .hit)
      (hwrite : (s.1.fetches id).isWrite = true)
      (hpolicy : cfg.writePolicy = .writeThrough)
      (htouch : s.1.touch cfg addr idx id time = .ok (idx', c)) :
      AccessOutcome cfg addr idx id time status s .hit
        (sendWriteRequest id .writeRequestSent (c.setBlockStatus idx' id .modified, s.2))
  | writeEvict (hstatus : status = .hit) (hwrite : (s.1.fetches id).isWrite = true)
      (hpolicy : cfg.writePolicy = .writeEvict) :
      AccessOutcome cfg addr idx id time status s .hit
        ((sendWriteRequest id .writeRequestSent s).1.setBlockStatus idx id .invalid,
          (sendWriteRequest id .writeRequestSent s).2)
  | writeAround (hstatus : status ≠ .hit) (hwrite : (s.1.fetches id).isWrite = true)
      (hpolicy : cfg.writeAllocPolicy = .noWriteAllocate) :
      AccessOutcome cfg addr idx id time status s .miss
        (sendWriteRequest id .writeRequestSent s)
  | readMiss (r : ReadRequestResult) (s' : WithEvents) (hstatus : status ≠ .hit)
      (hfail : status ≠ .reservationFail) (hread : (s.1.fetches id).isWrite = false)
      (hroom : s.1.missQueueFull cfg (missRoom (s.1.fetches id).isWrite) = false)
      (hrequest : ReadRequest cfg addr (cfg.getBlockAddr addr) idx id time s r)
      (hmiss : r.doMiss = true) (hback : DataCache.writeBackEvicted cfg r.evicted r.state = .ok s') :
      AccessOutcome cfg addr idx id time status s .miss s'
  | writeAllocate (r : ReadRequestResult) (s' : WithEvents) (hstatus : status ≠ .hit)
      (hfail : status ≠ .reservationFail) (hwrite : (s.1.fetches id).isWrite = true)
      (hpolicy : cfg.writeAllocPolicy = .writeAllocate)
      (hroom : s.1.missQueueFull cfg (missRoom (s.1.fetches id).isWrite) = false)
      (hrequest : ReadRequest cfg addr (cfg.getBlockAddr addr) idx s.1.uniqueUid time
        (((sendWriteRequest id .writeRequestSent s).1.newFetch
          (DataCache.writeAllocFetch cfg (s.1.fetches id))).2, s.2 ++ [.writeRequestSent]) r)
      (hmiss : r.doMiss = true) (hback : DataCache.writeBackEvicted cfg r.evicted r.state = .ok s') :
      AccessOutcome cfg addr idx id time status s .miss s'

variable {status accessStatus : CacheRequestStatus}

theorem wrHit_cases (hstatus : status = .hit) (hwrite : (s.1.fetches id).isWrite = true)
    (h : DataCache.wrHit cfg addr idx id time status s = .ok (accessStatus, s')) :
    AccessOutcome cfg addr idx id time status s accessStatus s' := by
  unfold DataCache.wrHit at h
  cases hpolicy : cfg.writePolicy with
  | readOnly =>
    rw [hpolicy] at h
    cases h
  | localWbGlobalWt =>
    rw [hpolicy] at h
    cases h
  | writeBack =>
    rw [hpolicy] at h
    obtain ⟨⟨idx', c⟩, htouch, h⟩ := bind_eq_ok.mp h
    cases h
    exact .writeHit idx' c hstatus hwrite hpolicy htouch
  | writeThrough =>
    rw [hpolicy] at h
    dsimp only [DataCache.wrHitWt] at h
    split at h
    · cases h
      exact .failed (.hitQueue hstatus)
    · obtain ⟨⟨idx', c⟩, htouch, h⟩ := bind_eq_ok.mp h
      cases h
      exact .writeThrough idx' c hstatus hwrite hpolicy htouch
  | writeEvict =>
    rw [hpolicy] at h
    dsimp only [DataCache.wrHitWe] at h
    split at h
    · cases h
      exact .failed (.hitQueue hstatus)
    · cases h
      exact .writeEvict hstatus hwrite hpolicy

theorem wrMissWaNaive_cases (hstatus : status ≠ .hit) (hfail : status ≠ .reservationFail)
    (hwrite : (s.1.fetches id).isWrite = true) (hpolicy : cfg.writeAllocPolicy = .writeAllocate)
    (h : DataCache.wrMissWaNaive cfg addr idx id time status s = .ok (accessStatus, s')) :
    AccessOutcome cfg addr idx id time status s accessStatus s' := by
  have hwriteRoom : missRoom (s.1.fetches id).isWrite = 2 := by rw [hwrite]; rfl
  unfold DataCache.wrMissWaNaive at h
  dsimp only at h
  split at h
  · next hqueue =>
    cases h
    exact .failed (.missQueue (by rw [hwriteRoom]; exact hqueue))
  next hqueue =>
  have hroom : s.1.missQueueFull cfg (missRoom (s.1.fetches id).isWrite) = false := by
    rw [hwriteRoom]
    simpa using hqueue
  split at h
  · next hmerge =>
    cases h
    exact .failed (.mshr (by simp_all))
  next hmerge =>
  split at h
  · next hentry =>
    cases h
    exact .failed (.mshr (by simp_all))
  next hentry =>
  have havail : s.1.mshrs.full cfg (cfg.getMshrAddr addr) = false := by
    cases hfull : s.1.mshrs.full cfg (cfg.getMshrAddr addr) with
    | false => rfl
    | true =>
      rw [hfull] at hmerge hentry
      cases hprobe : s.1.mshrs.probe (cfg.getMshrAddr addr) <;> rw [hprobe] at hmerge hentry <;>
        simp at hmerge hentry
  obtain ⟨r, hr, h⟩ := bind_eq_ok.mp h
  have hrequest := sendReadRequest_cases hr
  split at h
  · next hmiss =>
    split at h
    · cases h
    · obtain ⟨t, hback, h⟩ := bind_eq_ok.mp h
      cases h
      exact .writeAllocate r _ hstatus hfail hwrite hpolicy hroom hrequest hmiss hback
  · next hmiss =>
    -- the read cannot fail where there is room for two requests
    exfalso
    cases hrequest with
    | failed hfailed =>
      rcases hfailed with hfull | hfull
      · exact Bool.false_ne_true (havail.symm.trans hfull)
      · simp only [DataCache.missQueueFull, sendWriteRequest, DataCache.newFetch,
          List.length_append, List.length_singleton, decide_eq_true_eq] at hfull hqueue
        omega
    | merged => exact hmiss rfl
    | sent => exact hmiss rfl

theorem wrMiss_cases (hstatus : status ≠ .hit)
    (hfail : status ≠ .reservationFail ∨ cfg.writeAllocPolicy = .noWriteAllocate)
    (hwrite : (s.1.fetches id).isWrite = true)
    (h : DataCache.wrMiss cfg addr idx id time status s = .ok (accessStatus, s')) :
    AccessOutcome cfg addr idx id time status s accessStatus s' := by
  unfold DataCache.wrMiss at h
  cases hpolicy : cfg.writeAllocPolicy with
  | noWriteAllocate =>
    rw [hpolicy] at h
    dsimp only [DataCache.wrMissNoWa] at h
    split at h
    · cases h
      exact .failed (.aroundQueue hwrite hpolicy)
    · cases h
      exact .writeAround hstatus hwrite hpolicy
  | writeAllocate =>
    rw [hpolicy] at h hfail
    exact wrMissWaNaive_cases hstatus (hfail.resolve_right (by decide)) hwrite hpolicy h
  | fetchOnWrite =>
    rw [hpolicy] at h
    cases h
  | lazyFetchOnRead =>
    rw [hpolicy] at h
    cases h

theorem rdMissBase_cases (hstatus : status ≠ .hit) (hfail : status ≠ .reservationFail)
    (hread : (s.1.fetches id).isWrite = false)
    (h : DataCache.rdMissBase cfg addr idx id time status s = .ok (accessStatus, s')) :
    AccessOutcome cfg addr idx id time status s accessStatus s' := by
  have hreadRoom : missRoom (s.1.fetches id).isWrite = 1 := by rw [hread]; rfl
  unfold DataCache.rdMissBase at h
  split at h
  · next hqueue =>
    cases h
    exact .failed (.missQueue (by rw [hreadRoom]; exact hqueue))
  next hqueue =>
  have hroom : s.1.missQueueFull cfg (missRoom (s.1.fetches id).isWrite) = false := by
    rw [hreadRoom]
    simpa using hqueue
  obtain ⟨r, hr, h⟩ := bind_eq_ok.mp h
  have hrequest := sendReadRequest_cases hr
  split at h
  · next hmiss =>
    obtain ⟨t, hback, h⟩ := bind_eq_ok.mp h
    cases h
    exact .readMiss r _ hstatus hfail hread hroom hrequest hmiss hback
  · next hmiss =>
    cases h
    cases hrequest with
    | failed hfailed =>
      rcases hfailed with hfull | hfull
      · exact .failed (.mshr hfull)
      · exfalso
        simp only [DataCache.missQueueFull, decide_eq_true_eq] at hfull hqueue
        omega
    | merged => exact absurd rfl hmiss
    | sent => exact absurd rfl hmiss

theorem processTagProbe_cases
    (h : DataCache.processTagProbe cfg (s.1.fetches id).isWrite status addr idx id time s =
      .ok (accessStatus, s')) : AccessOutcome cfg addr idx id time status s accessStatus s' := by
  unfold DataCache.processTagProbe at h
  obtain ⟨⟨st, t⟩, hhandler, h⟩ := bind_eq_ok.mp h
  obtain ⟨u, -, h⟩ := bind_eq_ok.mp h
  cases h
  unfold DataCache.selectHandler at hhandler
  cases hwr : (s.1.fetches id).isWrite with
  | true =>
    rw [hwr, if_pos rfl] at hhandler
    by_cases hhit : status = .hit
    · rw [if_pos hhit] at hhandler
      exact wrHit_cases hhit hwr hhandler
    · rw [if_neg hhit] at hhandler
      by_cases hmiss : status ≠ .reservationFail ∨ cfg.writeAllocPolicy = .noWriteAllocate
      · rw [if_pos hmiss] at hhandler
        exact wrMiss_cases hhit hmiss hwr hhandler
      · rw [if_neg hmiss] at hhandler
        cases hhandler
        rw [not_or, not_not] at hmiss
        rw [hmiss.1]
        exact .failed (.lineAlloc rfl)
  | false =>
    rw [hwr, if_neg Bool.false_ne_true] at hhandler
    by_cases hhit : status = .hit
    · rw [if_pos hhit] at hhandler
      obtain ⟨⟨idx', c⟩, htouch, hhandler⟩ := bind_eq_ok.mp hhandler
      cases hhandler
      exact .readHit idx' c hhit hwr htouch
    · rw [if_neg hhit] at hhandler
      by_cases hmiss : status ≠ .reservationFail
      · rw [if_pos hmiss] at hhandler
        exact rdMissBase_cases hhit hmiss hwr hhandler
      · rw [if_neg hmiss] at hhandler
        cases hhandler
        rw [not_not.mp hmiss]
        exact .failed (.lineAlloc rfl)

/-- What an access does, by the answer of the probe before it. -/
theorem access_cases (h : DataCache.access cfg addr time id s = .ok (accessStatus, s')) :
    ∃ status idx, TagArray.probe cfg s.1.lines (cfg.getBlockAddr addr) (2 ^ 32 - 1)
        (s.1.fetches id).accessSector = .ok (status, idx) ∧
      AccessOutcome cfg addr idx id time status s accessStatus s' := by
  obtain ⟨⟨status, idx⟩, hprobe, h⟩ := bind_eq_ok.mp h
  exact ⟨status, idx, hprobe, processTagProbe_cases h⟩

/-- **A failed access is a no-op**: an access that is to be retried leaves the tag array, the
MSHR table, the miss queue, the outstanding fills and the events as they are. -/
theorem reservationFail_unchanged (cfg : CacheConfig) (addr time id : ℕ) (s s' : WithEvents)
    (h : DataCache.access cfg addr time id s = .ok (.reservationFail, s')) : s' = s := by
  obtain ⟨status, idx, -, houtcome⟩ := access_cases h
  cases houtcome
  rfl

end

/-! ## Accepted misses -/

/-- A miss that asks for its block: the write policy allocates, and there is room in the miss
queue and in the MSHR table. -/
def Requests (cfg : CacheConfig) (c : DataCache) (f : CacheFetch) (addr : ℕ) : Bool :=
  (!f.isWrite || cfg.writeAllocPolicy = .writeAllocate) &&
    !c.missQueueFull cfg (missRoom f.isWrite) && !c.mshrs.full cfg (cfg.getMshrAddr addr)

/-- The probe of an access. -/
def accessProbe (cfg : CacheConfig) (c : DataCache) (f : CacheFetch) (addr : ℕ) :
    Except CacheFault (CacheRequestStatus × ℕ) :=
  TagArray.probe cfg c.lines (cfg.getBlockAddr addr) (2 ^ 32 - 1) f.accessSector

/-- A configuration of one set with lines of 32 bytes and sectors of 8 bytes. -/
def smallCache (cacheType : CacheType) (assoc missQueueSize : ℕ) : CacheConfig where
  cacheType := cacheType
  nset := 1
  lineSize := 32
  assoc := assoc
  sectorSize := 8
  evictPolicy := .lru
  writePolicy := .writeBack
  allocPolicy := .onMiss
  writeAllocPolicy := .writeAllocate
  setIndexFunction := .custom
  mshrType := .assoc
  mshrEntries := 4
  mshrMaxMerge := 4
  missQueueSize := missQueueSize
  dataPortWidth := 32

/-- A read request of the core. -/
def readFetch (addr : ℕ) (sector : Sector) : CacheFetch where
  addr := addr
  accessType := .globalAccR
  mfType := .readRequest
  dataSize := 8
  accessSector := sector

/-- A read of a cache without a miss queue is to be retried. -/
theorem reservationFail_unchanged_noQueue :
    let s : WithEvents :=
      (DataCache.initial (smallCache .normal 1 0) (fun _ => (1, 1)) fun _ => readFetch 0 0, [])
    ∃ s', DataCache.access (smallCache .normal 1 0) 0 0 0 s = .ok (.reservationFail, s') ∧
      s' = s :=
  ⟨_, rfl, reservationFail_unchanged (smallCache .normal 1 0) 0 0 0 _ _ rfl⟩

end PyTorchSim.Analysis
