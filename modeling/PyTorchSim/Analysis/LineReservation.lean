import PyTorchSim.Analysis.CacheTraffic
import PyTorchSim.Analysis.WriteBack

/-!
# Reservations of plain lines

A miss reserves a line, and the fill of its request frees it.  The request of a miss that finds
an entry of its block is not sent, since the block is on its way.  But the entry stays while the
requests of a ready block are taken out one by one; a miss that merges into it reserves a line
that no fill will ever free.  Up to the first such miss every reserved line has its fill.
-/

set_option autoImplicit false

namespace PyTorchSim.Analysis

open PyTorchSim.Model PyTorchSim.Library
open DataCache (WithEvents ReadRequestResult)

/-- Every reserved line waits for exactly one fill, which is on its way once. -/
structure NoOrphan (s : CacheSystem) : Prop where
  fill : ∀ i, (s.cache.lines i).isReservedLine = true →
    ∃! id, ∃ field, s.cache.extraMfFields id = some field ∧ field.cacheIndex = i ∧
      (onWay s).count id = 1
  /-- When everything has been delivered no line is reserved. -/
  drained : onWay s = [] → ∀ i, (s.cache.lines i).isReservedLine = false

/-- A miss is accepted although its block is ready. -/
def MergesReady (cfg : CacheConfig) (c : DataCache) : CacheAction → Prop
  | .access f addr _ => (∃ i, accessProbe cfg c f addr = .ok (.miss, i)) ∧
      Requests cfg c f addr = true ∧ cfg.getMshrAddr addr ∈ c.mshrs.currentResponse
  | _ => False

/-- The reserved lines are those of the outstanding fills, and stand where a probe of the block
finds them. -/
structure Reserves (cfg : CacheConfig) (c : DataCache) : Prop where
  plain : ∀ i, isSector (c.lines i) = false
  line : ∀ id field, c.extraMfFields id = some field →
    (c.lines field.cacheIndex).isReservedLine = true ∧
    (c.lines field.cacheIndex).matchTag field.blockAddr = true ∧
    cfg.getBlockAddr field.blockAddr = field.blockAddr ∧
    ∃ set, cfg.getSetIndex field.blockAddr = .ok set ∧
      field.cacheIndex ∈ TagArray.setLines cfg set
  injective : ∀ id id' field field', c.extraMfFields id = some field →
    c.extraMfFields id' = some field' → field.cacheIndex = field'.cacheIndex → id = id'
  reserved : ∀ i, (c.lines i).isReservedLine = true →
    ∃ id field, c.extraMfFields id = some field ∧ field.cacheIndex = i

section

variable {cfg : CacheConfig} {c c' : DataCache} {i id : ℕ} {b : CacheBlock}

/-- The status of a plain line is that of its sectors. -/
theorem plain_getStatus (hplain : isSector b = false) (s : Sector) :
    b.getStatus s = .reserved ↔ b.isReservedLine = true := by
  cases b with
  | line b => exact decide_eq_true_iff.symm
  | sector b => cases hplain

/-- The lines of the outstanding fills are reserved, and so not this one. -/
theorem Reserves.ne_line (h : Reserves cfg c) (hi : (c.lines i).isReservedLine = false)
    {field : ExtraMfFields} (hfield : c.extraMfFields id = some field) : field.cacheIndex ≠ i := by
  rintro rfl
  rw [(h.line id field hfield).1] at hi
  cases hi

/-- A line that is not reserved changes into one that is not reserved. -/
theorem Reserves.unreserved (h : Reserves cfg c) (hi : (c.lines i).isReservedLine = false)
    (hb : b.isReservedLine = false) (hplain : isSector b = false)
    (hlines : c'.lines = Function.update c.lines i b)
    (hextra : c'.extraMfFields = c.extraMfFields) : Reserves cfg c' := by
  constructor
  · intro j
    rw [hlines]
    by_cases hj : j = i
    · rw [hj, Function.update_self]; exact hplain
    · rw [Function.update_of_ne hj]; exact h.plain j
  · rw [hextra, hlines]
    intro id field hfield
    rw [Function.update_of_ne (h.ne_line hi hfield)]
    exact h.line id field hfield
  · rw [hextra]; exact h.injective
  · rw [hextra, hlines]
    intro j hj
    by_cases hji : j = i
    · rw [hji, Function.update_self, hb] at hj
      cases hj
    · rw [Function.update_of_ne hji] at hj
      exact h.reserved j hj

/-- The lines and the outstanding fills stay. -/
theorem Reserves.congr (h : Reserves cfg c) (hlines : c'.lines = c.lines)
    (hextra : c'.extraMfFields = c.extraMfFields) : Reserves cfg c' := by
  constructor
  · rw [hlines]; exact h.plain
  · rw [hlines, hextra]; exact h.line
  · rw [hextra]; exact h.injective
  · rw [hlines, hextra]; exact h.reserved

/-- A line is reserved for a request that is sent. -/
theorem Reserves.allocate (h : Reserves cfg c) (hi : (c.lines i).isReservedLine = false)
    (hnone : c.extraMfFields id = none) {field : ExtraMfFields}
    (hlines : c'.lines = Function.update c.lines i b)
    (hextra : c'.extraMfFields = Function.update c.extraMfFields id (some field))
    (hres : b.isReservedLine = true) (htag : b.matchTag field.blockAddr = true)
    (hplain : isSector b = false) (hindex : field.cacheIndex = i)
    (halign : cfg.getBlockAddr field.blockAddr = field.blockAddr)
    (hset : ∃ set, cfg.getSetIndex field.blockAddr = .ok set ∧ i ∈ TagArray.setLines cfg set) :
    Reserves cfg c' := by
  have hother {x : ℕ} (hx : x ≠ id) : c'.extraMfFields x = c.extraMfFields x := by
    rw [hextra, Function.update_of_ne hx]
  have hself : c'.extraMfFields id = some field := by rw [hextra, Function.update_self]
  constructor
  · intro j
    rw [hlines]
    by_cases hj : j = i
    · rw [hj, Function.update_self]; exact hplain
    · rw [Function.update_of_ne hj]; exact h.plain j
  · intro x field' hx
    by_cases hxid : x = id
    · rw [hxid, hself] at hx
      cases hx
      rw [hlines, hindex, Function.update_self]
      exact ⟨hres, htag, halign, hset⟩
    · rw [hother hxid] at hx
      rw [hlines, Function.update_of_ne (h.ne_line hi hx)]
      exact h.line x field' hx
  · intro x x' field' field'' hx hx' heq
    by_cases hxid : x = id <;> by_cases hxid' : x' = id
    · rw [hxid, hxid']
    · rw [hxid, hself] at hx
      rw [hother hxid'] at hx'
      cases hx
      exact absurd (heq.symm.trans hindex) (h.ne_line hi hx')
    · rw [hxid', hself] at hx'
      rw [hother hxid] at hx
      cases hx'
      exact absurd (heq.trans hindex) (h.ne_line hi hx)
    · rw [hother hxid] at hx
      rw [hother hxid'] at hx'
      exact h.injective x x' field' field'' hx hx' heq
  · intro j hj
    by_cases hji : j = i
    · exact ⟨id, field, hself, hindex.trans hji.symm⟩
    · rw [hlines, Function.update_of_ne hji] at hj
      obtain ⟨x, field', hx, hj⟩ := h.reserved j hj
      refine ⟨x, field', ?_, hj⟩
      rw [hother]
      · exact hx
      · rintro rfl
        rw [hnone] at hx
        cases hx

/-- A fill frees its line. -/
theorem Reserves.fill (h : Reserves cfg c) {field : ExtraMfFields}
    (hfield : c.extraMfFields id = some field) (s : Sector)
    (hlines : c'.lines =
      Function.update c.lines field.cacheIndex ((c.lines field.cacheIndex).fill s))
    (hextra : c'.extraMfFields = Function.update c.extraMfFields id none) : Reserves cfg c' := by
  have hleft {x : ℕ} {field' : ExtraMfFields} (hx : c'.extraMfFields x = some field') :
      x ≠ id ∧ c.extraMfFields x = some field' := by
    rw [hextra] at hx
    by_cases hxid : x = id
    · rw [hxid, Function.update_self] at hx
      cases hx
    · exact ⟨hxid, by rwa [Function.update_of_ne hxid] at hx⟩
  have hfree : ((c.lines field.cacheIndex).fill s).isReservedLine = false := by
    have hplain := h.plain field.cacheIndex
    cases hb : c.lines field.cacheIndex with
    | line b =>
      apply decide_eq_false
      dsimp only
      split <;> exact nofun
    | sector b =>
      rw [hb] at hplain
      cases hplain
  constructor
  · intro j
    rw [hlines]
    by_cases hj : j = field.cacheIndex
    · rw [hj, Function.update_self, isSector_fill]; exact h.plain _
    · rw [Function.update_of_ne hj]; exact h.plain j
  · intro x field' hx
    obtain ⟨hxid, hx⟩ := hleft hx
    rw [hlines, Function.update_of_ne fun heq => hxid (h.injective x id field' field hx hfield heq)]
    exact h.line x field' hx
  · intro x x' field' field'' hx hx'
    exact h.injective x x' field' field'' (hleft hx).2 (hleft hx').2
  · intro j hj
    rw [hlines] at hj
    by_cases hji : j = field.cacheIndex
    · rw [hji, Function.update_self, hfree] at hj
      cases hj
    · rw [Function.update_of_ne hji] at hj
      obtain ⟨x, field', hx, hj⟩ := h.reserved j hj
      refine ⟨x, field', ?_, hj⟩
      rw [hextra, Function.update_of_ne]
      · exact hx
      · rintro rfl
        rw [hfield] at hx
        cases hx
        exact hji hj.symm

end

section

variable {cfg : CacheConfig} {c : DataCache} {addr idx i id time : ℕ} {s s' : WithEvents}
  {memory : List ℕ} {status accessStatus : CacheRequestStatus} {sector : Sector}

theorem getMshrAddr_of_normal (hkind : cfg.cacheType = .normal) (addr : ℕ) :
    cfg.getMshrAddr addr = cfg.getBlockAddr addr := by
  rw [CacheConfig.getMshrAddr, CacheConfig.atomSize, if_neg (by rw [hkind]; decide)]
  rfl

/-- A block that a probe misses has no outstanding fill. -/
theorem Reserves.blockAddr_ne (h : Reserves cfg c)
    (hprobe : TagArray.probe cfg c.lines (cfg.getBlockAddr addr) idx sector = .ok (.miss, i))
    {field : ExtraMfFields} (hfield : c.extraMfFields id = some field) :
    field.blockAddr ≠ cfg.getBlockAddr addr := by
  intro heq
  obtain ⟨hres, htag, -, set, hset, hmem⟩ := h.line id field hfield
  obtain ⟨set', hset', ⟨-, hanswer⟩ | ⟨hpassed, -⟩⟩ := probe_cases hprobe
  · cases hanswer
  rw [← heq, hset] at hset'
  cases hset'
  rw [heq] at htag
  rw [getTag_getBlockAddr] at hpassed
  have hinvalid := (hpassed _ hmem htag).1
  rw [(plain_getStatus (h.plain _) sector).mpr hres] at hinvalid
  cases hinvalid

/-- The line that a miss takes. -/
theorem miss_line
    (hprobe : TagArray.probe cfg c.lines (cfg.getBlockAddr addr) idx sector = .ok (.miss, i)) :
    (c.lines i).isReservedLine = false ∧
      ∃ set, cfg.getSetIndex (cfg.getBlockAddr addr) = .ok set ∧
        i ∈ TagArray.setLines cfg set := by
  obtain ⟨set, hset, ⟨-, hanswer⟩ | ⟨-, ⟨-, hmem, hevict⟩ | ⟨hfail, -⟩⟩⟩ := probe_cases hprobe
  · cases hanswer
  · exact ⟨hevict.2, set, hset, hmem⟩
  · cases hfail

/-- A plain line that is allocated is reserved and has its tag. -/
theorem allocate_reserved {b : CacheBlock} (hplain : isSector b = false)
    (tag blockAddr time : ℕ) :
    (b.allocate tag blockAddr time).isReservedLine = true ∧
      (b.allocate tag blockAddr time).matchTag tag = true := by
  cases b with
  | line b => exact ⟨rfl, decide_eq_true rfl⟩
  | sector b => cases hplain

/-- An accepted request of a miss, in a cache whose lines and tables are those of `c`. -/
theorem Reserves.read (h : Reserves cfg c) (ht : Tracked (during c memory))
    (hkind : cfg.cacheType = .normal) (hpolicy : cfg.allocPolicy = .onMiss)
    {r : ReadRequestResult}
    (hrequest : ReadRequest cfg addr (cfg.getBlockAddr addr) idx id time s r)
    (hlines : s.1.lines = c.lines) (hmshrs : s.1.mshrs = c.mshrs)
    (hextra : s.1.extraMfFields = c.extraMfFields) (hnone : c.extraMfFields id = none)
    (hmiss : r.doMiss = true)
    (hprobe : TagArray.probe cfg c.lines (cfg.getBlockAddr addr) idx
      (s.1.fetches id).accessSector = .ok (status, i))
    (hhit : status ≠ .hit) (hfail : status ≠ .reservationFail)
    (hready : status = .miss → cfg.getMshrAddr addr ∉ c.mshrs.currentResponse) :
    Reserves cfg r.state.1 := by
  have haddr := getMshrAddr_of_normal hkind addr
  -- the block of a miss has no entry
  have hentry (hstatus : status = .miss) : c.mshrs.probe (cfg.getMshrAddr addr) = false := by
    rw [hstatus] at hprobe
    cases hp : c.mshrs.probe (cfg.getMshrAddr addr) with
    | false => rfl
    | true =>
      rcases ht.filled _ hp with hmem | ⟨x, field, hx, hblock⟩
      · exact absurd hmem (hready hstatus)
      · exact absurd (hblock.trans haddr) (h.blockAddr_ne hprobe hx)
  -- the block of a reserved line has one
  have hreserved (hstatus : status = .hitReserved) :
      c.mshrs.probe (cfg.getMshrAddr addr) = true := by
    rw [hstatus] at hprobe
    obtain ⟨set, -, ⟨-, hanswer⟩ | ⟨-, ⟨hmiss, -⟩ | ⟨hno, -⟩⟩⟩ := probe_cases hprobe
    · cases hanswer with
      | hitReserved htag hres =>
        rw [plain_getStatus (h.plain i)] at hres
        obtain ⟨x, field, hx, hindex⟩ := h.reserved i hres
        have htag' := (h.line x field hx).2.1
        have hblock : field.blockAddr = cfg.getMshrAddr addr := by
          rw [hindex] at htag'
          rw [getTag_getBlockAddr] at htag
          rw [haddr]
          cases hb : c.lines i with
          | line b | sector b =>
            rw [hb] at htag htag'
            exact (of_decide_eq_true htag').symm.trans (of_decide_eq_true htag)
        obtain ⟨l, hl, -⟩ := (ht.fill x field hx).2.2
        rw [← hblock]
        exact probe_iff.mpr ⟨l, hl⟩
    · cases hmiss
    · cases hno
  cases hrequest with
  | failed => cases hmiss
  | merged a mshrs hprobed htag =>
    obtain ⟨status', i', hprobe', hcase⟩ := tagAccess_cases htag
    rw [hlines, hprobe] at hprobe'
    rw [hmshrs] at hprobed
    cases hprobe'
    cases hcase with
    | hitReserved => exact h.congr hlines hextra
    | hit => exact absurd rfl hhit
    | sectorMiss _ hsector => rw [hkind] at hsector; cases hsector
    | sectorMissLater hlater => exact absurd hpolicy hlater
    | miss => rw [hentry rfl] at hprobed; cases hprobed
    | missLater hlater => exact absurd hpolicy hlater
    | reservationFail => exact absurd rfl hfail
  | sent a mshrs hprobed _ htag =>
    obtain ⟨status', i', hprobe', hcase⟩ := tagAccess_cases htag
    rw [hlines, hprobe] at hprobe'
    rw [hmshrs] at hprobed
    cases hprobe'
    cases hcase with
    | hitReserved => rw [hreserved rfl] at hprobed; cases hprobed
    | hit => exact absurd rfl hhit
    | sectorMiss _ hsector => rw [hkind] at hsector; cases hsector
    | sectorMissLater hlater => exact absurd hpolicy hlater
    | missLater hlater => exact absurd hpolicy hlater
    | reservationFail => exact absurd rfl hfail
    | miss =>
      obtain ⟨hfree, hset⟩ := miss_line hprobe
      have hblock := allocate_reserved (h.plain i) (cfg.getTag (cfg.getBlockAddr addr))
        (cfg.getBlockAddr (cfg.getBlockAddr addr)) time
      apply h.allocate hfree hnone (by dsimp only; rw [hlines]) (by dsimp only; rw [hextra])
        hblock.1
      · show CacheBlock.matchTag (cfg.getMshrAddr addr) _ = true
        rw [haddr, getTag_getBlockAddr]
        rw [getTag_getBlockAddr] at hblock
        exact hblock.2
      · rw [isSector_allocate]
        exact h.plain i
      · rfl
      · show cfg.getBlockAddr (cfg.getMshrAddr addr) = cfg.getMshrAddr addr
        rw [haddr, getBlockAddr_getBlockAddr]
      · show ∃ set, cfg.getSetIndex (cfg.getMshrAddr addr) = .ok set ∧ _
        rw [haddr]
        exact hset

/-- The lines and fills after the write-backs of a miss. -/
theorem Reserves.writtenBack {r : ReadRequestResult} (h : Reserves cfg r.state.1)
    (hback : DataCache.writeBackEvicted cfg r.evicted r.state = .ok s') : Reserves cfg s'.1 := by
  rcases writeBackEvicted_cases hback with rfl | ⟨e, -, -, -, hwrote⟩
  · exact h
  · exact h.congr hwrote.lines hwrote.extra

/-- A line that is hit is not reserved. -/
theorem hit_unreserved (hplain : ∀ i, isSector (c.lines i) = false)
    (hprobe : TagArray.probe cfg c.lines addr idx sector = .ok (.hit, i)) :
    (c.lines i).isReservedLine = false := by
  obtain ⟨set, -, ⟨-, hanswer⟩ | ⟨-, ⟨hmiss, -⟩ | ⟨hfail, -⟩⟩⟩ := probe_cases hprobe
  · cases hanswer with
    | hit _ hstatus =>
      cases hres : (c.lines i).isReservedLine with
      | false => rfl
      | true =>
        rw [← plain_getStatus (hplain i) sector] at hres
        rw [hres] at hstatus
        rcases hstatus with hstatus | hstatus <;> cases hstatus
  · cases hmiss
  · cases hfail

theorem isReservedLine_setLastAccessTime (b : CacheBlock) :
    (b.setLastAccessTime time).isReservedLine = b.isReservedLine := by
  cases b <;> rfl

theorem isReservedLine_setStatus {b : CacheBlock} (hplain : isSector b = false) (sector : Sector)
    {st : CacheBlockState} (hst : st ≠ .reserved) :
    (b.setStatus st sector).isReservedLine = false := by
  cases b with
  | line b => exact decide_eq_false hst
  | sector b => cases hplain

/-- An access that is not merged into the entry of a ready block. -/
theorem Reserves.access (h : Reserves cfg s.1) (ht : Tracked (during s.1 memory))
    (hid : Unused (during s.1 memory) id)
    (hkind : cfg.cacheType = .normal) (hpolicy : cfg.allocPolicy = .onMiss)
    (haccess : DataCache.access cfg addr time id s = .ok (accessStatus, s'))
    (hready : ¬MergesReady cfg s.1 (.access (s.1.fetches id) addr time)) : Reserves cfg s'.1 := by
  obtain ⟨status, i, hprobe, houtcome⟩ := access_cases haccess
  have hnotReady (hrequests : Requests cfg s.1 (s.1.fetches id) addr = true)
      (hstatus : status = .miss) : cfg.getMshrAddr addr ∉ s.1.mshrs.currentResponse :=
    fun hmem => hready ⟨⟨i, hstatus ▸ hprobe⟩, hrequests, hmem⟩
  cases houtcome with
  | failed => exact h
  | readHit idx' c hstatus _ htouch =>
    subst hstatus
    obtain ⟨-, rfl⟩ := touch_hit htouch (probe_start i hprobe (by decide))
    have hfree := hit_unreserved h.plain hprobe
    refine h.unreserved hfree ?_ ?_ rfl rfl
    · rw [isReservedLine_setLastAccessTime]; exact hfree
    · rw [isSector_setLastAccessTime]; exact h.plain i
  | writeHit idx' c hstatus _ _ htouch | writeThrough idx' c hstatus _ _ htouch =>
    subst hstatus
    obtain ⟨rfl, rfl⟩ := touch_hit htouch (probe_start i hprobe (by decide))
    have hfree := hit_unreserved h.plain hprobe
    have hplain : isSector ((s.1.lines idx').setLastAccessTime time) = false := by
      rw [isSector_setLastAccessTime]; exact h.plain idx'
    refine h.unreserved hfree ?_ ?_ (Function.update_idem _ _ _) rfl
    · dsimp only
      rw [Function.update_self]
      exact isReservedLine_setStatus hplain _ (by decide)
    · dsimp only
      rw [Function.update_self, isSector_setStatus]
      exact hplain
  | writeEvict hstatus =>
    subst hstatus
    refine h.unreserved (hit_unreserved h.plain hprobe) ?_ ?_ rfl rfl
    · exact isReservedLine_setStatus (h.plain i) _ (by decide)
    · rw [isSector_setStatus]; exact h.plain i
  | writeAround => exact h.congr rfl rfl
  | readMiss r s' hhit hfail hread hroom hrequest hmiss hback =>
    have hrequests : Requests cfg s.1 (s.1.fetches id) addr = true := by
      rw [Requests, hroom, hrequest.room hmiss, hread]
      rfl
    exact (h.read ht hkind hpolicy hrequest rfl rfl rfl (hid.extra ht) hmiss
      (probe_start i hprobe hfail) hhit hfail (hnotReady hrequests)).writtenBack hback
  | writeAllocate r s' hhit hfail _ halloc hroom hrequest hmiss hback =>
    have hrequests : Requests cfg s.1 (s.1.fetches id) addr = true := by
      have hfull : s.1.mshrs.full cfg (cfg.getMshrAddr addr) = false := hrequest.room hmiss
      rw [Requests, hroom, hfull]
      simp [halloc]
    have hnone : s.1.extraMfFields s.1.uniqueUid = none := by
      cases hextra : s.1.extraMfFields s.1.uniqueUid with
      | none => rfl
      | some field => exact absurd (ht.fill _ field hextra).1 (ht.known _ le_rfl).1
    have hprobe' : TagArray.probe cfg s.1.lines (cfg.getBlockAddr addr) i
        (((DataCache.sendWriteRequest id .writeRequestSent s).1.newFetch
          (DataCache.writeAllocFetch cfg (s.1.fetches id))).2.fetches
            s.1.uniqueUid).accessSector = .ok (status, i) := by
      rw [writeAlloc_fetch]
      exact probe_start i hprobe hfail
    exact (h.read ht hkind hpolicy hrequest rfl rfl rfl hnone hmiss hprobe' hhit hfail
      (hnotReady hrequests)).writtenBack hback

/-- The tests that an accepted miss has passed. -/
theorem requests_iff {f : CacheFetch} : Requests cfg c f addr = true ↔
    (f.isWrite = true → cfg.writeAllocPolicy = .writeAllocate) ∧
      c.missQueueFull cfg (missRoom f.isWrite) = false ∧
      c.mshrs.full cfg (cfg.getMshrAddr addr) = false := by
  cases hwrite : f.isWrite <;> simp [Requests, hwrite, and_assoc]

/-- An accepted read of a block that has an entry waits for no fill of its own. -/
theorem ReadRequest.extra_eq {blockAddr : ℕ} {r : ReadRequestResult}
    (h : ReadRequest cfg addr blockAddr idx id time s r)
    (hprobe : s.1.mshrs.probe (cfg.getMshrAddr addr) = true) :
    r.state.1.extraMfFields = s.1.extraMfFields := by
  cases h with
  | failed | merged => rfl
  | sent _ _ hmiss =>
    rw [hprobe] at hmiss
    cases hmiss

/-- A miss that is merged into the entry of a ready block leaves its line without a fill. -/
theorem Reserves.orphaned (h : Reserves cfg s.1) (ht : Tracked (during s.1 memory))
    (hpolicy : cfg.allocPolicy = .onMiss)
    (haccess : DataCache.access cfg addr time id s = .ok (accessStatus, s'))
    (hready : MergesReady cfg s.1 (.access (s.1.fetches id) addr time)) :
    ¬NoOrphan (during s'.1 memory) := by
  obtain ⟨⟨i, hmissed⟩, hrequests, hmem⟩ := hready
  obtain ⟨halloc, hroom, hfull⟩ := requests_iff.mp hrequests
  have hentry := ht.entry _ hmem
  have hfree := (miss_line hmissed).1
  -- the line is reserved, and no fill is sent for it
  have horphan {r : TagArray.AccessResult}
      (htag : TagAccess cfg s.1.lines (cfg.getBlockAddr addr) time i
        (s.1.fetches id).accessSector .miss r)
      (hlines : s'.1.lines = r.lines) (hextra : s'.1.extraMfFields = s.1.extraMfFields) :
      ¬NoOrphan (during s'.1 memory) := by
    intro hno
    have hres : (s'.1.lines i).isReservedLine = true := by
      rw [hlines]
      cases htag with
      | missLater hlater => exact absurd hpolicy hlater
      | miss =>
        dsimp only
        rw [Function.update_self]
        exact (allocate_reserved (h.plain i) _ _ _).1
    obtain ⟨id', ⟨field, hfield, hindex, -⟩, -⟩ := hno.fill i hres
    dsimp only at hfield
    rw [hextra] at hfield
    exact h.ne_line hfree hfield hindex
  obtain ⟨status, idx, hprobe, houtcome⟩ := access_cases haccess
  cases Except.ok.inj (hmissed.symm.trans hprobe)
  have hprobe' := probe_start i hprobe (by decide)
  cases houtcome with
  | failed hfails =>
    exfalso
    cases hfails with
    | lineAlloc hstatus | hitQueue hstatus => cases hstatus
    | aroundQueue hwrite haround =>
      rw [halloc hwrite] at haround
      cases haround
    | missQueue hqueue =>
      rw [hroom] at hqueue
      cases hqueue
    | mshr hfull' =>
      rw [hfull] at hfull'
      cases hfull'
  | readHit _ _ hstatus | writeHit _ _ hstatus | writeThrough _ _ hstatus | writeEvict hstatus =>
    cases hstatus
  | writeAround _ hwrite haround =>
    rw [halloc hwrite] at haround
    cases haround
  | readMiss r s' _ _ _ _ hrequest hmiss hback =>
    obtain ⟨t, htag, hlines⟩ := hrequest.lines_eq hmiss hprobe' hback
    exact horphan htag hlines ((writeBackEvicted_extra hback).trans (hrequest.extra_eq hentry))
  | writeAllocate r s' _ _ _ _ _ hrequest hmiss hback =>
    obtain ⟨t, htag, hlines⟩ := writeAllocate_lines hrequest hmiss hprobe' hback
    exact horphan htag hlines ((writeBackEvicted_extra hback).trans (hrequest.extra_eq hentry))

end

/-! ## Runs -/

section

variable {cfg : CacheConfig} {s s' : CacheSystem}

/-- The reserved lines are those of the outstanding fills, and the fills are on their way. -/
theorem Reserves.noOrphan (h : Reserves cfg s.cache) (ht : Tracked s) : NoOrphan s := by
  constructor
  · intro i hi
    obtain ⟨id, field, hfield, hindex⟩ := h.reserved i hi
    refine ⟨id, ⟨field, hfield, hindex, ?_⟩, ?_⟩
    · exact List.count_eq_one_of_mem ht.way (ht.fill id field hfield).1
    · rintro id' ⟨field', hfield', hindex', -⟩
      exact h.injective id' id field' field hfield' hfield (hindex'.trans hindex.symm)
  · intro hempty i
    cases hi : (s.cache.lines i).isReservedLine with
    | false => rfl
    | true =>
      obtain ⟨id, field, hfield, -⟩ := h.reserved i hi
      have hmem := (ht.fill id field hfield).1
      rw [hempty] at hmem
      cases hmem

/-- A call that merges no miss into the entry of a ready block keeps the reservations. -/
theorem Reserves.step (h : Reserves cfg s.cache) (ht : Tracked s)
    (hkind : cfg.cacheType = .normal) (hpolicy : cfg.allocPolicy = .onMiss) {a : CacheAction}
    (hstep : s.step cfg a = .ok s') (hready : ¬MergesReady cfg s.cache a) :
    Reserves cfg s'.cache := by
  cases a with
  | access f addr time =>
    obtain ⟨cache, hcache, hs⟩ := bind_eq_ok.mp hstep
    cases hs
    obtain ⟨status, events, haccess⟩ := step_access hcache
    refine Reserves.access (h.congr rfl rfl) (ht.newFetch f) (ht.unused_newFetch f) hkind hpolicy
      haccess ?_
    rw [newFetch_fetches]
    exact hready
  | fill id time =>
    dsimp only [CacheSystem.step] at hstep
    split at hstep
    · obtain ⟨cache, hcache, hs⟩ := bind_eq_ok.mp hstep
      cases hs
      rcases step_fill hcache with ⟨-, rfl⟩ | ⟨field, lines, mshrs, hfield, hlines, -, rfl⟩
      · exact h
      · rw [DataCache.fillTagArray, hpolicy] at hlines
        dsimp only [TagArray.fillIndex] at hlines
        rw [if_pos hpolicy] at hlines
        cases hlines
        exact h.fill hfield _ rfl rfl
    · cases hstep
      exact h
  | popNextAccess =>
    obtain ⟨cache, hcache, hs⟩ := bind_eq_ok.mp hstep
    cases hs
    rcases step_pop hcache with rfl | ⟨id, mshrs, hpop, rfl⟩
    · exact h
    · exact h.congr rfl rfl
  | cycle =>
    cases hstep
    exact h.congr rfl rfl

/-- **No orphan reservation**: in a run on a cache with plain lines every reserved line has its
fill, up to the first miss that is merged into the entry of a ready block, and there one has
none. -/
theorem noOrphan_iff (cfg : CacheConfig) (hkind : cfg.cacheType = .normal)
    (hpolicy : cfg.allocPolicy = .onMiss) (tags : ℕ → ℕ × ℕ) (fetches : ℕ → CacheFetch)
    (s : CacheSystem) (hreach : Reach (CacheSystem.step cfg)
      (fun s a => ¬MergesReady cfg s.cache a) { cache := .initial cfg tags fetches } s) :
    NoOrphan s ∧ ∀ a s', s.step cfg a = .ok s' →
      (NoOrphan s' ↔ ¬MergesReady cfg s.cache a) := by
  obtain ⟨ht, h⟩ : Tracked s ∧ Reserves cfg s.cache := by
    apply hreach.invariant
    · refine ⟨tracked_initial cfg tags fetches, ?_, nofun, nofun, ?_⟩
      · intro i
        dsimp only [DataCache.initial, CacheBlock.initial]
        rw [if_neg (by rw [hkind]; decide)]
        rfl
      · intro i hi
        dsimp only [DataCache.initial, CacheBlock.initial] at hi
        rw [if_neg (by rw [hkind]; decide)] at hi
        cases hi
    · rintro s a s' - ⟨ht, h⟩ hready hstep
      exact ⟨ht.step hstep, h.step ht hkind hpolicy hstep hready⟩
  refine ⟨h.noOrphan ht, fun a s' hstep => ⟨fun hno hready => ?_, fun hready => ?_⟩⟩
  · cases a with
    | fill | popNextAccess | cycle => exact hready
    | access f addr time =>
      obtain ⟨cache, hcache, hs⟩ := bind_eq_ok.mp hstep
      cases hs
      obtain ⟨status, events, haccess⟩ := step_access hcache
      refine Reserves.orphaned (s := ((s.cache.newFetch f).2, [])) (h.congr rfl rfl)
        (ht.newFetch f) hpolicy haccess ?_ hno
      rw [newFetch_fetches]
      exact hready
  · exact (h.step ht hkind hpolicy hstep hready).noOrphan (ht.step hstep)

end

/-- A cache with one plain line. -/
def onePlainLine : CacheSystem where
  cache := .initial (smallCache .normal 1 4) (fun _ => (1, 1)) fun _ => readFetch 0 0

/-- The reservations of an empty cache with one plain line. -/
theorem noOrphan_iff_onePlainLine :
    NoOrphan onePlainLine ∧ ∀ a s', onePlainLine.step (smallCache .normal 1 4) a = .ok s' →
      (NoOrphan s' ↔ ¬MergesReady (smallCache .normal 1 4) onePlainLine.cache a) :=
  noOrphan_iff (smallCache .normal 1 4) rfl rfl (fun _ => (1, 1)) (fun _ => readFetch 0 0)
    onePlainLine .init

/-- A block comes in and is evicted by another one before its request is taken out, and then it
is read again.  All requests are taken out in the end. -/
def evictedBeforePop : List CacheAction :=
  [.access (readFetch 0 0) 0 0, .cycle, .fill 0 1, .access (readFetch 32 0) 32 2, .cycle,
    .fill 1 3, .access (readFetch 0 0) 0 4, .popNextAccess, .popNextAccess, .popNextAccess]

/-- A line stays reserved without a fill, even when all requests have been taken out. -/
theorem not_noOrphan :
    ¬∀ (cfg : CacheConfig), cfg.cacheType = .normal → cfg.allocPolicy = .onMiss →
      ∀ (tags : ℕ → ℕ × ℕ) (fetches : ℕ → CacheFetch) (s : CacheSystem),
      Reach (CacheSystem.step cfg) (fun _ _ => True) { cache := .initial cfg tags fetches } s →
      NoOrphan s := by
  intro hall
  obtain ⟨s, hrun, hway, hres⟩ : ∃ s, evictedBeforePop.foldlM
      (CacheSystem.step (smallCache .normal 1 4)) onePlainLine = .ok s ∧
      onWay s = [] ∧ (s.cache.lines 0).isReservedLine = true := ⟨_, rfl, rfl, rfl⟩
  have hno := hall (smallCache .normal 1 4) rfl rfl (fun _ => (1, 1)) (fun _ => readFetch 0 0) s
    (.of_foldlM _ .init hrun fun _ _ _ => trivial)
  rw [hno.drained hway 0] at hres
  cases hres

end PyTorchSim.Analysis
