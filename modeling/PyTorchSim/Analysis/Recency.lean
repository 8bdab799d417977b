import PyTorchSim.Analysis.LineReservation
import PyTorchSim.Analysis.VictimChoice

/-!
# Recency of the victims

A cache with plain lines that evicts by `LRU` gives up the line that was allocated or hit the
longest time ago.  The core counts its cycles in 64 bits, but the time of a call has 32, and so has
the time that a line keeps.  The order of the times is that of the cycles as long as the lines of a
set were last used in the same period of `2 ^ 32` cycles; a line that is used in the next period
looks older than those that wait since the last one.
-/

set_option autoImplicit false

namespace PyTorchSim.Analysis

open PyTorchSim.Model PyTorchSim.Library
open DataCache (WithEvents ReadRequestResult)

/-! ## The uses of lines -/

/-- The core cycle of a call.
SOURCE: L2Cache.cc:27, 61 -/
def coreCycle : CacheAction → Option ℕ
  | .access _ _ n | .fill _ n => some n
  | .popNextAccess | .cycle => none

/-- The call as the cache gets it: the parameter `time` has 32 bits.
SOURCE: Cache.h:286-289 -/
def atCycle : CacheAction → CacheAction
  | .access f addr n => .access f addr (n % 2 ^ 32)
  | .fill id n => .fill id (n % 2 ^ 32)
  | .popNextAccess => .popNextAccess
  | .cycle => .cycle

/-- A miss of this request allocates a line if lines are allocated on a miss. -/
def Allocates (cfg : CacheConfig) (f : CacheFetch) : Prop :=
  f.isWrite = true → cfg.writeAllocPolicy = .writeAllocate

instance (cfg : CacheConfig) (f : CacheFetch) : Decidable (Allocates cfg f) := by
  unfold Allocates
  infer_instance

/-- What an access answers. -/
def accessAnswer (cfg : CacheConfig) (c : DataCache) (f : CacheFetch) (addr time : ℕ) :
    Except CacheFault CacheRequestStatus :=
  (DataCache.access cfg addr time c.uniqueUid ((c.newFetch f).2, [])).map Prod.fst

/-- The line that an access hits or allocates, from its probe and its answer. -/
def accessedLine (cfg : CacheConfig) (f : CacheFetch) :
    CacheRequestStatus × ℕ → CacheRequestStatus → Option ℕ
  | (.hit, i), .hit => some i
  | (.miss, i), .miss => if cfg.allocPolicy = .onMiss ∧ Allocates cfg f then some i else none
  | _, _ => none

/-- The line that a fill allocates. -/
def filledLine (cfg : CacheConfig) (c : DataCache) (id : ℕ) (field : ExtraMfFields) : Option ℕ :=
  match TagArray.probe cfg c.lines field.blockAddr 0 (c.fetches id).accessSector with
  | .ok (.miss, i) => some i
  | _ => none

/-- The line that a call hits or allocates. -/
def usedLine (cfg : CacheConfig) (s : CacheSystem) : CacheAction → Option ℕ
  | .access f addr time =>
    match accessProbe cfg s.cache f addr, accessAnswer cfg s.cache f addr time with
    | .ok probed, .ok answer => accessedLine cfg f probed answer
    | _, _ => none
  | .fill id _ =>
    if id ∈ s.memory ∧ cfg.allocPolicy = .onFill then
      (s.cache.extraMfFields id).bind (filledLine cfg s.cache id)
    else none
  | .popNextAccess | .cycle => none

/-- A cache and the cycle in which each line was last allocated or hit. -/
structure RecencyRun where
  system : CacheSystem
  lastUse : ℕ → ℕ := fun _ => 0

/-- A call in a core cycle. -/
def RecencyRun.step (cfg : CacheConfig) (r : RecencyRun) (a : CacheAction) :
    Except CacheFault RecencyRun := do
  let system ← r.system.step cfg (atCycle a)
  return {
    system
    lastUse :=
      match usedLine cfg r.system (atCycle a), coreCycle a with
      | some i, some n => Function.update r.lastUse i n
      | _, _ => r.lastUse }

/-- The victim of a miss in a set without an invalid line is not reserved, and no other line of the
set that is not reserved was last allocated or hit at an earlier cycle. -/
def TrueRecency (cfg : CacheConfig) (r : RecencyRun) : Prop :=
  ∀ (addr idx i set : ℕ) (s : Sector), cfg.getSetIndex addr = .ok set →
    TagArray.probe cfg r.system.cache.lines addr idx s = .ok (.miss, i) →
    (∀ j ∈ TagArray.setLines cfg set, (r.system.cache.lines j).isInvalidLine = false) →
    i ∈ TagArray.setLines cfg set ∧ (r.system.cache.lines i).isReservedLine = false ∧
      ∀ j ∈ TagArray.setLines cfg set, (r.system.cache.lines j).isReservedLine = false →
        r.lastUse i ≤ r.lastUse j

/-- A line is used in the period in which the other lines of its set that are not invalid were last
used. -/
def SamePeriod (cfg : CacheConfig) (r : RecencyRun) (a : CacheAction) : Prop :=
  ∀ i n, usedLine cfg r.system (atCycle a) = some i → coreCycle a = some n →
    ∀ set, i ∈ TagArray.setLines cfg set → ∀ j ∈ TagArray.setLines cfg set, j ≠ i →
      (r.system.cache.lines j).isInvalidLine = false → r.lastUse j / 2 ^ 32 = n / 2 ^ 32

/-! ## What a call does with the lines -/

section

variable {cfg : CacheConfig} {c c' : DataCache} {addr idx i id time : ℕ} {s s' : WithEvents}
  {status answer : CacheRequestStatus} {sector : Sector}

/-- What an access does with the lines and the outstanding fills, from the answer of its probe: it
changes nothing, it uses a line, or it waits for a line that is reserved. -/
inductive AccessEffect (cfg : CacheConfig) (addr time i : ℕ) (f : CacheFetch) (c c' : DataCache)
    (status answer : CacheRequestStatus) : Prop
  | kept (hused : accessedLine cfg f (status, i) answer = none) (hlines : c'.lines = c.lines)
      (hextra : c'.extraMfFields = c.extraMfFields)
  | used (b : CacheBlock) (hused : accessedLine cfg f (status, i) answer = some i)
      (hlines : c'.lines = Function.update c.lines i b)
      (hfree : (c.lines i).isReservedLine = false)
      (htime : b.isInvalidLine = true ∨ b.getLastAccessTime = time)
      (hextra : c'.extraMfFields = c.extraMfFields ∨ ∃ id field,
        c'.extraMfFields = Function.update c.extraMfFields id (some field) ∧
        field.cacheIndex = i ∧ b.isReservedLine = true ∧ b.matchTag field.blockAddr = true)
  | asked (id : ℕ) (field : ExtraMfFields)
      (hused : accessedLine cfg f (status, i) answer = none) (hlines : c'.lines = c.lines)
      (hextra : c'.extraMfFields = Function.update c.extraMfFields id (some field))
      (hfield : cfg.allocPolicy = .onMiss → field.cacheIndex = i ∧
        (c.lines i).isReservedLine = true ∧ (c.lines i).matchTag field.blockAddr = true)

/-- The outstanding fill of an accepted read request. -/
theorem ReadRequest.extra_cases {blockAddr : ℕ} {r : ReadRequestResult}
    (h : ReadRequest cfg addr blockAddr idx id time s r)
    (hprobe : TagArray.probe cfg s.1.lines blockAddr idx (s.1.fetches id).accessSector =
      .ok (status, i)) :
    r.state.1.extraMfFields = s.1.extraMfFields ∨ ∃ field : ExtraMfFields,
      r.state.1.extraMfFields = Function.update s.1.extraMfFields id (some field) ∧
      field.cacheIndex = i ∧ field.blockAddr = cfg.getMshrAddr addr := by
  cases h with
  | failed | merged => exact .inl rfl
  | sent a mshrs _ _ htag =>
    obtain ⟨status', i', hprobe', hcase⟩ := tagAccess_cases htag
    rw [hprobe] at hprobe'
    cases hprobe'
    exact .inr ⟨_, rfl, hcase.lines_eq.1, rfl⟩

/-- A line that is found reserved, or allocated. -/
theorem accessEffect_of_tagAccess (hkind : cfg.cacheType = .normal)
    (hplain : ∀ i, isSector (c.lines i) = false) {f : CacheFetch} {t : TagArray.AccessResult}
    (htag : TagAccess cfg c.lines (cfg.getBlockAddr addr) time i sector status t)
    (hprobe : TagArray.probe cfg c.lines (cfg.getBlockAddr addr) idx sector = .ok (status, i))
    (hhit : status ≠ .hit) (hfail : status ≠ .reservationFail) (halloc : Allocates cfg f)
    (hlines : c'.lines = t.lines)
    (hextra : c'.extraMfFields = c.extraMfFields ∨ ∃ id field,
      c'.extraMfFields = Function.update c.extraMfFields id (some field) ∧
      field.cacheIndex = i ∧ field.blockAddr = cfg.getMshrAddr addr) :
    AccessEffect cfg addr time i f c c' status .miss := by
  have haddr := getMshrAddr_of_normal hkind addr
  cases htag with
  | hit => exact absurd rfl hhit
  | reservationFail => exact absurd rfl hfail
  | sectorMiss _ hsector =>
    rw [hkind] at hsector
    cases hsector
  | hitReserved =>
    rcases hextra with hextra | ⟨id, field, hextra, hindex, hblock⟩
    · exact .kept rfl hlines hextra
    · refine .asked id field rfl hlines hextra fun _ => ⟨hindex, ?_⟩
      obtain ⟨set, -, ⟨-, hanswer⟩ | ⟨-, ⟨hmiss, -⟩ | ⟨hno, -⟩⟩⟩ := probe_cases hprobe
      · cases hanswer with
        | hitReserved htag hres =>
          rw [plain_getStatus (hplain i)] at hres
          rw [getTag_getBlockAddr] at htag
          rw [hblock, haddr]
          exact ⟨hres, htag⟩
      · cases hmiss
      · cases hno
  | sectorMissLater hlater =>
    rcases hextra with hextra | ⟨id, field, hextra, -⟩
    · exact .kept rfl hlines hextra
    · exact .asked id field rfl hlines hextra fun hpolicy => absurd hpolicy hlater
  | missLater hlater =>
    have hused : accessedLine cfg f (.miss, i) .miss = none := if_neg fun h => hlater h.1
    rcases hextra with hextra | ⟨id, field, hextra, -⟩
    · exact .kept hused hlines hextra
    · exact .asked id field hused hlines hextra fun hpolicy => absurd hpolicy hlater
  | miss hpolicy =>
    have hused : accessedLine cfg f (.miss, i) .miss = some i := if_pos ⟨hpolicy, halloc⟩
    have hblock := allocate_reserved (hplain i) (cfg.getTag (cfg.getBlockAddr addr))
      (cfg.getBlockAddr (cfg.getBlockAddr addr)) time
    refine .used _ hused hlines (miss_line hprobe).1 (.inr ?_) ?_
    · cases c.lines i <;> rfl
    · refine hextra.imp_right ?_
      rintro ⟨id, field, hextra, hindex, hfield⟩
      refine ⟨id, field, hextra, hindex, hblock.1, ?_⟩
      rw [hfield, haddr]
      simpa only [getTag_getBlockAddr] using hblock.2

/-- The access of a cache with plain lines. -/
theorem access_effect (hkind : cfg.cacheType = .normal)
    (hplain : ∀ i, isSector (s.1.lines i) = false)
    (haccess : DataCache.access cfg addr time id s = .ok (answer, s')) :
    ∃ status i, TagArray.probe cfg s.1.lines (cfg.getBlockAddr addr) (2 ^ 32 - 1)
        (s.1.fetches id).accessSector = .ok (status, i) ∧
      AccessEffect cfg addr time i (s.1.fetches id) s.1 s'.1 status answer := by
  obtain ⟨status, i, hprobe, houtcome⟩ := access_cases haccess
  refine ⟨status, i, hprobe, ?_⟩
  cases houtcome with
  | failed =>
    refine .kept ?_ rfl rfl
    cases status <;> rfl
  | readHit idx' c hstatus _ htouch =>
    subst hstatus
    obtain ⟨-, rfl⟩ := touch_hit htouch (probe_start i hprobe (by decide))
    refine .used _ rfl rfl (hit_unreserved hplain hprobe) (.inr ?_) (.inl rfl)
    cases s.1.lines i <;> rfl
  | writeHit idx' c hstatus _ _ htouch | writeThrough idx' c hstatus _ _ htouch =>
    subst hstatus
    obtain ⟨rfl, rfl⟩ := touch_hit htouch (probe_start i hprobe (by decide))
    refine .used _ rfl (Function.update_idem _ _ _) (hit_unreserved hplain hprobe) (.inr ?_)
      (.inl rfl)
    dsimp only
    rw [Function.update_self]
    cases s.1.lines idx' <;> rfl
  | writeEvict hstatus =>
    subst hstatus
    refine .used _ rfl rfl (hit_unreserved hplain hprobe) (.inl ?_) (.inl rfl)
    have hline := hplain i
    change ((s.1.lines i).setStatus .invalid _).isInvalidLine = true
    cases hb : s.1.lines i with
    | line b => rfl
    | sector b =>
      rw [hb] at hline
      cases hline
  | writeAround hhit hwrite hpolicy =>
    refine .kept ?_ rfl rfl
    cases status with
    | miss =>
      refine if_neg fun h => ?_
      rw [h.2 hwrite] at hpolicy
      cases hpolicy
    | hit => exact absurd rfl hhit
    | hitReserved | sectorMiss | reservationFail => rfl
  | readMiss r s' hhit hfail hread _ hrequest hmiss hback =>
    have hprobe' := probe_start i hprobe hfail
    obtain ⟨t, htag, hlines⟩ := hrequest.lines_eq hmiss hprobe' hback
    refine accessEffect_of_tagAccess hkind hplain htag hprobe' hhit hfail ?_ hlines ?_
    · intro hwrite
      rw [hread] at hwrite
      cases hwrite
    · rw [writeBackEvicted_extra hback]
      exact (hrequest.extra_cases hprobe').imp_right fun ⟨field, h⟩ => ⟨id, field, h⟩
  | writeAllocate r s' hhit hfail _ halloc _ hrequest hmiss hback =>
    have hprobe' := probe_start i hprobe hfail
    obtain ⟨t, htag, hlines⟩ := writeAllocate_lines hrequest hmiss hprobe' hback
    refine accessEffect_of_tagAccess hkind hplain htag hprobe' hhit hfail (fun _ => halloc)
      hlines ?_
    have hextra := hrequest.extra_cases (by rw [writeAlloc_fetch]; exact hprobe')
    rw [writeBackEvicted_extra hback]
    exact hextra.imp_right fun ⟨field, h⟩ => ⟨_, field, h⟩

/-- The lines are plain, and an outstanding fill finds the line that was reserved for it. -/
structure FillsReserved (cfg : CacheConfig) (c : DataCache) : Prop where
  plain : ∀ i, isSector (c.lines i) = false
  line : cfg.allocPolicy = .onMiss → ∀ id field, c.extraMfFields id = some field →
    (c.lines field.cacheIndex).isReservedLine = true ∧
      (c.lines field.cacheIndex).matchTag field.blockAddr = true

theorem FillsReserved.access {f : CacheFetch} (h : FillsReserved cfg c)
    (heffect : AccessEffect cfg addr time i f c c' status answer)
    (hplain : ∀ i, isSector (c'.lines i) = false) : FillsReserved cfg c' := by
  refine ⟨hplain, fun hpolicy => ?_⟩
  cases heffect with
  | kept _ hlines hextra =>
    rw [hlines, hextra]
    exact h.line hpolicy
  | used b _ hlines hfree _ hextra =>
    -- the other fills wait for other lines, since this one is not reserved
    have hother : ∀ id field, c.extraMfFields id = some field →
        (c'.lines field.cacheIndex).isReservedLine = true ∧
          (c'.lines field.cacheIndex).matchTag field.blockAddr = true := by
      intro id field hfield
      have hline := h.line hpolicy id field hfield
      have hne : field.cacheIndex ≠ i := by
        rintro rfl
        rw [hline.1] at hfree
        cases hfree
      rw [hlines, Function.update_of_ne hne]
      exact hline
    rcases hextra with hextra | ⟨id, field, hextra, hindex, hres, htag⟩
    · rw [hextra]
      exact hother
    · intro x field' hx
      rw [hextra] at hx
      by_cases hxid : x = id
      · rw [hxid, Function.update_self] at hx
        cases hx
        rw [hlines, hindex, Function.update_self]
        exact ⟨hres, htag⟩
      · rw [Function.update_of_ne hxid] at hx
        exact hother x field' hx
  | asked id field _ hlines hextra hfield =>
    rw [hlines, hextra]
    intro x field' hx
    by_cases hxid : x = id
    · rw [hxid, Function.update_self] at hx
      cases hx
      obtain ⟨hindex, hline⟩ := hfield hpolicy
      rw [hindex]
      exact hline
    · rw [Function.update_of_ne hxid] at hx
      exact h.line hpolicy x field' hx

/-- A line has one tag. -/
theorem matchTag_unique {b : CacheBlock} {tag tag' : ℕ} (h : b.matchTag tag = true)
    (h' : b.matchTag tag' = true) : tag = tag' := by
  cases b with
  | line b | sector b => exact (of_decide_eq_true h).symm.trans (of_decide_eq_true h')

/-- The fill of a block leaves the lines of the other fills alone. -/
theorem FillsReserved.fill {field : ExtraMfFields} {lines : ℕ → CacheBlock}
    (h : FillsReserved cfg c)
    (hdistinct : ∀ id id' field field', c.extraMfFields id = some field →
      c.extraMfFields id' = some field' → field.blockAddr = field'.blockAddr → id = id')
    (hfield : c.extraMfFields id = some field)
    (hfill : c.fillTagArray cfg field time sector = .ok lines) (hlines : c'.lines = lines)
    (hextra : c'.extraMfFields = Function.update c.extraMfFields id none) :
    FillsReserved cfg c' := by
  constructor
  · obtain ⟨k, b, hk, hb⟩ := fillTagArray_lines hfill
    intro j
    rw [hlines, hk]
    by_cases hj : j = k
    · rw [hj, Function.update_self, hb]
      exact h.plain k
    · rw [Function.update_of_ne hj]
      exact h.plain j
  · intro hpolicy x field' hx
    rw [hextra] at hx
    have hxid : x ≠ id := by
      rintro rfl
      rw [Function.update_self] at hx
      cases hx
    rw [Function.update_of_ne hxid] at hx
    have hline := h.line hpolicy x field' hx
    have hne : field'.cacheIndex ≠ field.cacheIndex := by
      intro heq
      rw [heq] at hline
      have htag := matchTag_unique hline.2 (h.line hpolicy id field hfield).2
      exact hxid (hdistinct x id field' field hx hfield htag)
    unfold DataCache.fillTagArray at hfill
    rw [hpolicy] at hfill
    dsimp only [TagArray.fillIndex] at hfill
    rw [if_pos hpolicy] at hfill
    cases hfill
    rw [hlines, Function.update_of_ne hne]
    exact hline

/-! ## What a call does with the times -/

/-- A call changes the time of the line that it uses only, or makes it invalid. -/
inductive LineChange (a : CacheAction) (lines lines' : ℕ → CacheBlock) : Option ℕ → Prop
  | kept (h : ∀ j, (lines' j).isInvalidLine = (lines j).isInvalidLine ∧
      (lines' j).getLastAccessTime = (lines j).getLastAccessTime) : LineChange a lines lines' none
  | used (i : ℕ) (b : CacheBlock) (hlines : lines' = Function.update lines i b)
      (htime : b.isInvalidLine = true ∨ coreCycle a = some b.getLastAccessTime) :
      LineChange a lines lines' (some i)

variable {lines lines' : ℕ → CacheBlock} {a : CacheAction}

theorem LineChange.refl : LineChange a lines lines none := .kept fun _ => ⟨rfl, rfl⟩

/-- The fill of a plain line that is not invalid. -/
theorem LineChange.fill (hplain : isSector (lines i) = false)
    (hvalid : (lines i).isInvalidLine = false) :
    LineChange a lines (Function.update lines i ((lines i).fill sector)) none := by
  refine .kept fun j => ?_
  by_cases hj : j = i
  · rw [hj, Function.update_self, hvalid]
    cases hb : lines i with
    | line b =>
      refine ⟨decide_eq_false ?_, rfl⟩
      dsimp only
      split <;> exact nofun
    | sector b =>
      rw [hb] at hplain
      cases hplain
  · rw [Function.update_of_ne hj]
    exact ⟨rfl, rfl⟩

/-- A line in which a probe finds its tag is not invalid. -/
theorem ProbeAnswer.isInvalidLine {tag : ℕ} {b : CacheBlock} (hplain : isSector b = false)
    (h : ProbeAnswer tag b sector status) : b.isInvalidLine = false := by
  cases b with
  | sector b => cases hplain
  | line b =>
    refine decide_eq_false fun hinvalid => ?_
    have hstatus : (CacheBlock.line b).getStatus sector = .invalid := hinvalid
    cases h with
    | hitReserved _ hst =>
      rw [hstatus] at hst
      cases hst
    | hit _ hst =>
      rw [hstatus] at hst
      rcases hst with hst | hst <;> cases hst
    | sectorMiss _ hst =>
      rcases hst with ⟨hst, -⟩ | ⟨hvalid, -⟩
      · rw [hstatus] at hst
        cases hst
      · have hst : b.status = .valid := of_decide_eq_true hvalid
        have hinv : b.status = .invalid := hinvalid
        rw [hst] at hinv
        cases hinv

/-- A probe fails only where lines are allocated on a miss. -/
theorem probe_ne_reservationFail (hpolicy : cfg.allocPolicy ≠ .onMiss) :
    TagArray.probe cfg lines addr idx sector ≠ .ok (.reservationFail, i) := by
  intro h
  obtain ⟨set, hset, -⟩ := probe_cases h
  rcases probe_eq lines idx sector hset with ⟨answer, hprobe, -, hanswer⟩ | ⟨p, -, -, hprobe⟩
  · rw [h] at hprobe
    cases hprobe
    cases hanswer
  · rw [h, if_neg hpolicy] at hprobe
    split at hprobe
    · cases hprobe
    · split at hprobe <;> cases hprobe

/-- The fill of a block. -/
theorem lineChange_fill (h : FillsReserved cfg c) {field : ExtraMfFields}
    (hfield : c.extraMfFields id = some field)
    (hfill : c.fillTagArray cfg field time (c.fetches id).accessSector = .ok lines) :
    LineChange (.fill id time) c.lines lines
      (if cfg.allocPolicy = .onFill then filledLine cfg c id field else none) := by
  unfold DataCache.fillTagArray at hfill
  cases hpolicy : cfg.allocPolicy with
  | streaming =>
    rw [hpolicy] at hfill
    cases hfill
    exact .refl
  | onMiss =>
    rw [hpolicy] at hfill
    dsimp only [TagArray.fillIndex] at hfill
    rw [if_pos hpolicy] at hfill
    cases hfill
    refine .fill (h.plain _) ?_
    have hres := (h.line hpolicy id field hfield).1
    by_contra hinvalid
    rw [isReservedLine_of_invalid (by simpa using hinvalid)] at hres
    cases hres
  | onFill =>
    rw [hpolicy] at hfill
    obtain ⟨⟨status, i⟩, hprobe, hfill⟩ := bind_eq_ok.mp hfill
    obtain ⟨b, hb, hfill⟩ := bind_eq_ok.mp hfill
    cases hfill
    rw [if_pos rfl, filledLine, hprobe]
    have hanswer (hmiss : status ≠ .miss) (hfail : status ≠ .reservationFail) :
        (c.lines i).isInvalidLine = false := by
      obtain ⟨set, -, ⟨-, hanswer⟩ | ⟨-, ⟨hno, -⟩ | ⟨hno, -⟩⟩⟩ := probe_cases hprobe
      · exact hanswer.isInvalidLine (h.plain i)
      · exact absurd hno hmiss
      · exact absurd hno hfail
    cases status with
    | miss =>
      cases hb
      refine .used i _ rfl (.inr ?_)
      cases c.lines i <;> rfl
    | sectorMiss =>
      dsimp only at hb
      split at hb
      · have hline := h.plain i
        cases hc : c.lines i with
        | line b =>
          rw [hc] at hb
          cases hb
        | sector b =>
          rw [hc] at hline
          cases hline
      · cases hb
    | hit | hitReserved =>
      cases hb
      exact .fill (h.plain i) (hanswer nofun nofun)
    | reservationFail =>
      exact absurd hprobe (probe_ne_reservationFail (by rw [hpolicy]; exact nofun))

end

/-! ## Runs -/

section

variable {cfg : CacheConfig} {s s' : CacheSystem} {a : CacheAction}

/-- What one call does: the outstanding fills keep their lines, and the times change where a line is
used. -/
theorem FillsReserved.step (h : FillsReserved cfg s.cache) (ht : Tracked s)
    (hkind : cfg.cacheType = .normal) (hstep : s.step cfg a = .ok s') :
    FillsReserved cfg s'.cache ∧
      LineChange a s.cache.lines s'.cache.lines (usedLine cfg s a) := by
  cases a with
  | access f addr time =>
    obtain ⟨cache, hcache, hs⟩ := bind_eq_ok.mp hstep
    cases hs
    obtain ⟨answer, events, haccess⟩ := step_access hcache
    obtain ⟨status, i, hprobe, heffect⟩ := access_effect hkind h.plain haccess
    rw [newFetch_fetches] at hprobe heffect
    have hused : usedLine cfg s (.access f addr time) = accessedLine cfg f (status, i) answer := by
      have hprobed : accessProbe cfg s.cache f addr = .ok (status, i) := hprobe
      have hanswer : accessAnswer cfg s.cache f addr time = .ok answer := by
        rw [accessAnswer, haccess]
        rfl
      rw [usedLine, hprobed, hanswer]
    have hstart : FillsReserved cfg (s.cache.newFetch f).2 := ⟨h.plain, h.line⟩
    constructor
    · refine hstart.access heffect fun j => ?_
      obtain ⟨k, b, hk, hb⟩ := access_lines haccess
      dsimp only at hk
      rw [hk]
      by_cases hj : j = k
      · rw [hj, Function.update_self, hb]
        exact h.plain k
      · rw [Function.update_of_ne hj]
        exact h.plain j
    · rw [hused]
      cases heffect with
      | kept hused hlines | asked _ _ hused hlines =>
        rw [hused]
        dsimp only at hlines
        rw [hlines]
        exact .refl
      | used b hused hlines _ htime =>
        rw [hused]
        exact .used i b hlines (htime.imp_right fun htime => congrArg some htime.symm)
  | fill id time =>
    dsimp only [CacheSystem.step] at hstep
    split at hstep
    · next hmem =>
      obtain ⟨cache, hcache, hs⟩ := bind_eq_ok.mp hstep
      cases hs
      rcases step_fill hcache with ⟨hnone, rfl⟩ | ⟨field, lines, mshrs, hfield, hlines, -, rfl⟩
      · refine ⟨h, ?_⟩
        have hused : usedLine cfg s (.fill id time) = none := by
          rw [usedLine, hnone, Option.bind_none, ite_self]
        rw [hused]
        exact .refl
      · refine ⟨h.fill ht.distinct hfield hlines rfl rfl, ?_⟩
        have hused : usedLine cfg s (.fill id time) =
            if cfg.allocPolicy = .onFill then filledLine cfg s.cache id field else none := by
          rw [usedLine, hfield, Option.bind_some]
          simp only [hmem, true_and]
        rw [hused]
        exact lineChange_fill h hfield hlines
    · next hmem =>
      cases hstep
      refine ⟨h, ?_⟩
      have hused : usedLine cfg s (.fill id time) = none := if_neg fun h => hmem h.1
      rw [hused]
      exact .refl
  | popNextAccess =>
    obtain ⟨cache, hcache, hs⟩ := bind_eq_ok.mp hstep
    cases hs
    rcases step_pop hcache with rfl | ⟨id, mshrs, hpop, rfl⟩
    · exact ⟨h, .refl⟩
    · exact ⟨⟨h.plain, h.line⟩, .refl⟩
  | cycle =>
    cases hstep
    exact ⟨⟨h.plain, h.line⟩, .refl⟩

/-- The lines keep the cycles of their last uses in 32 bits, and those of a set agree in the bits
above. -/
structure KeepsCycles (cfg : CacheConfig) (lines : ℕ → CacheBlock) (lastUse : ℕ → ℕ) : Prop where
  time : ∀ j, (lines j).isInvalidLine = false →
    (lines j).getLastAccessTime = lastUse j % 2 ^ 32
  period : ∀ set, ∀ j ∈ TagArray.setLines cfg set, ∀ k ∈ TagArray.setLines cfg set,
    (lines j).isInvalidLine = false → (lines k).isInvalidLine = false →
    lastUse j / 2 ^ 32 = lastUse k / 2 ^ 32

variable {lines lines' : ℕ → CacheBlock} {lastUse : ℕ → ℕ}

theorem KeepsCycles.kept (h : KeepsCycles cfg lines lastUse)
    (hkept : ∀ j, (lines' j).isInvalidLine = (lines j).isInvalidLine ∧
      (lines' j).getLastAccessTime = (lines j).getLastAccessTime) :
    KeepsCycles cfg lines' lastUse := by
  constructor
  · intro j hj
    rw [(hkept j).1] at hj
    rw [(hkept j).2]
    exact h.time j hj
  · intro set j hj k hk hjv hkv
    rw [(hkept j).1] at hjv
    rw [(hkept k).1] at hkv
    exact h.period set j hj k hk hjv hkv

theorem KeepsCycles.used (h : KeepsCycles cfg lines lastUse) {i n : ℕ} {b : CacheBlock}
    (htime : b.isInvalidLine = true ∨ b.getLastAccessTime = n % 2 ^ 32)
    (hperiod : ∀ set, i ∈ TagArray.setLines cfg set → ∀ j ∈ TagArray.setLines cfg set, j ≠ i →
      (lines j).isInvalidLine = false → lastUse j / 2 ^ 32 = n / 2 ^ 32) :
    KeepsCycles cfg (Function.update lines i b) (Function.update lastUse i n) := by
  constructor
  · intro j hj
    by_cases hji : j = i
    · rw [hji, Function.update_self] at hj ⊢
      rw [Function.update_self]
      exact htime.resolve_left (by rw [hj]; decide)
    · rw [Function.update_of_ne hji] at hj ⊢
      rw [Function.update_of_ne hji]
      exact h.time j hj
  · intro set j hj k hk hjv hkv
    by_cases hji : j = i <;> by_cases hki : k = i
    · rw [hji, hki]
    · subst hji
      rw [Function.update_of_ne hki] at hkv
      rw [Function.update_self, Function.update_of_ne hki]
      exact (hperiod set hj k hk hki hkv).symm
    · subst hki
      rw [Function.update_of_ne hji] at hjv
      rw [Function.update_self, Function.update_of_ne hji]
      exact hperiod set hk j hj hji hjv
    · rw [Function.update_of_ne hji] at hjv
      rw [Function.update_of_ne hki] at hkv
      rw [Function.update_of_ne hji, Function.update_of_ne hki]
      exact h.period set j hj k hk hjv hkv

/-- The times order the lines of a set as the cycles of their last uses do. -/
theorem KeepsCycles.trueRecency {r : RecencyRun}
    (h : KeepsCycles cfg r.system.cache.lines r.lastUse) (hevict : cfg.evictPolicy = .lru) :
    TrueRecency cfg r := by
  intro addr idx i set sector hset hprobe hvalid
  obtain ⟨hi, hres, holdest⟩ := probe_miss_oldest hset hprobe hvalid
  refine ⟨hi, hres, fun j hj hjres => ?_⟩
  have hle := holdest j hj hjres
  simp only [TagArray.evictTime, hevict] at hle
  rw [h.time i (hvalid i hi), h.time j (hvalid j hj)] at hle
  have hperiod := h.period set i hi j hj (hvalid i hi) (hvalid j hj)
  calc r.lastUse i = 2 ^ 32 * (r.lastUse i / 2 ^ 32) + r.lastUse i % 2 ^ 32 :=
        (Nat.div_add_mod _ _).symm
    _ ≤ 2 ^ 32 * (r.lastUse j / 2 ^ 32) + r.lastUse j % 2 ^ 32 := by
        rw [hperiod]
        exact Nat.add_le_add_left hle _
    _ = r.lastUse j := Nat.div_add_mod _ _

/-- The cycle of a call in 32 bits. -/
theorem coreCycle_atCycle (a : CacheAction) :
    coreCycle (atCycle a) = (coreCycle a).map (· % 2 ^ 32) := by
  cases a <;> rfl

theorem RecencyRun.step_cases {r r' : RecencyRun} (h : r.step cfg a = .ok r') :
    r.system.step cfg (atCycle a) = .ok r'.system ∧
      r'.lastUse = match usedLine cfg r.system (atCycle a), coreCycle a with
        | some i, some n => Function.update r.lastUse i n
        | _, _ => r.lastUse := by
  obtain ⟨system, hsystem, h⟩ := bind_eq_ok.mp h
  cases h
  exact ⟨hsystem, rfl⟩

/-- A line that is used in the period of the others keeps the cycle. -/
theorem KeepsCycles.step {r r' : RecencyRun}
    (h : KeepsCycles cfg r.system.cache.lines r.lastUse)
    (hchange : LineChange (atCycle a) r.system.cache.lines r'.system.cache.lines
      (usedLine cfg r.system (atCycle a)))
    (hsame : SamePeriod cfg r a) (hstep : r.step cfg a = .ok r') :
    KeepsCycles cfg r'.system.cache.lines r'.lastUse := by
  obtain ⟨-, hlast⟩ := RecencyRun.step_cases hstep
  unfold SamePeriod at hsame
  cases hcycle : coreCycle a with
  | none =>
    have hnone : usedLine cfg r.system (atCycle a) = none := by
      cases a with
      | access | fill => cases hcycle
      | popNextAccess | cycle => rfl
    rw [hnone] at hchange hlast
    rw [hlast]
    cases hchange with
    | kept hkept => exact h.kept hkept
  | some n =>
    generalize usedLine cfg r.system (atCycle a) = used at hchange hlast hsame
    rw [hcycle] at hlast
    cases hchange with
    | kept hkept =>
      rw [hlast]
      exact h.kept hkept
    | used i b hlines htime =>
      rw [hlast, hlines]
      refine h.used (htime.imp_right fun htime => ?_) (hsame i n rfl hcycle)
      rw [coreCycle_atCycle, hcycle] at htime
      exact (Option.some.inj htime).symm

/-- A run whose cycles fit into 32 bits has one period. -/
theorem samePeriod_of_lt {r₀ r : RecencyRun} (hstart : ∀ j, r₀.lastUse j < 2 ^ 32)
    (h : Reach (RecencyRun.step cfg) (fun _ a => ∀ n, coreCycle a = some n → n < 2 ^ 32) r₀ r) :
    Reach (RecencyRun.step cfg) (SamePeriod cfg) r₀ r ∧ ∀ j, r.lastUse j < 2 ^ 32 := by
  induction h with
  | init => exact ⟨.init, hstart⟩
  | @step r r' a _ hlt hstep ih =>
    obtain ⟨hreach, hlast⟩ := ih
    refine ⟨hreach.step a ?_ hstep, fun j => ?_⟩
    · intro i n _ hn set _ j _ _ _
      rw [Nat.div_eq_of_lt (hlast j), Nat.div_eq_of_lt (hlt n hn)]
    · rw [(RecencyRun.step_cases hstep).2]
      split
      · next i n _ hn =>
        by_cases hj : j = i
        · rw [hj, Function.update_self]
          exact hlt n hn
        · rw [Function.update_of_ne hj]
          exact hlast j
      · exact hlast j

/-- **LRU is true recency**: in a run in which every line is used in the period of `2 ^ 32` cycles
in which the other lines of its set were last used, the victim of a miss is a line that no other
one has been waiting longer than. -/
theorem trueRecency_of_reach (cfg : CacheConfig) (hkind : cfg.cacheType = .normal)
    (hevict : cfg.evictPolicy = .lru) (tags : ℕ → ℕ × ℕ) (fetches : ℕ → CacheFetch)
    (r : RecencyRun) (hreach : Reach (RecencyRun.step cfg) (SamePeriod cfg)
      { system := { cache := .initial cfg tags fetches } } r) : TrueRecency cfg r := by
  have hinv : Tracked r.system ∧ FillsReserved cfg r.system.cache ∧
      KeepsCycles cfg r.system.cache.lines r.lastUse := by
    apply hreach.invariant
    · have hline (i : ℕ) : (DataCache.initial cfg tags fetches).lines i =
          .line { tag := (tags i).1, blockAddr := (tags i).2 } :=
        if_neg (by rw [hkind]; decide)
      refine ⟨tracked_initial cfg tags fetches, ⟨fun i => ?_, fun _ => nofun⟩,
        fun j hj => ?_, fun _ _ _ _ _ _ _ => rfl⟩
      · rw [hline]
        rfl
      · rw [hline] at hj
        cases hj
    · rintro r a r' - ⟨ht, hfills, hkeeps⟩ hsame hstep
      have hsystem := (RecencyRun.step_cases hstep).1
      obtain ⟨hfills', hchange⟩ := hfills.step ht hkind hsystem
      exact ⟨ht.step hsystem, hfills', hkeeps.step hchange hsame hstep⟩
  exact hinv.2.2.trueRecency hevict

end

/-- A cache with two plain lines. -/
def twoPlainLines : RecencyRun where
  system := { cache := .initial (smallCache .normal 2 4) (fun _ => (1, 1)) fun _ => readFetch 0 0 }

/-- Two blocks come in, one after the other. -/
def readTwoBlocks (n : ℕ) : List CacheAction :=
  [.access (readFetch 0 0) 0 n, .cycle, .fill 0 n, .popNextAccess,
    .access (readFetch 32 0) 32 (n + 1), .cycle, .fill 1 (n + 1)]

theorem trueRecency_of_reach_twoBlocks : ∃ r : RecencyRun,
    (readTwoBlocks 5).foldlM (RecencyRun.step (smallCache .normal 2 4)) twoPlainLines = .ok r ∧
    TrueRecency (smallCache .normal 2 4) r := by
  obtain ⟨r, hrun⟩ : ∃ r, (readTwoBlocks 5).foldlM (RecencyRun.step (smallCache .normal 2 4))
      twoPlainLines = .ok r := ⟨_, rfl⟩
  refine ⟨r, hrun, trueRecency_of_reach (smallCache .normal 2 4) rfl rfl (fun _ => (1, 1))
    (fun _ => readFetch 0 0) r ?_⟩
  refine (samePeriod_of_lt (fun _ => Nat.two_pow_pos 32) ?_).1
  refine Reach.of_foldlM _ .init hrun fun _ a ha n hn => ?_
  revert a
  simp only [readTwoBlocks, List.forall_mem_cons, coreCycle]
  refine ⟨?_, nofun, ?_, nofun, ?_, nofun, ?_, nofun⟩ <;>
  · intro hn
    cases hn
    decide

/-- The second block comes in at the cycle `2 ^ 32` and is the next victim, although the first one
has been waiting longer. -/
theorem not_trueRecency : ∃ r : RecencyRun,
    (readTwoBlocks (2 ^ 32 - 1)).foldlM (RecencyRun.step (smallCache .normal 2 4)) twoPlainLines =
      .ok r ∧
    ((readTwoBlocks (2 ^ 32 - 1)).filterMap coreCycle).Pairwise (· ≤ ·) ∧
    TagArray.probe (smallCache .normal 2 4) r.system.cache.lines 64 0 0 = .ok (.miss, 0) ∧
    r.lastUse 1 < r.lastUse 0 ∧ ¬TrueRecency (smallCache .normal 2 4) r := by
  obtain ⟨r, hrun, hprobe, hvalid, hvalid', hres, hfirst, hsecond⟩ : ∃ r,
      (readTwoBlocks (2 ^ 32 - 1)).foldlM (RecencyRun.step (smallCache .normal 2 4))
        twoPlainLines = .ok r ∧
      TagArray.probe (smallCache .normal 2 4) r.system.cache.lines 64 0 0 = .ok (.miss, 0) ∧
      (r.system.cache.lines 0).isInvalidLine = false ∧
      (r.system.cache.lines 1).isInvalidLine = false ∧
      (r.system.cache.lines 1).isReservedLine = false ∧
      r.lastUse 1 = 4294967295 ∧ r.lastUse 0 = 4294967296 :=
    ⟨_, rfl, rfl, rfl, rfl, rfl, rfl, rfl⟩
  have hlt : r.lastUse 1 < r.lastUse 0 := by
    rw [hfirst, hsecond]
    decide
  refine ⟨r, hrun, by decide, hprobe, hlt, fun h => ?_⟩
  obtain ⟨-, -, holdest⟩ := h 64 0 0 0 0 rfl hprobe (by simp [TagArray.setLines, smallCache,
    List.range_succ, hvalid, hvalid'])
  exact absurd (holdest 1 (by decide) hres) (not_le.mpr hlt)

end PyTorchSim.Analysis
