import PyTorchSim.Analysis.CacheAccess

/-!
# The lines of the tag array

A probe says which line it found and why; an access of the tag array changes that line only.
The lemmas here are about one line, or about one probe.
-/

set_option autoImplicit false

namespace PyTorchSim.Analysis

open PyTorchSim.Model PyTorchSim.Library

/-! ## The two kinds of lines -/

/-- The lines of a cache are all plain or all of sectors. -/
def isSector : CacheBlock → Bool
  | .line _ => false
  | .sector _ => true

section

variable (b : CacheBlock) (s : Sector)

@[simp] theorem isSector_allocate (tag blockAddr time : ℕ) :
    isSector (b.allocate tag blockAddr time) = isSector b := by
  cases b <;> rfl

@[simp] theorem isSector_setStatus (status : CacheBlockState) :
    isSector (b.setStatus status s) = isSector b := by
  cases b <;> rfl

@[simp] theorem isSector_setLastAccessTime (time : ℕ) :
    isSector (b.setLastAccessTime time) = isSector b := by
  cases b <;> rfl

@[simp] theorem isSector_fill : isSector (b.fill s) = isSector b := by
  cases b <;> rfl

theorem isSector_allocateSector {time : ℕ} {b' : CacheBlock}
    (h : b.allocateSector time s = .ok b') : isSector b' = isSector b := by
  cases b with
  | line b => cases h
  | sector b =>
    rw [CacheBlock.allocateSector] at h
    by_cases hvalid : (CacheBlock.sector b).isValidLine = true
    · rw [if_pos hvalid] at h
      cases h
      rfl
    · rw [if_neg hvalid] at h
      cases h

end

/-! ## A probe -/

section

variable {cfg : CacheConfig} {lines : ℕ → CacheBlock} {addr time idx : ℕ} {s : Sector}

/-- What an access of the tag array does with the line that the probe found. -/
inductive TagAccess (cfg : CacheConfig) (lines : ℕ → CacheBlock) (addr time i : ℕ) (s : Sector) :
    CacheRequestStatus → TagArray.AccessResult → Prop
  | hitReserved : TagAccess cfg lines addr time i s .hitReserved ⟨.hitReserved, i, lines, none⟩
  | hit : TagAccess cfg lines addr time i s .hit
      ⟨.hit, i, Function.update lines i ((lines i).setLastAccessTime time), none⟩
  | sectorMiss (b : CacheBlock) (hkind : cfg.cacheType = .sector)
      (hpolicy : cfg.allocPolicy = .onMiss)
      (halloc : (lines i).allocateSector time s = .ok b) :
      TagAccess cfg lines addr time i s .sectorMiss
        ⟨.sectorMiss, i, Function.update lines i b, none⟩
  | sectorMissLater (hpolicy : cfg.allocPolicy ≠ .onMiss) :
      TagAccess cfg lines addr time i s .sectorMiss ⟨.sectorMiss, i, lines, none⟩
  | miss (hpolicy : cfg.allocPolicy = .onMiss) :
      TagAccess cfg lines addr time i s .miss
        ⟨.miss, i, Function.update lines i
            ((lines i).allocate (cfg.getTag addr) (cfg.getBlockAddr addr) time),
          if (lines i).isModifiedLine then
            some {
              blockAddr := (lines i).getBlockAddr
              modifiedSize := (lines i).getModifiedSize cfg.sectorSize
              dirtyMask := TagArray.statusMask ((lines i).getStatus s) }
          else none⟩
  | missLater (hpolicy : cfg.allocPolicy ≠ .onMiss) :
      TagAccess cfg lines addr time i s .miss ⟨.miss, i, lines, none⟩
  | reservationFail :
      TagAccess cfg lines addr time i s .reservationFail ⟨.reservationFail, i, lines, none⟩

theorem tagAccess_cases {r : TagArray.AccessResult}
    (h : TagArray.access cfg lines addr time idx s = .ok r) :
    ∃ status i, TagArray.probe cfg lines addr idx s = .ok (status, i) ∧
      TagAccess cfg lines addr time i s status r := by
  obtain ⟨⟨status, i⟩, hprobe, h⟩ := bind_eq_ok.mp h
  refine ⟨status, i, hprobe, ?_⟩
  cases status with
  | hitReserved =>
    cases h
    exact .hitReserved
  | hit =>
    cases h
    exact .hit
  | sectorMiss =>
    dsimp only at h
    split at h
    · cases h
    next hkind =>
    split at h
    · next hpolicy =>
      obtain ⟨b, halloc, h⟩ := bind_eq_ok.mp h
      cases h
      exact .sectorMiss b (not_not.mp hkind) hpolicy halloc
    · next hpolicy =>
      cases h
      exact .sectorMissLater hpolicy
  | miss =>
    dsimp only at h
    split at h
    · next hpolicy =>
      cases h
      exact .miss hpolicy
    · next hpolicy =>
      cases h
      exact .missLater hpolicy
  | reservationFail =>
    cases h
    exact .reservationFail

/-- An access of the tag array changes the line that the probe found, and no other. -/
theorem TagAccess.lines_eq {status : CacheRequestStatus} {r : TagArray.AccessResult} {i : ℕ}
    (h : TagAccess cfg lines addr time i s status r) :
    r.idx = i ∧ ∃ b, r.lines = Function.update lines i b ∧ isSector b = isSector (lines i) := by
  cases h with
  | hit => exact ⟨rfl, _, rfl, isSector_setLastAccessTime _ _⟩
  | sectorMiss b _ _ halloc => exact ⟨rfl, b, rfl, isSector_allocateSector _ _ halloc⟩
  | miss => exact ⟨rfl, _, rfl, isSector_allocate _ _ _ _⟩
  | hitReserved => exact ⟨rfl, _, (Function.update_eq_self i lines).symm, rfl⟩
  | sectorMissLater => exact ⟨rfl, _, (Function.update_eq_self i lines).symm, rfl⟩
  | missLater => exact ⟨rfl, _, (Function.update_eq_self i lines).symm, rfl⟩
  | reservationFail => exact ⟨rfl, _, (Function.update_eq_self i lines).symm, rfl⟩

/-- The line that a probe starts with does not matter to the loop over the ways. -/
theorem probeWays_start (cfg : CacheConfig) (lines : ℕ → CacheBlock) (s : Sector) (tag : ℕ)
    (ways : List ℕ) (p : ProbeScan) (j : ℕ) :
    ∃ k : ℕ, ways.foldlM (TagArray.probeWay cfg lines tag s) { p with idx := j } =
      (ways.foldlM (TagArray.probeWay cfg lines tag s) p).map fun p' => { p' with idx := k } := by
  induction ways generalizing p j with
  | nil => exact ⟨j, rfl⟩
  | cons way ways ih =>
    simp only [List.foldlM_cons]
    cases hway : TagArray.probeWay cfg lines tag s p way with
    | error answer =>
      have hway' : TagArray.probeWay cfg lines tag s { p with idx := j } way = .error answer := by
        revert hway
        unfold TagArray.probeWay
        dsimp only
        split_ifs <;> simp
      rw [hway']
      exact ⟨0, rfl⟩
    | ok q =>
      obtain ⟨m, hway'⟩ : ∃ m, TagArray.probeWay cfg lines tag s { p with idx := j } way =
          .ok { q with idx := m } := by
        revert hway
        unfold TagArray.probeWay
        dsimp only
        split_ifs <;> intro hway <;> cases hway <;> exact ⟨_, rfl⟩
      rw [hway']
      exact ih q m

/-- A probe finds the same line wherever it starts, unless it fails. -/
theorem probe_start {status : CacheRequestStatus} {i : ℕ} (j : ℕ)
    (h : TagArray.probe cfg lines addr idx s = .ok (status, i))
    (hfail : status ≠ .reservationFail) :
    TagArray.probe cfg lines addr j s = .ok (status, i) := by
  obtain ⟨set, hset, h⟩ := bind_eq_ok.mp h
  obtain ⟨k, hk⟩ := probeWays_start cfg lines s (cfg.getTag addr) (TagArray.setLines cfg set)
    { idx := idx } j
  unfold TagArray.probe
  rw [hset]
  dsimp only [bind, Except.bind]
  dsimp only at hk
  rw [hk]
  cases hscan : (TagArray.setLines cfg set).foldlM (TagArray.probeWay cfg lines
    (cfg.getTag addr) s) { idx := idx } with
  | error answer =>
    rw [hscan] at h
    exact h
  | ok p =>
    rw [hscan] at h
    dsimp only [Except.map] at h ⊢
    by_cases hres : p.allReserved = true
    · rw [if_pos hres] at h
      split_ifs at h
      cases h
      exact absurd rfl hfail
    · rw [if_neg hres] at h ⊢
      exact h

/-- What an answer of a probe says about the line it gives. -/
inductive ProbeAnswer (tag : ℕ) (b : CacheBlock) (s : Sector) : CacheRequestStatus → Prop
  | hitReserved (htag : b.matchTag tag = true) (hstatus : b.getStatus s = .reserved) :
      ProbeAnswer tag b s .hitReserved
  | hit (htag : b.matchTag tag = true)
      (hstatus : b.getStatus s = .valid ∨ b.getStatus s = .modified) : ProbeAnswer tag b s .hit
  | sectorMiss (htag : b.matchTag tag = true)
      (hstatus : (b.getStatus s = .modified ∧ b.isReadable s = false) ∨
        (b.isValidLine = true ∧ b.getStatus s = .invalid)) : ProbeAnswer tag b s .sectorMiss

/-- A line with the tag that a probe passes over: the sector is invalid and the line is not
valid. -/
def PassedOver (tag : ℕ) (s : Sector) (b : CacheBlock) : Prop :=
  b.matchTag tag = true → b.getStatus s = .invalid ∧ b.isValidLine = false

/-- A line that may be taken for another tag. -/
def Evictable (tag : ℕ) (b : CacheBlock) : Prop :=
  b.matchTag tag = false ∧ b.isReservedLine = false

/-- The loop over the ways has passed the lines `seen`. -/
structure Scanned (lines : ℕ → CacheBlock) (tag : ℕ) (s : Sector) (seen : List ℕ)
    (p : ProbeScan) : Prop where
  passed : ∀ j ∈ seen, PassedOver tag s (lines j)
  invalid : ∀ i, p.invalidLine = some i → i ∈ seen ∧ Evictable tag (lines i)
  valid : ∀ i, p.validLine = some i → i ∈ seen ∧ Evictable tag (lines i)
  reserved : p.allReserved = true →
    ∀ j ∈ seen, (lines j).matchTag tag = true ∨ (lines j).isReservedLine = true

/-- A line whose sector is neither reserved nor valid nor modified is invalid. -/
theorem getStatus_eq_invalid {b : CacheBlock} (hr : b.getStatus s ≠ .reserved)
    (hv : b.getStatus s ≠ .valid) (hm : b.getStatus s ≠ .modified) :
    b.getStatus s = .invalid := by
  cases h : b.getStatus s with
  | invalid => rfl
  | reserved => exact absurd h hr
  | valid => exact absurd h hv
  | modified => exact absurd h hm

/-- One way of the set. -/
theorem probeWay_cases (cfg : CacheConfig) (way : ℕ) {tag : ℕ} {p : ProbeScan} {seen : List ℕ}
    (hp : Scanned lines tag s seen p) :
    match TagArray.probeWay cfg lines tag s p way with
    | .error answer => answer.2 = way ∧ ProbeAnswer tag (lines way) s answer.1
    | .ok q => Scanned lines tag s (seen ++ [way]) q := by
  have hseen (j : ℕ) (hj : j ∈ seen ++ [way]) : j ∈ seen ∨ j = way := by simpa using hj
  have hkeep {i : ℕ} (hi : i ∈ seen ∧ Evictable tag (lines i)) :
      i ∈ seen ++ [way] ∧ Evictable tag (lines i) := ⟨List.mem_append_left _ hi.1, hi.2⟩
  unfold TagArray.probeWay
  dsimp only
  by_cases htag : (lines way).matchTag tag = true
  · rw [if_pos htag]
    by_cases hres : (lines way).getStatus s = .reserved
    · rw [if_pos hres]
      exact ⟨rfl, .hitReserved htag hres⟩
    rw [if_neg hres]
    by_cases hhit : (lines way).getStatus s = .valid ∨
        ((lines way).getStatus s = .modified ∧ (lines way).isReadable s = true)
    · rw [if_pos hhit]
      exact ⟨rfl, .hit htag (hhit.imp_right And.left)⟩
    rw [if_neg hhit]
    by_cases hsector : ((lines way).getStatus s = .modified ∧ (!(lines way).isReadable s) = true) ∨
        ((lines way).isValidLine = true ∧ (lines way).getStatus s = .invalid)
    · rw [if_pos hsector]
      exact ⟨rfl, .sectorMiss htag (by simpa using hsector)⟩
    rw [if_neg hsector]
    rw [not_or, not_and] at hhit
    rw [not_or, not_and, not_and] at hsector
    have hmod : (lines way).getStatus s ≠ .modified := by
      intro hmod
      have hread := hhit.2 hmod
      have hnot := hsector.1 hmod
      simp [hread] at hnot
    have hinv := getStatus_eq_invalid hres hhit.1 hmod
    refine ⟨?_, fun i hi => hkeep (hp.invalid i hi), fun i hi => hkeep (hp.valid i hi), ?_⟩
    · intro j hj
      rcases hseen j hj with hj | rfl
      · exact hp.passed j hj
      · exact fun _ => ⟨hinv, by simpa using fun hv => hsector.2 hv hinv⟩
    · intro hall j hj
      rcases hseen j hj with hj | rfl
      · exact hp.reserved hall j hj
      · exact .inl htag
  · rw [if_neg htag]
    have htag' : (lines way).matchTag tag = false := by simpa using htag
    have hpassed (j : ℕ) (hj : j ∈ seen ++ [way]) : PassedOver tag s (lines j) := by
      rcases hseen j hj with hj | rfl
      · exact hp.passed j hj
      · exact fun h => absurd h htag
    by_cases hres : (lines way).isReservedLine = true
    · rw [hres]
      simp only [Bool.not_true, Bool.false_eq_true, if_false]
      refine ⟨hpassed, fun i hi => hkeep (hp.invalid i hi), fun i hi => hkeep (hp.valid i hi), ?_⟩
      intro hall j hj
      rcases hseen j hj with hj | rfl
      · exact hp.reserved hall j hj
      · exact .inr hres
    · have hres' : (lines way).isReservedLine = false := by simpa using hres
      have hmem : way ∈ seen ++ [way] := by simp
      rw [hres']
      simp only [Bool.not_false, if_true]
      split_ifs
      · exact ⟨hpassed, fun i hi => by cases hi; exact ⟨hmem, htag', hres'⟩,
          fun i hi => hkeep (hp.valid i hi), nofun⟩
      · exact ⟨hpassed, fun i hi => hkeep (hp.invalid i hi),
          fun i hi => by cases hi; exact ⟨hmem, htag', hres'⟩, nofun⟩
      · exact ⟨hpassed, fun i hi => hkeep (hp.invalid i hi), fun i hi => hkeep (hp.valid i hi),
          nofun⟩

/-- The loop over the ways. -/
theorem probeWays_cases (cfg : CacheConfig) {tag : ℕ} (ways : List ℕ) {p : ProbeScan}
    {seen : List ℕ}
    (hp : Scanned lines tag s seen p) :
    match ways.foldlM (TagArray.probeWay cfg lines tag s) p with
    | .error answer => answer.2 ∈ ways ∧ ProbeAnswer tag (lines answer.2) s answer.1
    | .ok q => Scanned lines tag s (seen ++ ways) q := by
  induction ways generalizing p seen with
  | nil =>
    rw [List.append_nil]
    exact hp
  | cons way ways ih =>
    rw [List.foldlM_cons]
    have hway := probeWay_cases cfg way hp
    cases hcase : TagArray.probeWay cfg lines tag s p way with
    | error answer =>
      rw [hcase] at hway
      obtain ⟨hidx, hanswer⟩ := hway
      exact ⟨by rw [hidx]; exact List.mem_cons_self, by rw [hidx]; exact hanswer⟩
    | ok q =>
      rw [hcase] at hway
      have htail := ih hway
      rw [List.append_assoc, List.singleton_append] at htail
      change match ways.foldlM (TagArray.probeWay cfg lines tag s) q with
        | .error answer => _ | .ok q' => _
      cases hrest : ways.foldlM (TagArray.probeWay cfg lines tag s) q with
      | error answer =>
        rw [hrest] at htail
        exact ⟨List.mem_cons_of_mem _ htail.1, htail.2⟩
      | ok q' =>
        rw [hrest] at htail
        exact htail

/-- What a probe says: it found the tag in a line of the set, or no line of the set holds the
sector and a line that is not reserved is given up for it, or all lines are reserved. -/
theorem probe_cases {status : CacheRequestStatus} {i : ℕ}
    (h : TagArray.probe cfg lines addr idx s = .ok (status, i)) :
    ∃ set, cfg.getSetIndex addr = .ok set ∧
      ((i ∈ TagArray.setLines cfg set ∧ ProbeAnswer (cfg.getTag addr) (lines i) s status) ∨
        ((∀ j ∈ TagArray.setLines cfg set, PassedOver (cfg.getTag addr) s (lines j)) ∧
          ((status = .miss ∧ i ∈ TagArray.setLines cfg set ∧
              Evictable (cfg.getTag addr) (lines i)) ∨
            (status = .reservationFail ∧ ∀ j ∈ TagArray.setLines cfg set,
              (lines j).matchTag (cfg.getTag addr) = true ∨ (lines j).isReservedLine = true)))) := by
  obtain ⟨set, hset, h⟩ := bind_eq_ok.mp h
  refine ⟨set, hset, ?_⟩
  have hstart : Scanned lines (cfg.getTag addr) s [] { idx := idx } :=
    ⟨nofun, nofun, nofun, fun _ => nofun⟩
  have hscan := probeWays_cases cfg (TagArray.setLines cfg set) hstart
  cases hcase : (TagArray.setLines cfg set).foldlM (TagArray.probeWay cfg lines
      (cfg.getTag addr) s) { idx := idx } with
  | error answer =>
    rw [hcase] at h hscan
    cases h
    exact .inl hscan
  | ok p =>
    rw [hcase] at h hscan
    rw [List.nil_append] at hscan
    right
    refine ⟨hscan.passed, ?_⟩
    dsimp only at h
    split at h
    · next hall =>
      split at h
      · cases h
        exact .inr ⟨rfl, hscan.reserved hall⟩
      · cases h
    · left
      split at h
      · next k hk =>
        cases h
        exact ⟨rfl, hscan.invalid _ hk⟩
      · next k _ hk =>
        cases h
        exact ⟨rfl, hscan.valid _ hk⟩
      · cases h

end

/-! ## The tag array in an access of the cache -/

section

open DataCache (WithEvents)

variable {cfg : CacheConfig} {addr idx idx' i id time : ℕ} {s s' : WithEvents} {c c' : DataCache}
  {status accessStatus : CacheRequestStatus}

/-- Addresses are aligned once. -/
@[simp] theorem getBlockAddr_getBlockAddr (cfg : CacheConfig) (addr : ℕ) :
    cfg.getBlockAddr (cfg.getBlockAddr addr) = cfg.getBlockAddr addr := by
  simp [CacheConfig.getBlockAddr]

@[simp] theorem getTag_getBlockAddr (cfg : CacheConfig) (addr : ℕ) :
    cfg.getTag (cfg.getBlockAddr addr) = cfg.getBlockAddr addr :=
  getBlockAddr_getBlockAddr cfg addr

/-- The line of a hit is touched. -/
theorem touch_hit (h : c.touch cfg addr idx id time = .ok (idx', c'))
    (hprobe : TagArray.probe cfg c.lines (cfg.getBlockAddr addr) idx (c.fetches id).accessSector =
      .ok (.hit, i)) :
    idx' = i ∧ c' = { c with
      lines := Function.update c.lines i ((c.lines i).setLastAccessTime time) } := by
  obtain ⟨r, htag, h⟩ := bind_eq_ok.mp h
  cases h
  obtain ⟨status, j, hprobe', hcase⟩ := tagAccess_cases htag
  rw [hprobe] at hprobe'
  cases hprobe'
  cases hcase
  exact ⟨rfl, rfl⟩

/-- The line of an accepted read request is that of the probe before it. -/
theorem ReadRequest.tagAccess {blockAddr : ℕ} {res : DataCache.ReadRequestResult}
    (h : ReadRequest cfg addr blockAddr idx id time s res) (hmiss : res.doMiss = true)
    (hprobe : TagArray.probe cfg s.1.lines blockAddr idx (s.1.fetches id).accessSector =
      .ok (status, i)) :
    ∃ r, TagAccess cfg s.1.lines blockAddr time i (s.1.fetches id).accessSector status r ∧
      res.evicted = r.evicted ∧ res.state.1.lines = r.lines := by
  cases h with
  | failed => cases hmiss
  | merged r mshrs _ htag | sent r mshrs _ _ htag =>
    obtain ⟨status', j, hprobe', hcase⟩ := tagAccess_cases htag
    rw [hprobe] at hprobe'
    cases hprobe'
    exact ⟨r, hcase, rfl, rfl⟩

/-- A block is written back with a write-back request for each packet of it. -/
structure WroteBack (cfg : CacheConfig) (e : EvictedBlockInfo) (n : ℕ) (s s' : WithEvents) :
    Prop where
  lines : s'.1.lines = s.1.lines
  mshrs : s'.1.mshrs = s.1.mshrs
  extra : s'.1.extraMfFields = s.1.extraMfFields
  uid : s'.1.uniqueUid = s.1.uniqueUid + n
  queue : s'.1.missQueue = s.1.missQueue ++ (List.range n).map (s.1.uniqueUid + ·)
  made : ∀ k < n, s'.1.fetches (s.1.uniqueUid + k) = DataCache.writeBackFetch cfg e k
  kept : ∀ j, ¬(s.1.uniqueUid ≤ j ∧ j < s.1.uniqueUid + n) → s'.1.fetches j = s.1.fetches j
  events : s'.2 = s.2 ++ List.replicate n (.writeBackRequestSent e)

theorem writeBackOne_foldl (cfg : CacheConfig) (e : EvictedBlockInfo) (n : ℕ) (s : WithEvents) :
    WroteBack cfg e n s ((List.range n).foldl (DataCache.writeBackOne cfg e) s) := by
  induction n with
  | zero =>
    exact ⟨rfl, rfl, rfl, rfl, by simp, nofun, fun _ _ => rfl, by simp⟩
  | succ n ih =>
    rw [List.range_succ, List.foldl_append]
    simp only [List.foldl_cons, List.foldl_nil]
    generalize (List.range n).foldl (DataCache.writeBackOne cfg e) s = t at ih ⊢
    constructor
    · exact ih.lines
    · exact ih.mshrs
    · exact ih.extra
    · show t.1.uniqueUid + 1 = _
      rw [ih.uid, Nat.add_assoc]
    · show t.1.missQueue ++ [t.1.uniqueUid] = _
      rw [ih.queue, ih.uid, List.range_succ, List.map_append, List.append_assoc]
      rfl
    · intro k hk
      show Function.update t.1.fetches t.1.uniqueUid _ _ = _
      by_cases hkn : k = n
      · rw [ih.uid, hkn, Function.update_self]
      · rw [Function.update_of_ne (by rw [ih.uid]; omega)]
        exact ih.made k (by omega)
    · intro j hj
      show Function.update t.1.fetches t.1.uniqueUid _ _ = _
      rw [Function.update_of_ne (by rw [ih.uid]; omega)]
      exact ih.kept j (by omega)
    · show t.2 ++ [_] = _
      rw [ih.events, List.replicate_succ', List.append_assoc]

/-- What is written back after a miss. -/
theorem writeBackEvicted_cases {evicted : Option EvictedBlockInfo}
    (h : DataCache.writeBackEvicted cfg evicted s = .ok s') :
    s' = s ∨ ∃ e, evicted = some e ∧ cfg.writePolicy ≠ .writeThrough ∧ cfg.atomSize ≠ 0 ∧
      WroteBack cfg e (e.modifiedSize / cfg.atomSize) s s' := by
  unfold DataCache.writeBackEvicted at h
  split at h
  · next e =>
    split at h
    · next hpolicy =>
      unfold DataCache.writeBack at h
      split at h
      · cases h
      · next hatom =>
        cases h
        exact .inr ⟨e, rfl, hpolicy, hatom, writeBackOne_foldl cfg e _ s⟩
    · cases h
      exact .inl rfl
  · cases h
    exact .inl rfl

theorem writeBackEvicted_lines {evicted : Option EvictedBlockInfo}
    (h : DataCache.writeBackEvicted cfg evicted s = .ok s') : s'.1.lines = s.1.lines := by
  rcases writeBackEvicted_cases h with rfl | ⟨e, -, -, -, hback⟩
  · rfl
  · exact hback.lines

theorem writeBackEvicted_extra {evicted : Option EvictedBlockInfo}
    (h : DataCache.writeBackEvicted cfg evicted s = .ok s') :
    s'.1.extraMfFields = s.1.extraMfFields := by
  rcases writeBackEvicted_cases h with rfl | ⟨e, -, -, -, hback⟩
  · rfl
  · exact hback.extra

/-- The request that an access is made with. -/
theorem newFetch_fetches (c : DataCache) (f : CacheFetch) :
    (c.newFetch f).2.fetches c.uniqueUid = f := Function.update_self _ _ _

/-- The lines after an accepted read request. -/
theorem ReadRequest.lines_eq {blockAddr : ℕ} {res : DataCache.ReadRequestResult}
    (h : ReadRequest cfg addr blockAddr idx id time s res) (hmiss : res.doMiss = true)
    (hprobe : TagArray.probe cfg s.1.lines blockAddr idx (s.1.fetches id).accessSector =
      .ok (status, i)) (hback : DataCache.writeBackEvicted cfg res.evicted res.state = .ok s') :
    ∃ r, TagAccess cfg s.1.lines blockAddr time i (s.1.fetches id).accessSector status r ∧
      s'.1.lines = r.lines := by
  obtain ⟨r, hcase, -, hlines⟩ := h.tagAccess hmiss hprobe
  exact ⟨r, hcase, by rw [writeBackEvicted_lines hback, hlines]⟩

/-- The request that a write makes. -/
theorem writeAlloc_fetch : ((DataCache.sendWriteRequest id .writeRequestSent s).1.newFetch
    (DataCache.writeAllocFetch cfg (s.1.fetches id))).2.fetches s.1.uniqueUid =
      DataCache.writeAllocFetch cfg (s.1.fetches id) := Function.update_self _ _ _

/-- The lines after a write that allocates: the request looks at the sector of the write. -/
theorem writeAllocate_lines {res : DataCache.ReadRequestResult}
    (h : ReadRequest cfg addr (cfg.getBlockAddr addr) idx s.1.uniqueUid time
      (((DataCache.sendWriteRequest id .writeRequestSent s).1.newFetch
        (DataCache.writeAllocFetch cfg (s.1.fetches id))).2, s.2 ++ [.writeRequestSent]) res)
    (hmiss : res.doMiss = true)
    (hprobe : TagArray.probe cfg s.1.lines (cfg.getBlockAddr addr) idx
      (s.1.fetches id).accessSector = .ok (status, i))
    (hback : DataCache.writeBackEvicted cfg res.evicted res.state = .ok s') :
    ∃ r, TagAccess cfg s.1.lines (cfg.getBlockAddr addr) time i (s.1.fetches id).accessSector
        status r ∧ s'.1.lines = r.lines := by
  obtain ⟨r, hcase, hlines⟩ := h.lines_eq hmiss (by rw [writeAlloc_fetch]; exact hprobe) hback
  rw [writeAlloc_fetch] at hcase
  exact ⟨r, hcase, hlines⟩

/-- An access as a call of the cache. -/
theorem step_access {f : CacheFetch} (h : c.step cfg (.access f addr time) = .ok c') :
    ∃ status events, DataCache.access cfg addr time c.uniqueUid ((c.newFetch f).2, []) =
      .ok (status, c', events) := by
  obtain ⟨⟨status, s'⟩, haccess, h⟩ := bind_eq_ok.mp h
  cases h
  exact ⟨status, s'.2, haccess⟩

/-- A fill changes one line at most. -/
theorem fillTagArray_lines {field : ExtraMfFields} {time : ℕ} {s : Sector} {lines : ℕ → CacheBlock}
    (h : c.fillTagArray cfg field time s = .ok lines) :
    ∃ i b, lines = Function.update c.lines i b ∧ isSector b = isSector (c.lines i) := by
  unfold DataCache.fillTagArray at h
  cases hpolicy : cfg.allocPolicy with
  | onMiss =>
    simp only [hpolicy, TagArray.fillIndex, if_true] at h
    cases h
    exact ⟨_, _, rfl, isSector_fill _ _⟩
  | onFill =>
    rw [hpolicy] at h
    obtain ⟨⟨status, i⟩, -, h⟩ := bind_eq_ok.mp h
    obtain ⟨b, hb, h⟩ := bind_eq_ok.mp h
    cases h
    refine ⟨i, _, rfl, ?_⟩
    rw [isSector_fill]
    cases status with
    | miss =>
      cases hb
      exact isSector_allocate _ _ _ _
    | sectorMiss =>
      dsimp only at hb
      split at hb
      · exact isSector_allocateSector _ _ hb
      · cases hb
    | hit | hitReserved | reservationFail =>
      cases hb
      rfl
  | streaming =>
    rw [hpolicy] at h
    cases h
    exact ⟨0, _, (Function.update_eq_self 0 c.lines).symm, rfl⟩

/-- The parts of a fill. -/
theorem fill_cases {id time : ℕ} (h : c.fill cfg id time = .ok c') :
    ∃ field lines mshrs, c.extraMfFields id = some field ∧
      c.fillTagArray cfg field time (c.fetches id).accessSector = .ok lines ∧
      c.mshrs.markReady field.blockAddr = .ok mshrs ∧
      c' = { c with
        lines
        mshrs
        extraMfFields := Function.update c.extraMfFields id none
        fetches := Function.update c.fetches id
          { c.fetches id with dataSize := field.dataSize, addr := field.addr } } := by
  unfold DataCache.fill at h
  split at h
  · cases h
  split at h
  · cases h
  next field hfield =>
  obtain ⟨lines, hlines, h⟩ := bind_eq_ok.mp h
  obtain ⟨mshrs, hmshrs, h⟩ := bind_eq_ok.mp h
  split at h
  · cases h
  · cases h
    exact ⟨field, lines, mshrs, hfield, hlines, hmshrs, rfl⟩

/-- A fill as a call of the cache. -/
theorem step_fill (h : c.step cfg (.fill id time) = .ok c') :
    (c.extraMfFields id = none ∧ c' = c) ∨
      ∃ field lines mshrs, c.extraMfFields id = some field ∧
        c.fillTagArray cfg field time (c.fetches id).accessSector = .ok lines ∧
        c.mshrs.markReady field.blockAddr = .ok mshrs ∧
        c' = { c with
          lines
          mshrs
          extraMfFields := Function.update c.extraMfFields id none
          fetches := Function.update c.fetches id
            { c.fetches id with dataSize := field.dataSize, addr := field.addr } } := by
  dsimp only [DataCache.step] at h
  split at h
  · exact .inr (fill_cases h)
  · next hwait =>
    cases h
    rw [DataCache.waitingForFill, Option.not_isSome_iff_eq_none] at hwait
    exact .inl ⟨hwait, rfl⟩

/-- A pop as a call of the cache. -/
theorem step_pop (h : c.step cfg .popNextAccess = .ok c') :
    c' = c ∨ ∃ id mshrs, c.mshrs.popNextAccess = .ok (id, mshrs) ∧ c' = { c with mshrs } := by
  dsimp only [DataCache.step] at h
  split at h
  · obtain ⟨⟨id, c''⟩, hpop, h⟩ := bind_eq_ok.mp h
    cases h
    obtain ⟨⟨id', mshrs⟩, hmshrs, hpop⟩ := bind_eq_ok.mp hpop
    cases hpop
    exact .inr ⟨id, mshrs, hmshrs, rfl⟩
  · cases h
    exact .inl rfl

/-- An access changes one line at most. -/
theorem access_lines (h : DataCache.access cfg addr time id s = .ok (accessStatus, s')) :
    ∃ i b, s'.1.lines = Function.update s.1.lines i b ∧
      isSector b = isSector (s.1.lines i) := by
  obtain ⟨status, idx, hprobe, houtcome⟩ := access_cases h
  have hsame (t : WithEvents) (ht : t.1.lines = s.1.lines) :
      ∃ i b, t.1.lines = Function.update s.1.lines i b ∧ isSector b = isSector (s.1.lines i) :=
    ⟨idx, _, by rw [ht, Function.update_eq_self], rfl⟩
  cases houtcome with
  | failed => exact hsame s rfl
  | writeAround => exact hsame _ rfl
  | readHit idx' c hstatus _ htouch =>
    subst hstatus
    obtain ⟨-, rfl⟩ := touch_hit htouch (probe_start idx hprobe (by decide))
    exact ⟨idx, _, rfl, isSector_setLastAccessTime _ _⟩
  | writeHit idx' c hstatus _ _ htouch | writeThrough idx' c hstatus _ _ htouch =>
    subst hstatus
    obtain ⟨rfl, rfl⟩ := touch_hit htouch (probe_start idx hprobe (by decide))
    refine ⟨idx', _, Function.update_idem _ _ _, ?_⟩
    dsimp only
    rw [isSector_setStatus, Function.update_self, isSector_setLastAccessTime]
  | writeEvict => exact ⟨idx, _, rfl, isSector_setStatus _ _ _⟩
  | readMiss r s' _ hfail _ _ hrequest hmiss hback =>
    obtain ⟨t, htag, hlines⟩ := hrequest.lines_eq hmiss (probe_start idx hprobe hfail) hback
    obtain ⟨-, b, hb, hkind⟩ := htag.lines_eq
    exact ⟨idx, b, by rw [hlines, hb], hkind⟩
  | writeAllocate r s' _ hfail _ _ _ hrequest hmiss hback =>
    obtain ⟨t, htag, hlines⟩ :=
      writeAllocate_lines hrequest hmiss (probe_start idx hprobe hfail) hback
    obtain ⟨-, b, hb, hkind⟩ := htag.lines_eq
    exact ⟨idx, b, by rw [hlines, hb], hkind⟩

end

end PyTorchSim.Analysis
