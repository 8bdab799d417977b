import PyTorchSim.Analysis.WriteBack

/-!
# Reservations of sectors

A miss allocates a line for a sector, and the fill comes later.  In between the sector should be
reserved: a probe answers `HIT_RESERVED`, the line is kept for its tag, and the fill finds it
there.  `SectorCacheBlock::allocate` leaves all sectors of the line invalid, so a run has the
property exactly until the first miss that allocates a line of sectors.
-/

set_option autoImplicit false

namespace PyTorchSim.Analysis

open PyTorchSim.Model PyTorchSim.Library
open DataCache (WithEvents)

/-- A sector that a miss has allocated a place for. -/
structure Reservation where
  tag : ℕ
  sector : Sector
  line : ℕ

/-- A cache with the reservations whose fills have not arrived. -/
structure Watched where
  cache : DataCache
  pending : List Reservation := []

/-- The reservation that an access makes. -/
def reservation (cfg : CacheConfig) (c : DataCache) (f : CacheFetch) (addr : ℕ) :
    Option Reservation :=
  match accessProbe cfg c f addr with
  | .ok (.miss, i) | .ok (.sectorMiss, i) =>
    if Requests cfg c f addr then some ⟨cfg.getTag addr, f.accessSector, i⟩ else none
  | _ => none

/-- The reservations after an action. -/
def pendingAfter (cfg : CacheConfig) (w : Watched) : CacheAction → List Reservation
  | .access f addr _ => w.pending ++ (reservation cfg w.cache f addr).toList
  | .fill id _ =>
    match w.cache.extraMfFields id with
    | none => w.pending
    | some field => w.pending.filter fun r =>
        ¬(r.tag = cfg.getTag field.blockAddr ∧ r.sector = (w.cache.fetches id).accessSector)
  | _ => w.pending

/-- A call of the cache, with the reservations after it. -/
def Watched.step (cfg : CacheConfig) (w : Watched) (a : CacheAction) :
    Except CacheFault Watched := do
  let cache ← w.cache.step cfg a
  return { cache, pending := pendingAfter cfg w a }

/-- Every reservation is kept until its fill. -/
structure Protected (cfg : CacheConfig) (w : Watched) : Prop where
  /-- A probe of the sector finds the reservation. -/
  answer : ∀ r ∈ w.pending,
    TagArray.probe cfg w.cache.lines r.tag 0 r.sector = .ok (.hitReserved, r.line)
  /-- The line has not been given to another tag. -/
  tag : ∀ r ∈ w.pending, (w.cache.lines r.line).matchTag r.tag = true
  /-- No other way of the set has the tag. -/
  unique : ∀ r ∈ w.pending, ∀ set, cfg.getSetIndex r.tag = .ok set →
    ∀ j ∈ TagArray.setLines cfg set, (w.cache.lines j).matchTag r.tag = true → j = r.line
  /-- A fill will find the tag that it was asked for. -/
  fills : ∀ id field, w.cache.extraMfFields id = some field →
    (w.cache.lines field.cacheIndex).matchTag (cfg.getTag field.blockAddr) = true

/-- A miss that allocates a line. -/
def AllocatesLine (cfg : CacheConfig) (c : DataCache) : CacheAction → Prop
  | .access f addr _ => (∃ i, accessProbe cfg c f addr = .ok (.miss, i)) ∧
      Requests cfg c f addr = true
  | _ => False

/-- A cache in which nothing has been allocated. -/
structure Unallocated (cfg : CacheConfig) (w : Watched) : Prop where
  kinds : KindsOk cfg w.cache.lines
  invalid : ∀ i, (w.cache.lines i).isInvalidLine = true
  pending : w.pending = []
  extra : ∀ id, w.cache.extraMfFields id = none

section

variable {cfg : CacheConfig} {w w' : Watched} {tags : ℕ → ℕ × ℕ} {fetches : ℕ → CacheFetch}

theorem Unallocated.protected (h : Unallocated cfg w) : Protected cfg w := by
  constructor
  · rw [h.pending]
    exact nofun
  · rw [h.pending]
    exact nofun
  · rw [h.pending]
    exact nofun
  · intro id field hfield
    rw [h.extra id] at hfield
    cases hfield

/-- The sectors of an invalid line are invalid, and it is not a valid line. -/
theorem invalidLine_status {b : CacheBlock} (h : b.isInvalidLine = true) (s : Sector) :
    b.getStatus s = .invalid ∧ b.isValidLine = false := by
  cases b with
  | line b =>
    have hinv : b.status = .invalid := of_decide_eq_true h
    exact ⟨hinv, by simp [CacheBlock.isValidLine, hinv]⟩
  | sector b =>
    have hinv : ∀ s, b.status s = .invalid := of_decide_eq_true h
    exact ⟨hinv s, by rw [CacheBlock.isValidLine, h]; rfl⟩

/-- A probe for an invalid sector does not find it. -/
theorem not_probeAnswer {tag : ℕ} {b : CacheBlock} {s : Sector} {status : CacheRequestStatus}
    (h : b.isInvalidLine = true) : ¬ProbeAnswer tag b s status := by
  obtain ⟨hinv, hvalid⟩ := invalidLine_status h s
  intro hanswer
  cases hanswer with
  | hitReserved _ hstatus =>
    rw [hinv] at hstatus
    cases hstatus
  | hit _ hstatus =>
    rw [hinv] at hstatus
    rcases hstatus with hstatus | hstatus <;> cases hstatus
  | sectorMiss _ hstatus =>
    rcases hstatus with ⟨hstatus, -⟩ | ⟨hstatus, -⟩
    · rw [hinv] at hstatus
      cases hstatus
    · rw [hvalid] at hstatus
      cases hstatus

/-- Before the first allocation a probe misses or fails. -/
theorem Unallocated.probe (h : Unallocated cfg w) {addr idx i : ℕ} {s : Sector}
    {status : CacheRequestStatus}
    (hprobe : TagArray.probe cfg w.cache.lines addr idx s = .ok (status, i)) :
    status = .miss ∨ status = .reservationFail := by
  obtain ⟨set, -, ⟨-, hanswer⟩ | ⟨-, hmiss | hfail⟩⟩ := probe_cases hprobe
  · exact absurd hanswer (not_probeAnswer (h.invalid i))
  · exact .inl hmiss.1
  · exact .inr hfail.1

/-- What an access does before the first allocation. -/
theorem Unallocated.access (h : Unallocated cfg w) {f : CacheFetch} {addr time : ℕ}
    {status : CacheRequestStatus} {s' : WithEvents}
    (haccess : DataCache.access cfg addr time w.cache.uniqueUid ((w.cache.newFetch f).2, []) =
      .ok (status, s')) :
    (s'.1.lines = w.cache.lines ∧ s'.1.extraMfFields = w.cache.extraMfFields) ∨
      ∃ i, accessProbe cfg w.cache f addr = .ok (.miss, i) ∧ Requests cfg w.cache f addr = true := by
  obtain ⟨probed, idx, hprobe, houtcome⟩ := access_cases haccess
  have hfetch := newFetch_fetches w.cache f
  rw [hfetch] at hprobe
  have hprobed := h.probe hprobe
  have hrequests (hpolicy : f.isWrite = false ∨ cfg.writeAllocPolicy = .writeAllocate)
      (hroom : w.cache.missQueueFull cfg (missRoom f.isWrite) = false)
      (hfull : w.cache.mshrs.full cfg (cfg.getMshrAddr addr) = false)
      (hfail : probed ≠ .reservationFail) :
      ∃ i, accessProbe cfg w.cache f addr = .ok (.miss, i) ∧
        Requests cfg w.cache f addr = true := by
    rw [hprobed.resolve_right hfail] at hprobe
    refine ⟨idx, hprobe, ?_⟩
    rw [Requests, hroom, hfull]
    rcases hpolicy with hread | halloc
    · rw [hread]
      rfl
    · simp [halloc]
  have hnotHit (hstatus : probed = .hit) : False := by
    rcases hprobed with hp | hp <;> rw [hp] at hstatus <;> cases hstatus
  cases houtcome with
  | failed | writeAround => exact .inl ⟨rfl, rfl⟩
  | readHit _ _ hstatus | writeHit _ _ hstatus | writeThrough _ _ hstatus | writeEvict hstatus =>
    exact (hnotHit hstatus).elim
  | readMiss r s' _ hfail hread hroom hrequest hmiss _ =>
    rw [hfetch] at hread hroom
    exact .inr (hrequests (.inl hread) hroom (hrequest.room hmiss) hfail)
  | writeAllocate r s' _ hfail _ hpolicy hroom hrequest hmiss _ =>
    rw [hfetch] at hroom
    exact .inr (hrequests (.inr hpolicy) hroom (hrequest.room hmiss) hfail)

/-- Steps that allocate no line keep a cache without allocations. -/
theorem Unallocated.step (h : Unallocated cfg w) {a : CacheAction}
    (hstep : w.step cfg a = .ok w') (hnone : ¬AllocatesLine cfg w.cache a) :
    Unallocated cfg w' := by
  obtain ⟨cache, hcache, hw⟩ := bind_eq_ok.mp hstep
  cases hw
  have hsame (hlines : cache.lines = w.cache.lines)
      (hextra : cache.extraMfFields = w.cache.extraMfFields)
      (hpending : pendingAfter cfg w a = []) :
      Unallocated cfg { cache, pending := pendingAfter cfg w a } :=
    ⟨by rw [hlines]; exact h.kinds, by rw [hlines]; exact h.invalid, hpending,
      by rw [hextra]; exact h.extra⟩
  cases a with
  | access f addr time =>
    obtain ⟨status, events, haccess⟩ := step_access hcache
    rcases h.access haccess with ⟨hlines, hextra⟩ | halloc
    · apply hsame hlines hextra
      rw [pendingAfter, h.pending, List.nil_append, reservation]
      split
      · next i hprobe =>
        rw [if_neg fun hreq => hnone ⟨⟨i, hprobe⟩, hreq⟩]
        rfl
      · next i hprobe =>
        rcases h.probe hprobe with hstatus | hstatus <;> cases hstatus
      · rfl
    · obtain ⟨i, hprobe, hreq⟩ := halloc
      exact absurd ⟨⟨i, hprobe⟩, hreq⟩ hnone
  | fill id time =>
    dsimp only [DataCache.step] at hcache
    rw [DataCache.waitingForFill, h.extra id, if_neg (by decide)] at hcache
    cases hcache
    exact hsame rfl rfl (by rw [pendingAfter, h.extra id]; exact h.pending)
  | popNextAccess =>
    rcases step_pop hcache with rfl | ⟨id, mshrs, -, rfl⟩
    · exact hsame rfl rfl h.pending
    · exact hsame rfl rfl h.pending
  | cycle =>
    cases hcache
    exact hsame rfl rfl h.pending

/-- After a miss has allocated a line of sectors, a probe of the sector does not find it
reserved. -/
theorem Unallocated.not_protected (h : Unallocated cfg w) (hsector : cfg.cacheType = .sector)
    (hpolicy : cfg.allocPolicy = .onMiss) {a : CacheAction} (hstep : w.step cfg a = .ok w')
    (halloc : AllocatesLine cfg w.cache a) : ¬Protected cfg w' := by
  obtain ⟨cache, hcache, hw⟩ := bind_eq_ok.mp hstep
  cases hw
  cases a with
  | fill | popNextAccess | cycle => exact halloc.elim
  | access f addr time =>
    obtain ⟨⟨i, hprobe⟩, hreq⟩ := halloc
    obtain ⟨status, events, haccess⟩ := step_access hcache
    -- every sector of every line is invalid after the access
    have hinvalid (j : ℕ) : (cache.lines j).isInvalidLine = true := by
      have hline (b : CacheBlock) (hb : cache.lines = Function.update w.cache.lines i b)
          (hkind : b.isInvalidLine = true) : (cache.lines j).isInvalidLine = true := by
        rw [hb]
        by_cases hj : j = i
        · rw [hj, Function.update_self]
          exact hkind
        · rw [Function.update_of_ne hj]
          exact h.invalid j
      have hallocate : ((w.cache.lines i).allocate (cfg.getTag (cfg.getBlockAddr addr))
          (cfg.getBlockAddr (cfg.getBlockAddr addr)) time).isInvalidLine = true := by
        have hkind := h.kinds i
        rw [hsector] at hkind
        cases hb : w.cache.lines i with
        | line b =>
          rw [hb] at hkind
          cases hkind
        | sector b => rfl
      obtain ⟨probed, idx, hprobe', houtcome⟩ := access_cases haccess
      have hfetch := newFetch_fetches w.cache f
      rw [hfetch] at hprobe'
      have hsame : (CacheRequestStatus.miss, i) = (probed, idx) :=
        Except.ok.inj (hprobe.symm.trans hprobe')
      cases hsame
      have htag (r : TagArray.AccessResult)
          (hcase : TagAccess cfg w.cache.lines (cfg.getBlockAddr addr) time i f.accessSector .miss r) :
          r.lines = Function.update w.cache.lines i ((w.cache.lines i).allocate
            (cfg.getTag (cfg.getBlockAddr addr)) (cfg.getBlockAddr (cfg.getBlockAddr addr)) time) := by
        cases hcase with
        | miss => rfl
        | missLater hlater => exact absurd hpolicy hlater
      cases houtcome with
      | failed | writeAround => exact h.invalid j
      | readHit _ _ hstatus | writeHit _ _ hstatus | writeThrough _ _ hstatus
      | writeEvict hstatus => cases hstatus
      | readMiss r s' _ hfail _ _ hrequest hmiss hback =>
        obtain ⟨t, hcase, hlines⟩ := hrequest.lines_eq hmiss
          (by rw [hfetch]; exact probe_start _ hprobe hfail) hback
        rw [hfetch] at hcase
        exact hline _ (hlines.trans (htag t hcase)) hallocate
      | writeAllocate r s' _ hfail _ _ _ hrequest hmiss hback =>
        obtain ⟨t, hcase, hlines⟩ := writeAllocate_lines hrequest hmiss
          (by rw [hfetch]; exact probe_start _ hprobe hfail) hback
        rw [hfetch] at hcase
        exact hline _ (hlines.trans (htag t hcase)) hallocate
    intro hprot
    have hmem : (⟨cfg.getTag addr, f.accessSector, i⟩ : Reservation) ∈
        pendingAfter cfg w (.access f addr time) := by
      rw [pendingAfter, reservation, hprobe]
      dsimp only
      rw [if_pos hreq]
      exact List.mem_append_right _ List.mem_cons_self
    obtain ⟨set, -, ⟨-, hanswer⟩ | ⟨-, ⟨hmiss, -⟩ | ⟨hfail, -⟩⟩⟩ :=
      probe_cases (hprot.answer _ hmem)
    · exact not_probeAnswer (hinvalid _) hanswer
    · cases hmiss
    · cases hfail

/-- A run on a cache with lines of sectors keeps its reservations up to the first miss that
allocates a line, and breaks them there. -/
theorem sectorReservation_iff (cfg : CacheConfig) (hsector : cfg.cacheType = .sector)
    (hpolicy : cfg.allocPolicy = .onMiss) (tags : ℕ → ℕ × ℕ) (fetches : ℕ → CacheFetch)
    (w : Watched) (hreach : Reach (Watched.step cfg) (fun w a => ¬AllocatesLine cfg w.cache a)
      { cache := .initial cfg tags fetches } w) :
    Protected cfg w ∧ ∀ a w', w.step cfg a = .ok w' →
      (Protected cfg w' ↔ ¬AllocatesLine cfg w.cache a) := by
  have hun : Unallocated cfg w := by
    apply hreach.invariant
    · have hinit : Reach (DataCache.step cfg) (fun _ _ => True) (.initial cfg tags fetches)
          (.initial cfg tags fetches) := .init
      refine ⟨kindsOk_of_reach hinit, ?_, rfl, fun _ => rfl⟩
      intro i
      dsimp only [DataCache.initial, CacheBlock.initial]
      split <;> rfl
    · intro w a w' _ hun hnone hstep
      exact hun.step hstep hnone
  refine ⟨hun.protected, fun a w' hstep => ⟨?_, fun hnone => (hun.step hstep hnone).protected⟩⟩
  exact fun hprot halloc => hun.not_protected hsector hpolicy hstep halloc hprot

end

/-- The reservations of an empty cache with one line of four sectors. -/
theorem sectorReservation_iff_oneLine :
    Protected (smallCache .sector 1 4) { cache := oneSectorLine } ∧
      ∀ a w', Watched.step (smallCache .sector 1 4) { cache := oneSectorLine } a = .ok w' →
        (Protected (smallCache .sector 1 4) w' ↔
          ¬AllocatesLine (smallCache .sector 1 4) oneSectorLine a) :=
  sectorReservation_iff (smallCache .sector 1 4) rfl rfl (fun _ => (1, 1)) (fun _ => readFetch 0 0)
    { cache := oneSectorLine } .init

/-- The first read of a cache with lines of sectors is not protected. -/
theorem not_sectorReservation :
    ¬∀ (cfg : CacheConfig), cfg.cacheType = .sector → cfg.allocPolicy = .onMiss →
      ∀ (tags : ℕ → ℕ × ℕ) (fetches : ℕ → CacheFetch) (w : Watched),
      Reach (Watched.step cfg) (fun _ _ => True) { cache := .initial cfg tags fetches } w →
      Protected cfg w := by
  intro hall
  obtain ⟨w, hrun, hmem, hprobe⟩ : ∃ w, [CacheAction.access (readFetch 0 0) 0 0].foldlM
      (Watched.step (smallCache .sector 1 4)) { cache := oneSectorLine } = .ok w ∧
      ⟨0, 0, 0⟩ ∈ w.pending ∧
      TagArray.probe (smallCache .sector 1 4) w.cache.lines 0 0 0 =
        .ok (.reservationFail, 0) :=
    ⟨_, rfl, .head _, rfl⟩
  have hprot := hall (smallCache .sector 1 4) rfl rfl (fun _ => (1, 1)) (fun _ => readFetch 0 0) w
    (.of_foldlM _ .init hrun fun _ _ _ => trivial)
  have hanswer := hprot.answer _ hmem
  dsimp only at hanswer
  rw [hprobe] at hanswer
  cases hanswer

end PyTorchSim.Analysis
