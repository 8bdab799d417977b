import PyTorchSim.Analysis.CacheLines

/-!
# The choice of a victim

A probe that finds no line for its tag gives up an invalid line, or else the oldest line that is not
reserved.  A way that holds the tag in an invalid line is looked at for a hit only: it counts
neither as a line that is not reserved nor as an invalid one.
-/

set_option autoImplicit false

namespace PyTorchSim.Analysis

open PyTorchSim.Model PyTorchSim.Library

variable {cfg : CacheConfig} {lines : ℕ → CacheBlock} {tag addr idx i : ℕ} {s : Sector}
  {ways : List ℕ}

/-- An invalid line is not reserved. -/
theorem isReservedLine_of_invalid {b : CacheBlock} (h : b.isInvalidLine = true) :
    b.isReservedLine = false := by
  cases b with
  | line b =>
    have hstatus : b.status = .invalid := by simpa [CacheBlock.isInvalidLine] using h
    simp [CacheBlock.isReservedLine, hstatus]
  | sector b =>
    have hstatus : ∀ s, b.status s = .invalid := by simpa [CacheBlock.isInvalidLine] using h
    simp [CacheBlock.isReservedLine, hstatus]

/-- A way that holds the tag and gives no answer is an invalid line. -/
theorem PassedOver.isInvalidLine {b : CacheBlock} (h : PassedOver tag s b)
    (htag : b.matchTag tag = true) : b.isInvalidLine = true := by
  obtain ⟨hstatus, hvalid⟩ := h htag
  cases b with
  | line b =>
    have hstatus : b.status = .invalid := hstatus
    simp [CacheBlock.isInvalidLine, hstatus]
  | sector b =>
    unfold CacheBlock.isValidLine at hvalid
    simpa using hvalid

/-- A way gives a hit, a pending hit or a sector miss. -/
def WayAnswers (tag : ℕ) (s : Sector) (b : CacheBlock) : Prop :=
  ∃ status, ProbeAnswer tag b s status

/-- The ways that give no answer are those that a probe passes over. -/
theorem not_wayAnswers_iff {b : CacheBlock} : ¬WayAnswers tag s b ↔ PassedOver tag s b := by
  constructor
  · intro h htag
    have hres : b.getStatus s ≠ .reserved := fun hst => h ⟨_, .hitReserved htag hst⟩
    have hval : b.getStatus s ≠ .valid := fun hst => h ⟨_, .hit htag (.inl hst)⟩
    have hmod : b.getStatus s ≠ .modified := fun hst => h ⟨_, .hit htag (.inr hst)⟩
    have hinv := getStatus_eq_invalid hres hval hmod
    refine ⟨hinv, ?_⟩
    by_contra hvalid
    exact h ⟨_, .sectorMiss htag (.inr ⟨by simpa using hvalid, hinv⟩)⟩
  · rintro h ⟨status, hanswer⟩
    cases hanswer with
    | hitReserved htag hstatus =>
      rw [(h htag).1] at hstatus
      cases hstatus
    | hit htag hstatus =>
      rw [(h htag).1] at hstatus
      rcases hstatus with hstatus | hstatus <;> cases hstatus
    | sectorMiss htag hstatus =>
      obtain ⟨hinv, hvalid⟩ := h htag
      rcases hstatus with ⟨hstatus, -⟩ | ⟨hstatus, -⟩
      · rw [hinv] at hstatus
        cases hstatus
      · rw [hvalid] at hstatus
        cases hstatus

/-- What the loop over the ways knows of the lines that it has passed. -/
structure VictimScan (cfg : CacheConfig) (lines : ℕ → CacheBlock) (tag : ℕ) (seen : List ℕ)
    (p : ProbeScan) : Prop where
  allReserved : p.allReserved = true ↔
    ∀ j ∈ seen, (lines j).matchTag tag = true ∨ (lines j).isReservedLine = true
  invalid_some : ∀ i, p.invalidLine = some i →
    i ∈ seen ∧ (lines i).matchTag tag = false ∧ (lines i).isInvalidLine = true
  invalid_none : p.invalidLine = none →
    ∀ j ∈ seen, (lines j).matchTag tag = true ∨ (lines j).isInvalidLine = false
  valid_some : ∀ i, p.validLine = some i → i ∈ seen ∧ Evictable tag (lines i) ∧
    p.validTimestamp = TagArray.evictTime cfg (lines i)
  valid_none : p.validLine = none → p.validTimestamp = 2 ^ 64 - 1
  least : ∀ j ∈ seen, Evictable tag (lines j) → (lines j).isInvalidLine = false →
    p.validTimestamp ≤ TagArray.evictTime cfg (lines j)

/-- One way that gives no answer. -/
theorem VictimScan.probeWay {seen : List ℕ} {p q : ProbeScan} {way : ℕ}
    (hp : VictimScan cfg lines tag seen p)
    (h : TagArray.probeWay cfg lines tag s p way = .ok q) :
    VictimScan cfg lines tag (seen ++ [way]) q := by
  have hforall (P : ℕ → Prop) : (∀ j ∈ seen ++ [way], P j) ↔ (∀ j ∈ seen, P j) ∧ P way := by
    simp only [List.mem_append, List.mem_singleton, or_imp, forall_and, forall_eq]
  have hkeep {Q : Prop} {i : ℕ} (hi : i ∈ seen ∧ Q) : i ∈ seen ++ [way] ∧ Q :=
    ⟨List.mem_append_left _ hi.1, hi.2⟩
  have hmem : way ∈ seen ++ [way] := List.mem_append_right _ (List.mem_singleton_self way)
  unfold TagArray.probeWay at h
  dsimp only at h
  by_cases htag : (lines way).matchTag tag = true
  · -- A way with the tag changes nothing but the index.
    rw [if_pos htag] at h
    split_ifs at h
    cases h
    refine ⟨?_, fun i hi => hkeep (hp.invalid_some i hi), fun hnone => ?_,
      fun i hi => hkeep (hp.valid_some i hi), hp.valid_none, ?_⟩
    · rw [hforall, ← hp.allReserved]
      exact ⟨fun h => ⟨h, .inl htag⟩, fun h => h.1⟩
    · rw [hforall]
      exact ⟨hp.invalid_none hnone, .inl htag⟩
    · rw [hforall]
      exact ⟨hp.least, fun hev => absurd (htag.symm.trans hev.1) (by decide)⟩
  have htag' : (lines way).matchTag tag = false := by simpa using htag
  rw [if_neg htag] at h
  by_cases hres : (lines way).isReservedLine = true
  · rw [hres] at h
    cases h
    refine ⟨?_, fun i hi => hkeep (hp.invalid_some i hi), fun hnone => ?_,
      fun i hi => hkeep (hp.valid_some i hi), hp.valid_none, ?_⟩
    · rw [hforall, ← hp.allReserved]
      exact ⟨fun h => ⟨h, .inr hres⟩, fun h => h.1⟩
    · rw [hforall]
      refine ⟨hp.invalid_none hnone, .inr ?_⟩
      by_contra hinv
      rw [isReservedLine_of_invalid (by simpa using hinv)] at hres
      cases hres
    · rw [hforall]
      exact ⟨hp.least, fun hev => absurd (hres.symm.trans hev.2) (by decide)⟩
  have hres' : (lines way).isReservedLine = false := by simpa using hres
  have hnot : ¬∀ j ∈ seen ++ [way],
      (lines j).matchTag tag = true ∨ (lines j).isReservedLine = true :=
    fun hall => (hall way hmem).elim htag hres
  rw [hres'] at h
  simp only [Bool.not_false, if_true] at h
  by_cases hinv : (lines way).isInvalidLine = true
  · rw [if_pos hinv] at h
    cases h
    refine ⟨⟨nofun, fun hall => absurd hall hnot⟩, fun i hi => ?_, nofun,
      fun i hi => hkeep (hp.valid_some i hi), hp.valid_none, ?_⟩
    · cases hi
      exact ⟨hmem, htag', hinv⟩
    · rw [hforall]
      refine ⟨hp.least, fun _ hfalse => ?_⟩
      rw [hinv] at hfalse
      cases hfalse
  have hinv' : (lines way).isInvalidLine = false := by simpa using hinv
  have hnone {p' : ProbeScan} (heq : p'.invalidLine = p.invalidLine)
      (hnone : p'.invalidLine = none) : ∀ j ∈ seen ++ [way],
      (lines j).matchTag tag = true ∨ (lines j).isInvalidLine = false := by
    rw [hforall]
    exact ⟨hp.invalid_none (heq ▸ hnone), .inr hinv'⟩
  rw [if_neg hinv] at h
  by_cases htime : TagArray.evictTime cfg (lines way) < p.validTimestamp
  · rw [if_pos htime] at h
    cases h
    refine ⟨⟨nofun, fun hall => absurd hall hnot⟩, fun i hi => hkeep (hp.invalid_some i hi),
      hnone rfl, fun i hi => ?_, nofun, ?_⟩
    · cases hi
      exact ⟨hmem, ⟨htag', hres'⟩, rfl⟩
    · rw [hforall]
      refine ⟨fun j hj hev hvalid => ?_, fun _ _ => le_refl _⟩
      exact htime.le.trans (hp.least j hj hev hvalid)
  · rw [if_neg htime] at h
    cases h
    refine ⟨⟨nofun, fun hall => absurd hall hnot⟩, fun i hi => hkeep (hp.invalid_some i hi),
      hnone rfl, fun i hi => hkeep (hp.valid_some i hi), hp.valid_none, ?_⟩
    rw [hforall]
    exact ⟨hp.least, fun _ _ => not_lt.mp htime⟩

/-- The loop over the ways. -/
theorem VictimScan.probeWays {seen : List ℕ} {p q : ProbeScan}
    (hp : VictimScan cfg lines tag seen p)
    (h : ways.foldlM (TagArray.probeWay cfg lines tag s) p = .ok q) :
    VictimScan cfg lines tag (seen ++ ways) q := by
  induction ways generalizing p seen with
  | nil =>
    cases h
    rw [List.append_nil]
    exact hp
  | cons way ways ih =>
    rw [List.foldlM_cons] at h
    obtain ⟨p', hway, h⟩ := bind_eq_ok.mp h
    have htail := ih (hp.probeWay hway) h
    rwa [List.append_assoc, List.singleton_append] at htail

/-- A probe of the ways of a set chooses its victim as a cache does. -/
structure VictimExact (cfg : CacheConfig) (lines : ℕ → CacheBlock) (addr idx : ℕ) (s : Sector)
    (ways : List ℕ) : Prop where
  reservationFail : (∃ i, TagArray.probe cfg lines addr idx s = .ok (.reservationFail, i)) ↔
    (∀ j ∈ ways, ¬WayAnswers (cfg.getTag addr) s (lines j)) ∧
      ∀ j ∈ ways, (lines j).isReservedLine = true
  miss : ∀ i, TagArray.probe cfg lines addr idx s = .ok (.miss, i) →
    i ∈ ways ∧ (lines i).isReservedLine = false ∧
      ((∃ j ∈ ways, (lines j).isInvalidLine = true) → (lines i).isInvalidLine = true) ∧
      ((∀ j ∈ ways, (lines j).isInvalidLine = false) →
        ∀ j ∈ ways, (lines j).isReservedLine = false →
          TagArray.evictTime cfg (lines i) ≤ TagArray.evictTime cfg (lines j))

/-- No way gives an answer, one holds the tag (in an invalid line), and no other one is invalid. -/
def TagInInvalidLine (lines : ℕ → CacheBlock) (tag : ℕ) (s : Sector) (ways : List ℕ) : Prop :=
  (∀ j ∈ ways, ¬WayAnswers tag s (lines j)) ∧ (∃ j ∈ ways, (lines j).matchTag tag = true) ∧
    ∀ j ∈ ways, (lines j).matchTag tag = false → (lines j).isInvalidLine = false

/-- What a probe does with the ways of a set: a way answers, or the loop ends and the victim is
taken from what it has seen. -/
theorem probe_eq (lines : ℕ → CacheBlock) (idx : ℕ) (s : Sector) {set : ℕ}
    (hset : cfg.getSetIndex addr = .ok set) :
    (∃ answer, TagArray.probe cfg lines addr idx s = .ok answer ∧
      answer.2 ∈ TagArray.setLines cfg set ∧
      ProbeAnswer (cfg.getTag addr) (lines answer.2) s answer.1) ∨
    ∃ p, VictimScan cfg lines (cfg.getTag addr) (TagArray.setLines cfg set) p ∧
      (∀ j ∈ TagArray.setLines cfg set, ¬WayAnswers (cfg.getTag addr) s (lines j)) ∧
      TagArray.probe cfg lines addr idx s =
        if p.allReserved then
          if cfg.allocPolicy = .onMiss then .ok (.reservationFail, p.idx) else .error .assertion
        else match p.invalidLine, p.validLine with
          | some i, _ => .ok (.miss, i)
          | none, some i => .ok (.miss, i)
          | none, none => .error .assertion := by
  have hstart : Scanned lines (cfg.getTag addr) s [] { idx := idx } :=
    ⟨nofun, nofun, nofun, fun _ => nofun⟩
  have hempty : VictimScan cfg lines (cfg.getTag addr) [] { idx := idx } :=
    ⟨⟨fun _ => nofun, fun _ => rfl⟩, nofun, fun _ => nofun, nofun, fun _ => rfl, nofun⟩
  have hscan := probeWays_cases cfg (TagArray.setLines cfg set) hstart
  unfold TagArray.probe
  rw [hset]
  dsimp only [bind, Except.bind]
  cases hcase : (TagArray.setLines cfg set).foldlM (TagArray.probeWay cfg lines
      (cfg.getTag addr) s) { idx := idx } with
  | error answer =>
    rw [hcase] at hscan
    exact .inl ⟨answer, rfl, hscan.1, hscan.2⟩
  | ok p =>
    rw [hcase] at hscan
    right
    refine ⟨p, hempty.probeWays hcase, fun j hj => ?_, ?_⟩
    · exact not_wayAnswers_iff.mpr (hscan.passed j hj)
    · rfl

/-- If a way is not reserved and none is invalid, there is an oldest line: its time is below the
start value. -/
theorem VictimScan.exists_valid {p : ProbeScan} (h : VictimScan cfg lines tag ways p)
    (htimes : ∀ j, TagArray.evictTime cfg (lines j) < 2 ^ 64 - 1) (hall : ¬p.allReserved = true)
    (hinv : p.invalidLine = none) : ∃ k, p.validLine = some k := by
  rw [h.allReserved] at hall
  push Not at hall
  obtain ⟨j, hj, hjtag, hjres⟩ := hall
  have hjinv := (h.invalid_none hinv j hj).resolve_left hjtag
  have hle := h.least j hj ⟨by simpa using hjtag, by simpa using hjres⟩ hjinv
  cases hval : p.validLine with
  | some k => exact ⟨k, rfl⟩
  | none =>
    rw [h.valid_none hval] at hle
    exact absurd (htimes j) (not_lt.mpr hle)

section

variable {set : ℕ} {p : ProbeScan}
  (hscan : VictimScan cfg lines (cfg.getTag addr) (TagArray.setLines cfg set) p)
  (hnone : ∀ j ∈ TagArray.setLines cfg set, ¬WayAnswers (cfg.getTag addr) s (lines j))

include hscan hnone

/-- If the tag is in an invalid line and no other line is invalid, the probe fails although that
line is free, or it gives up a line that holds data. -/
theorem not_victimExact
    (hprobe : TagArray.probe cfg lines addr idx s =
      if p.allReserved then .ok (.reservationFail, p.idx)
      else match p.invalidLine, p.validLine with
        | some i, _ => .ok (.miss, i)
        | none, some i => .ok (.miss, i)
        | none, none => .error .assertion)
    (htimes : ∀ j, TagArray.evictTime cfg (lines j) < 2 ^ 64 - 1)
    (h : TagInInvalidLine lines (cfg.getTag addr) s (TagArray.setLines cfg set)) :
    ¬VictimExact cfg lines addr idx s (TagArray.setLines cfg set) := by
  obtain ⟨-, ⟨m, hm, htag⟩, hothers⟩ := h
  intro hexact
  have hminv := (not_wayAnswers_iff.mp (hnone m hm)).isInvalidLine htag
  by_cases hall : p.allReserved = true
  · rw [if_pos hall] at hprobe
    have hreserved := (hexact.reservationFail.mp ⟨_, hprobe⟩).2 m hm
    rw [isReservedLine_of_invalid hminv] at hreserved
    cases hreserved
  rw [if_neg hall] at hprobe
  cases hinv : p.invalidLine with
  | some k =>
    obtain ⟨hk, hktag, hkinv⟩ := hscan.invalid_some k hinv
    rw [hothers k hk hktag] at hkinv
    cases hkinv
  | none =>
    obtain ⟨k, hval⟩ := hscan.exists_valid htimes hall hinv
    rw [hinv, hval] at hprobe
    obtain ⟨hk, hkev, -⟩ := hscan.valid_some k hval
    have hkinv := (hexact.miss k hprobe).2.2.1 ⟨m, hm, hminv⟩
    rw [hothers k hk hkev.1] at hkinv
    cases hkinv

/-- A probe fails only if every line is reserved. -/
theorem victimExact_of_allReserved (hall : p.allReserved = true)
    (hprobe : TagArray.probe cfg lines addr idx s = .ok (.reservationFail, p.idx))
    (hnot : ¬TagInInvalidLine lines (cfg.getTag addr) s (TagArray.setLines cfg set)) :
    VictimExact cfg lines addr idx s (TagArray.setLines cfg set) := by
  have hreserved : ∀ j ∈ TagArray.setLines cfg set, (lines j).isReservedLine = true := by
    intro j hj
    refine (hscan.allReserved.mp hall j hj).resolve_left fun htag => hnot ?_
    refine ⟨hnone, ⟨j, hj, htag⟩, fun k hk hktag => ?_⟩
    have hkres := (hscan.allReserved.mp hall k hk).resolve_left (by rw [hktag]; decide)
    by_contra hkinv
    rw [isReservedLine_of_invalid (by simpa using hkinv)] at hkres
    cases hkres
  refine ⟨⟨fun _ => ⟨hnone, hreserved⟩, fun _ => ⟨_, hprobe⟩⟩, fun i hi => ?_⟩
  rw [hprobe] at hi
  cases hi

omit hnone in
/-- A victim that is invalid. -/
theorem victimExact_of_invalid {k : ℕ} (hall : ¬p.allReserved = true)
    (hinv : p.invalidLine = some k)
    (hprobe : TagArray.probe cfg lines addr idx s = .ok (.miss, k)) :
    VictimExact cfg lines addr idx s (TagArray.setLines cfg set) := by
  obtain ⟨hk, -, hkinv⟩ := hscan.invalid_some k hinv
  refine ⟨⟨?_, fun h => ?_⟩, fun i hi => ?_⟩
  · rintro ⟨i, hi⟩
    rw [hprobe] at hi
    cases hi
  · exact absurd (hscan.allReserved.mpr fun j hj => .inr (h.2 j hj)) hall
  · rw [hprobe] at hi
    cases hi
    refine ⟨hk, isReservedLine_of_invalid hkinv, fun _ => hkinv, fun h => ?_⟩
    rw [h k hk] at hkinv
    cases hkinv

/-- The oldest line is at least as old as every line that is not reserved, if none is invalid. -/
theorem VictimScan.oldest {k : ℕ} (hval : p.validLine = some k)
    (hvalid : ∀ j ∈ TagArray.setLines cfg set, (lines j).isInvalidLine = false) :
    ∀ j ∈ TagArray.setLines cfg set, (lines j).isReservedLine = false →
      TagArray.evictTime cfg (lines k) ≤ TagArray.evictTime cfg (lines j) := by
  intro j hj hjres
  have hjtag : (lines j).matchTag (cfg.getTag addr) = false := by
    by_contra hjtag
    have hjinv := (not_wayAnswers_iff.mp (hnone j hj)).isInvalidLine (by simpa using hjtag)
    rw [hvalid j hj] at hjinv
    cases hjinv
  rw [← (hscan.valid_some k hval).2.2]
  exact hscan.least j hj ⟨hjtag, hjres⟩ (hvalid j hj)

/-- A victim that is the oldest line. -/
theorem victimExact_of_valid {k : ℕ} (hall : ¬p.allReserved = true)
    (hinv : p.invalidLine = none) (hval : p.validLine = some k)
    (hprobe : TagArray.probe cfg lines addr idx s = .ok (.miss, k))
    (hnot : ¬TagInInvalidLine lines (cfg.getTag addr) s (TagArray.setLines cfg set)) :
    VictimExact cfg lines addr idx s (TagArray.setLines cfg set) := by
  obtain ⟨hk, hkev, -⟩ := hscan.valid_some k hval
  refine ⟨⟨?_, fun h => ?_⟩, fun i hi => ?_⟩
  · rintro ⟨i, hi⟩
    rw [hprobe] at hi
    cases hi
  · exact absurd (hscan.allReserved.mpr fun j hj => .inr (h.2 j hj)) hall
  · rw [hprobe] at hi
    cases hi
    refine ⟨hk, hkev.2, ?_, fun hvalid => hscan.oldest hnone hval hvalid⟩
    rintro ⟨j, hj, hjinv⟩
    have hjtag := (hscan.invalid_none hinv j hj).resolve_right (by rw [hjinv]; decide)
    refine absurd ⟨hnone, ⟨j, hj, hjtag⟩, fun k hk hktag => ?_⟩ hnot
    exact (hscan.invalid_none hinv k hk).resolve_left (by rw [hktag]; decide)

end

/-- The victim of a probe is right exactly if the tag is not in an invalid line beside which no
other line is invalid. -/
theorem victimExact_lines_iff (hpolicy : cfg.allocPolicy = .onMiss) {set : ℕ}
    (hset : cfg.getSetIndex addr = .ok set)
    (htimes : ∀ j, TagArray.evictTime cfg (lines j) < 2 ^ 64 - 1) :
    VictimExact cfg lines addr idx s (TagArray.setLines cfg set) ↔
      ¬TagInInvalidLine lines (cfg.getTag addr) s (TagArray.setLines cfg set) := by
  rcases probe_eq lines idx s hset with
    ⟨⟨status, i⟩, hprobe, hi, hanswer⟩ | ⟨p, hscan, hnone, hprobe⟩
  · -- A way gives the answer, and there is no victim.
    refine ⟨fun _ h => h.1 i hi ⟨status, hanswer⟩, fun _ => ⟨⟨?_, ?_⟩, ?_⟩⟩
    · rintro ⟨j, hj⟩
      rw [hprobe] at hj
      cases hj
      cases hanswer
    · exact fun h => absurd ⟨status, hanswer⟩ (h.1 i hi)
    · intro j hj
      rw [hprobe] at hj
      cases hj
      cases hanswer
  · rw [if_pos hpolicy] at hprobe
    refine ⟨fun hexact h => not_victimExact hscan hnone hprobe htimes h hexact, fun hnot => ?_⟩
    by_cases hall : p.allReserved = true
    · rw [if_pos hall] at hprobe
      exact victimExact_of_allReserved hscan hnone hall hprobe hnot
    rw [if_neg hall] at hprobe
    cases hinv : p.invalidLine with
    | some k =>
      rw [hinv] at hprobe
      exact victimExact_of_invalid hscan hall hinv hprobe
    | none =>
      obtain ⟨k, hval⟩ := hscan.exists_valid htimes hall hinv
      rw [hinv, hval] at hprobe
      exact victimExact_of_valid hscan hnone hall hinv hval hprobe hnot

/-- The victim of a miss in a set without an invalid line is not reserved, and no other line that
is not reserved is older. -/
theorem probe_miss_oldest {set : ℕ} (hset : cfg.getSetIndex addr = .ok set)
    (hprobe : TagArray.probe cfg lines addr idx s = .ok (.miss, i))
    (hvalid : ∀ j ∈ TagArray.setLines cfg set, (lines j).isInvalidLine = false) :
    i ∈ TagArray.setLines cfg set ∧ (lines i).isReservedLine = false ∧
      ∀ j ∈ TagArray.setLines cfg set, (lines j).isReservedLine = false →
        TagArray.evictTime cfg (lines i) ≤ TagArray.evictTime cfg (lines j) := by
  rcases probe_eq lines idx s hset with
    ⟨answer, hprobe', -, hanswer⟩ | ⟨p, hscan, hnone, hprobe'⟩
  · rw [hprobe] at hprobe'
    cases hprobe'
    cases hanswer
  rw [hprobe] at hprobe'
  by_cases hall : p.allReserved = true
  · rw [if_pos hall] at hprobe'
    split_ifs at hprobe'
    cases hprobe'
  rw [if_neg hall] at hprobe'
  cases hinv : p.invalidLine with
  | some k =>
    obtain ⟨hk, -, hkinv⟩ := hscan.invalid_some k hinv
    rw [hvalid k hk] at hkinv
    cases hkinv
  | none =>
    cases hval : p.validLine with
    | none =>
      rw [hinv, hval] at hprobe'
      cases hprobe'
    | some k =>
      rw [hinv, hval] at hprobe'
      cases hprobe'
      obtain ⟨hi, hiev, -⟩ := hscan.valid_some i hval
      exact ⟨hi, hiev.2, hscan.oldest hnone hval hvalid⟩

/-! ## The times of lines -/

/-- A property of lines that calls at a time keep. -/
structure LineInvariant (P : CacheBlock → Prop) (time : ℕ) : Prop where
  setLastAccessTime : ∀ b, P b → P (b.setLastAccessTime time)
  setStatus : ∀ b status s, P b → P (b.setStatus status s)
  allocate : ∀ b tag blockAddr, P b → P (b.allocate tag blockAddr time)
  allocateSector : ∀ b b' s, P b → b.allocateSector time s = .ok b' → P b'
  fill : ∀ b s, P b → P (b.fill s)

section

open DataCache (WithEvents)

variable {P : CacheBlock → Prop} {time id : ℕ} {c c' : DataCache} {st st' : WithEvents}
  {status : CacheRequestStatus}

theorem forall_update {b : CacheBlock} (h : ∀ j, P (lines j)) (hb : P b) (j : ℕ) :
    P (Function.update lines i b j) := by
  by_cases hj : j = i
  · rw [hj, Function.update_self]
    exact hb
  · rw [Function.update_of_ne hj]
    exact h j

theorem LineInvariant.tagAccess (hP : LineInvariant P time) (h : ∀ j, P (lines j))
    {r : TagArray.AccessResult} (hcase : TagAccess cfg lines addr time i s status r) (j : ℕ) :
    P (r.lines j) := by
  cases hcase with
  | hit => exact forall_update h (hP.setLastAccessTime _ (h i)) j
  | sectorMiss b _ _ halloc => exact forall_update h (hP.allocateSector _ _ _ (h i) halloc) j
  | miss => exact forall_update h (hP.allocate _ _ _ (h i)) j
  | hitReserved | sectorMissLater | missLater | reservationFail => exact h j

theorem LineInvariant.access (hP : LineInvariant P time) (h : ∀ j, P (st.1.lines j))
    (haccess : DataCache.access cfg addr time id st = .ok (status, st')) (j : ℕ) :
    P (st'.1.lines j) := by
  obtain ⟨probed, idx, hprobe, houtcome⟩ := access_cases haccess
  cases houtcome with
  | failed | writeAround => exact h j
  | readHit idx' c hstatus _ htouch =>
    subst hstatus
    obtain ⟨-, rfl⟩ := touch_hit htouch (probe_start idx hprobe (by decide))
    exact forall_update h (hP.setLastAccessTime _ (h idx)) j
  | writeHit idx' c hstatus _ _ htouch | writeThrough idx' c hstatus _ _ htouch =>
    subst hstatus
    obtain ⟨rfl, rfl⟩ := touch_hit htouch (probe_start idx hprobe (by decide))
    have htouched := forall_update (i := idx') h (hP.setLastAccessTime _ (h idx'))
    exact forall_update htouched (hP.setStatus _ _ _ (htouched idx')) j
  | writeEvict => exact forall_update h (hP.setStatus _ _ _ (h idx)) j
  | readMiss r s' _ hfail _ _ hrequest hmiss hback =>
    obtain ⟨t, htag, hlines⟩ := hrequest.lines_eq hmiss (probe_start idx hprobe hfail) hback
    rw [hlines]
    exact hP.tagAccess h htag j
  | writeAllocate r s' _ hfail _ _ _ hrequest hmiss hback =>
    obtain ⟨t, htag, hlines⟩ :=
      writeAllocate_lines hrequest hmiss (probe_start idx hprobe hfail) hback
    rw [hlines]
    exact hP.tagAccess h htag j

theorem LineInvariant.fillTagArray (hP : LineInvariant P time) (h : ∀ j, P (c.lines j))
    {field : ExtraMfFields} {lines : ℕ → CacheBlock}
    (hfill : c.fillTagArray cfg field time s = .ok lines) (j : ℕ) : P (lines j) := by
  unfold DataCache.fillTagArray at hfill
  cases hpolicy : cfg.allocPolicy with
  | onMiss =>
    simp only [hpolicy, TagArray.fillIndex, if_true] at hfill
    cases hfill
    exact forall_update h (hP.fill _ _ (h _)) j
  | onFill =>
    rw [hpolicy] at hfill
    obtain ⟨⟨status, i⟩, -, hfill⟩ := bind_eq_ok.mp hfill
    obtain ⟨b, hb, hfill⟩ := bind_eq_ok.mp hfill
    cases hfill
    refine forall_update h (hP.fill _ _ ?_) j
    cases status with
    | miss =>
      cases hb
      exact hP.allocate _ _ _ (h i)
    | sectorMiss =>
      dsimp only at hb
      split at hb
      · exact hP.allocateSector _ _ _ (h i) hb
      · cases hb
    | hit | hitReserved | reservationFail =>
      cases hb
      exact h i
  | streaming =>
    rw [hpolicy] at hfill
    cases hfill
    exact h j

end

/-- The time of a call is a number of 32 bits, as its parameter has it. -/
def TimeFits : CacheAction → Prop
  | .access _ _ time => time < 2 ^ 32
  | .fill _ time => time < 2 ^ 32
  | _ => True

/-- **What every line keeps at every call holds of all lines.** -/
theorem LineInvariant.step {P : CacheBlock → Prop} {c c' : DataCache} {a : CacheAction}
    (hP : ∀ time < 2 ^ 32, LineInvariant P time) (h : ∀ j, P (c.lines j)) (ha : TimeFits a)
    (hstep : c.step cfg a = .ok c') (j : ℕ) : P (c'.lines j) := by
  cases a with
  | access f addr time =>
    obtain ⟨status, events, haccess⟩ := step_access hstep
    have hstart : ∀ j, P ((c.newFetch f).2.lines j) := h
    exact (hP time ha).access hstart haccess j
  | fill id time =>
    rcases step_fill hstep with ⟨-, rfl⟩ | ⟨field, lines, mshrs, -, hlines, -, rfl⟩
    · exact h j
    · exact (hP time ha).fillTagArray h hlines j
  | popNextAccess =>
    rcases step_pop hstep with rfl | ⟨id, mshrs, -, rfl⟩
    · exact h j
    · exact h j
  | cycle =>
    cases hstep
    exact h j

/-- The times of a line are numbers of 32 bits. -/
def TimesFit (b : CacheBlock) : Prop := b.getLastAccessTime < 2 ^ 32 ∧ b.getAllocTime < 2 ^ 32

theorem timesFit_invariant {time : ℕ} (htime : time < 2 ^ 32) : LineInvariant TimesFit time where
  setLastAccessTime b h := by cases b <;> exact ⟨htime, h.2⟩
  setStatus b status s h := by cases b <;> exact h
  allocate b tag blockAddr _ := by cases b <;> exact ⟨htime, htime⟩
  allocateSector b b' s h halloc := by
    cases b with
    | line b => cases halloc
    | sector b =>
      rw [CacheBlock.allocateSector] at halloc
      by_cases hvalid : (CacheBlock.sector b).isValidLine = true
      · rw [if_pos hvalid] at halloc
        cases halloc
        exact ⟨htime, h.2⟩
      · rw [if_neg hvalid] at halloc
        cases halloc
  fill b s h := by cases b <;> exact h

/-- **The victim is right exactly if the tag is not in an invalid line beside which no other line is
invalid**, in every state that a data cache reaches. -/
theorem victimExact_iff (cfg : CacheConfig) (hpolicy : cfg.allocPolicy = .onMiss)
    (tags : ℕ → ℕ × ℕ) (fetches : ℕ → CacheFetch) (c : DataCache)
    (hreach : Reach (DataCache.step cfg) (fun _ a => TimeFits a) (.initial cfg tags fetches) c)
    (addr idx set : ℕ) (s : Sector) (hset : cfg.getSetIndex addr = .ok set) :
    VictimExact cfg c.lines addr idx s (TagArray.setLines cfg set) ↔
      ¬TagInInvalidLine c.lines (cfg.getTag addr) s (TagArray.setLines cfg set) := by
  have htimes : ∀ j, TimesFit (c.lines j) := by
    apply hreach.invariant
    · intro j
      dsimp only [DataCache.initial, CacheBlock.initial]
      split
      · exact ⟨Nat.two_pow_pos 32, Nat.two_pow_pos 32⟩
      · exact ⟨Nat.two_pow_pos 32, Nat.two_pow_pos 32⟩
    · intro c a c' _ h ha hstep
      exact LineInvariant.step (fun time => timesFit_invariant) h ha hstep
  refine victimExact_lines_iff hpolicy hset fun j => ?_
  obtain ⟨haccess, halloc⟩ := htimes j
  unfold TagArray.evictTime
  cases cfg.evictPolicy with
  | lru => exact haccess.trans (by decide)
  | fifo => exact halloc.trans (by decide)

/-- A cache with one line that a write hit evicts. -/
def writeEvictCache : CacheConfig := { smallCache .normal 1 4 with writePolicy := .writeEvict }

theorem victimExact_iff_empty :
    VictimExact writeEvictCache
        (DataCache.initial writeEvictCache (fun _ => (1, 1)) fun _ => readFetch 0 0).lines 0 0 0
        (TagArray.setLines writeEvictCache 0) ↔
      ¬TagInInvalidLine
        (DataCache.initial writeEvictCache (fun _ => (1, 1)) fun _ => readFetch 0 0).lines
        (writeEvictCache.getTag 0) 0 (TagArray.setLines writeEvictCache 0) :=
  victimExact_iff writeEvictCache rfl (fun _ => (1, 1)) (fun _ => readFetch 0 0) _ .init 0 0 0 0 rfl

/-- A block is read and then written. -/
def readThenEvict : List CacheAction :=
  [.access (readFetch 0 0) 0 0, .cycle, .fill 0 1,
    .access { readFetch 0 0 with accessType := .globalAccW, mfType := .writeRequest } 0 2]

/-- The line that a write has evicted is free, but the probe for its block fails. -/
theorem not_victimExact_evicted : ∃ c : DataCache,
    Reach (DataCache.step writeEvictCache) (fun _ a => TimeFits a)
      (.initial writeEvictCache (fun _ => (1, 1)) fun _ => readFetch 0 0) c ∧
    TagArray.probe writeEvictCache c.lines 0 0 0 = .ok (.reservationFail, 0) ∧
    (c.lines 0).isInvalidLine = true ∧
    ¬VictimExact writeEvictCache c.lines 0 0 0 (TagArray.setLines writeEvictCache 0) := by
  obtain ⟨c, hrun, hprobe, hinvalid⟩ : ∃ c, readThenEvict.foldlM (DataCache.step writeEvictCache)
      (.initial writeEvictCache (fun _ => (1, 1)) fun _ => readFetch 0 0) = .ok c ∧
      TagArray.probe writeEvictCache c.lines 0 0 0 = .ok (.reservationFail, 0) ∧
      (c.lines 0).isInvalidLine = true := ⟨_, rfl, rfl, rfl⟩
  refine ⟨c, ?_, hprobe, hinvalid, fun h => ?_⟩
  · refine Reach.of_foldlM _ .init hrun fun _ a ha => ?_
    revert a
    simp [readThenEvict, TimeFits]
  · have hreserved := (h.reservationFail.mp ⟨0, hprobe⟩).2 0 (List.mem_singleton_self 0)
    rw [isReservedLine_of_invalid hinvalid] at hreserved
    cases hreserved

end PyTorchSim.Analysis
