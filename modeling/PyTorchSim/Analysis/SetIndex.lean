import PyTorchSim.Model.Cache

/-!
# The set of an address

The XOR and the polynomial function are meant to hash the bits of an address above the index.  The
source compares the address with the number of the lower bits in place of shifting it, so that all
addresses but the lowest ones are hashed with the same bit.
-/

set_option autoImplicit false

namespace PyTorchSim.Analysis

open PyTorchSim.Model

variable {cfg : CacheConfig} {a b : ℕ}

/-- Lines and sets come in powers of two, the polynomial hash is made for 16, 32 or 64 sets, and the
function is one of the three that the cache implements. -/
structure SetGeometry (cfg : CacheConfig) (a b : ℕ) : Prop where
  lineSize : cfg.lineSize = 2 ^ a
  nset : cfg.nset = 2 ^ b
  line_lt : a < 32
  set_lt : b < 32
  ipoly : cfg.setIndexFunction = .hashIpoly → b = 4 ∨ b = 5 ∨ b = 6
  implemented : cfg.setIndexFunction ≠ .custom

/-- The hash of the index bits with the bits above them. -/
def tagHash (cfg : CacheConfig) (addr : ℕ) : Option ℕ :=
  let index := addr / cfg.lineSize % cfg.nset
  let tag := addr >>> (Nat.log2 cfg.lineSize + Nat.log2 cfg.nset)
  match cfg.setIndexFunction with
  | .bitwiseXoring => some (index ^^^ (tag &&& (cfg.nset - 1)))
  | .hashIpoly => ipolyHashFunction tag index cfg.nset
  | _ => some index

/-- The set index is as a cache needs it. -/
structure SetIndexExact (cfg : CacheConfig) : Prop where
  /-- It is the number of a set. -/
  lt : ∀ addr < 2 ^ 64, ∃ i < cfg.nset, cfg.getSetIndex addr = .ok i
  /-- All addresses of a line have the same set. -/
  line : ∀ addr < 2 ^ 64, ∀ addr' < 2 ^ 64, addr / cfg.lineSize = addr' / cfg.lineSize →
    cfg.getSetIndex addr = cfg.getSetIndex addr'
  /-- Each set gets one of the lines that share the bits `h` above the index. -/
  bijective : ∀ h o, (h + 1) * cfg.nset * cfg.lineSize ≤ 2 ^ 64 → o < cfg.lineSize →
    ∀ i < cfg.nset, ∃ j, (j < cfg.nset ∧
      cfg.getSetIndex ((h * cfg.nset + j) * cfg.lineSize + o) = .ok i) ∧
      ∀ j' < cfg.nset, cfg.getSetIndex ((h * cfg.nset + j') * cfg.lineSize + o) = .ok i → j' = j
  /-- It is the hash of the index bits with the tag bits. -/
  hash : ∀ addr < 2 ^ 64, (cfg.getSetIndex addr).toOption = tagHash cfg addr

/-- The mask of the set number. -/
theorem setMask_eq (hb : b < 32) : (2 ^ b + 2 ^ 32 - 1) % 2 ^ 32 = 2 ^ b - 1 := by
  have hpos := Nat.two_pow_pos b
  have hlt := Nat.pow_lt_pow_right (a := 2) (by decide) hb
  have hsum : 2 ^ b + 2 ^ 32 - 1 = 2 ^ b - 1 + 2 ^ 32 := by omega
  rw [hsum, Nat.add_mod_right]
  exact Nat.mod_eq_of_lt (by omega)

/-- The index bits of an address. -/
theorem indexBits_eq (addr : ℕ) : (addr >>> a) &&& (2 ^ b - 1) = addr / 2 ^ a % 2 ^ b := by
  rw [Nat.shiftRight_eq_div_pow, Nat.and_two_pow_sub_one_eq_mod]

/-- Without a hash the set is given by the index bits. -/
theorem SetGeometry.unhashed (hg : SetGeometry cfg a b)
    (hf : cfg.setIndexFunction = .linear ∨ cfg.setIndexFunction = .bitwiseXoring ∧ cfg.nset = 1)
    (addr : ℕ) :
    cfg.getSetIndex addr = .ok (addr / cfg.lineSize % cfg.nset) ∧
      tagHash cfg addr = some (addr / cfg.lineSize % cfg.nset) := by
  have hindex : (addr >>> Nat.log2 cfg.lineSize) &&& ((cfg.nset + 2 ^ 32 - 1) % 2 ^ 32) =
      addr / cfg.lineSize % cfg.nset := by
    rw [hg.lineSize, hg.nset, Nat.log2_two_pow, setMask_eq hg.set_lt, indexBits_eq]
  unfold CacheConfig.getSetIndex tagHash
  dsimp only
  rw [hindex]
  rcases hf with hf | ⟨hf, hone⟩
  · simp [hf]
  · simp [hf, hone]

theorem SetGeometry.exact_of_unhashed (hg : SetGeometry cfg a b)
    (hf : cfg.setIndexFunction = .linear ∨ cfg.setIndexFunction = .bitwiseXoring ∧ cfg.nset = 1) :
    SetIndexExact cfg := by
  have hset : 0 < cfg.nset := by
    rw [hg.nset]
    exact Nat.two_pow_pos b
  have hline : 0 < cfg.lineSize := by
    rw [hg.lineSize]
    exact Nat.two_pow_pos a
  have hindex := fun addr => (hg.unhashed hf addr).1
  constructor
  case lt => exact fun addr _ => ⟨_, Nat.mod_lt _ hset, hindex addr⟩
  case line =>
    intro addr _ addr' _ hsame
    rw [hindex, hindex, hsame]
  case bijective =>
    intro h o _ ho i hi
    have hplace (j : ℕ) (hj : j < cfg.nset) :
        cfg.getSetIndex ((h * cfg.nset + j) * cfg.lineSize + o) = .ok j := by
      rw [hindex, Nat.add_comm _ o, Nat.add_mul_div_right _ _ hline, Nat.div_eq_of_lt ho,
        Nat.zero_add, Nat.mul_comm h, Nat.mul_add_mod, Nat.mod_eq_of_lt hj]
    refine ⟨i, ⟨hi, hplace i hi⟩, fun j' hj' h' => ?_⟩
    rw [hplace j' hj'] at h'
    exact Except.ok.inj h'
  case hash =>
    intro addr _
    rw [hindex, (hg.unhashed hf addr).2]
    rfl

/-- The lowest address whose second tag bit is set. -/
theorem SetGeometry.hashed_fails (hg : SetGeometry cfg a b)
    (hf : cfg.setIndexFunction = .bitwiseXoring ∧ b ≠ 0 ∨ cfg.setIndexFunction = .hashIpoly) :
    (cfg.getSetIndex (2 ^ (a + b + 1))).toOption ≠ tagHash cfg (2 ^ (a + b + 1)) := by
  have hindex : (2 ^ (a + b + 1)) / 2 ^ a % 2 ^ b = 0 := by
    have hpow : 2 ^ (a + b + 1) = 2 ^ a * (2 ^ b * 2) := by
      rw [Nat.pow_succ, Nat.pow_add, Nat.mul_assoc]
    rw [hpow, Nat.mul_div_cancel_left _ (Nat.two_pow_pos a), Nat.mul_mod_right]
  have htag : 2 ^ (a + b + 1) >>> (a + b) = 2 := by
    rw [Nat.shiftRight_eq_div_pow, Nat.pow_succ, Nat.mul_div_cancel_left _ (Nat.two_pow_pos _)]
  have hgreater : 2 ^ (a + b + 1) > a + b := by
    have := Nat.lt_two_pow_self (n := a + b + 1)
    omega
  unfold CacheConfig.getSetIndex tagHash
  dsimp only
  rw [hg.lineSize, hg.nset, Nat.log2_two_pow, Nat.log2_two_pow, setMask_eq hg.set_lt, indexBits_eq,
    hindex, htag, decide_eq_true hgreater]
  rcases hf with ⟨hf, hb⟩ | hf
  · have htwo : 2 ≤ 2 ^ b := Nat.le_self_pow hb 2
    have hfirst : 1 &&& (2 ^ b - 1) = 1 := by
      rw [Nat.and_two_pow_sub_one_eq_mod, Nat.mod_eq_of_lt htwo]
    have hsecond : 2 &&& (2 ^ b - 1) ≠ 1 := by
      rw [Nat.and_two_pow_sub_one_eq_mod]
      intro hone
      have hparity := Nat.mod_mod_of_dvd 2 (dvd_pow_self 2 hb)
      rw [hone] at hparity
      cases hparity
    rw [hf]
    dsimp only [Except.toOption, Bool.toNat]
    rw [cond_true, hfirst, Nat.zero_xor, Nat.zero_xor]
    exact fun heq => hsecond (Option.some.inj heq).symm
  · rw [hf]
    rcases hg.ipoly hf with rfl | rfl | rfl <;> decide

/-- **The set index is exact for the linear function only**, or when there is one set. -/
theorem setIndex_exact_iff (cfg : CacheConfig) (a b : ℕ) (hg : SetGeometry cfg a b) :
    SetIndexExact cfg ↔
      cfg.setIndexFunction = .linear ∨ cfg.setIndexFunction = .bitwiseXoring ∧ cfg.nset = 1 := by
  refine ⟨fun h => ?_, hg.exact_of_unhashed⟩
  by_contra hnot
  have hrange : 2 ^ (a + b + 1) < 2 ^ 64 :=
    Nat.pow_lt_pow_right (by decide) (by have := hg.line_lt; have := hg.set_lt; omega)
  refine hg.hashed_fails ?_ (h.hash _ hrange)
  cases hf : cfg.setIndexFunction with
  | linear => exact absurd (.inl hf) hnot
  | bitwiseXoring =>
    refine .inl ⟨rfl, fun hb => hnot (.inr ⟨hf, ?_⟩)⟩
    rw [hg.nset, hb, Nat.pow_zero]
  | hashIpoly => exact .inr rfl
  | custom => exact absurd hf hg.implemented

/-- A cache of 16 sets with lines of 128 bytes. -/
def sixteenSets (f : SetIndexFunction) : CacheConfig where
  cacheType := .normal
  nset := 16
  lineSize := 128
  assoc := 4
  sectorSize := 32
  evictPolicy := .lru
  writePolicy := .writeBack
  allocPolicy := .onMiss
  writeAllocPolicy := .writeAllocate
  setIndexFunction := f
  mshrType := .assoc
  mshrEntries := 16
  mshrMaxMerge := 4
  missQueueSize := 8
  dataPortWidth := 32

theorem setIndex_exact_iff_linear : SetIndexExact (sixteenSets .linear) :=
  (setIndex_exact_iff (sixteenSets .linear) 7 4
    ⟨rfl, rfl, by decide, by decide, nofun, nofun⟩).mpr (.inl rfl)

/-- The lines at 4096 and 2048 differ in their tag bits only, and XOR gives them the same set; within
the first line two addresses have different sets. -/
theorem not_setIndex_exact :
    (sixteenSets .bitwiseXoring).getSetIndex 4096 = .ok 1 ∧
    tagHash (sixteenSets .bitwiseXoring) 4096 = some 2 ∧
    (sixteenSets .bitwiseXoring).getSetIndex 0 ≠ (sixteenSets .bitwiseXoring).getSetIndex 64 ∧
    ¬SetIndexExact (sixteenSets .bitwiseXoring) := by
  have hcode : (sixteenSets .bitwiseXoring).getSetIndex 4096 = .ok 1 := by decide +kernel
  have hhash : tagHash (sixteenSets .bitwiseXoring) 4096 = some 2 := by decide +kernel
  refine ⟨hcode, hhash, by decide +kernel, fun h => ?_⟩
  have heq := h.hash 4096 (by decide)
  rw [hcode, hhash] at heq
  cases heq

end PyTorchSim.Analysis
