import PyTorchSim.Model.Dram
import PyTorchSim.Library.XorResidue
import Mathlib.Tactic.IntervalCases

/-!
# When the address map is exact

Quotient and remainder of a transaction number by the number `n` of channels determine it.
The quotient stays in the address within the channel; the remainder is what the channel has to
keep.  The hash is an exclusive or of the remainder with bits of the quotient, folded by `% n`,
so it keeps the remainder exactly if `n` is a power of two that the hash has bits for.  For
another `n` up to 64 the fold merges two remainders, and above 64 the hash does not reach the
channels.
-/

set_option autoImplicit false

namespace PyTorchSim.Analysis

open PyTorchSim.Model PyTorchSim.Library

/-! ## The hash -/

theorem testBit_bitsetToUlong (l : List Bool) (i : ℕ) :
    (bitsetToUlong l).testBit i = l.getD i false := by
  induction l generalizing i with
  | nil => simp [bitsetToUlong]
  | cons b bs ih =>
      unfold bitsetToUlong
      cases i with
      | zero => cases b <;> simp [Nat.testBit_zero]
      | succ i =>
          have hdiv : (b.toNat + 2 * bitsetToUlong bs) / 2 = bitsetToUlong bs := by
            have hb := Bool.toNat_le b
            omega
          rw [Nat.testBit_succ, hdiv, ih]
          rfl

/-- The exclusive or of the hash: the bits of the quotient that it mixes into the remainder. -/
def mix (bankSetNum higherBits : ℕ) : ℕ := (ipolyHashFunction higherBits 0 bankSetNum).getD 0

/-- The hash of a table size it knows is the remainder with the mixed bits. -/
theorem ipolyHashFunction_eq {w : ℕ} (hw : w = 4 ∨ w = 5 ∨ w = 6) {q r : ℕ} (hr : r < 2 ^ w) :
    ipolyHashFunction q r (2 ^ w) = some (r ^^^ mix (2 ^ w) q) := by
  have hbit : ∀ i, w ≤ i → r.testBit i = false := by
    intro i hi
    exact Nat.testBit_lt_two_pow (lt_of_lt_of_le hr (Nat.pow_le_pow_right (by omega) hi))
  rcases hw with rfl | rfl | rfl
  all_goals
    unfold mix ipolyHashFunction
    simp only [Nat.reducePow, Nat.reduceEqDiff, if_true, if_false, Option.getD_some,
      Option.some.injEq]
    apply Nat.eq_of_testBit_eq
    intro i
    rw [Nat.testBit_xor, testBit_bitsetToUlong, testBit_bitsetToUlong]
    simp only [Nat.zero_testBit, Bool.xor_false]
  · rcases Nat.lt_or_ge i 4 with hi | hi
    · interval_cases i <;> exact Bool.xor_comm _ _
    · rw [hbit i hi, List.getD_eq_default _ _ hi, List.getD_eq_default _ _ hi]
      rfl
  · rcases Nat.lt_or_ge i 5 with hi | hi
    · interval_cases i <;> exact Bool.xor_comm _ _
    · rw [hbit i hi, List.getD_eq_default _ _ hi, List.getD_eq_default _ _ hi]
      rfl
  · rcases Nat.lt_or_ge i 6 with hi | hi
    · interval_cases i <;> exact Bool.xor_comm _ _
    · rw [hbit i hi, List.getD_eq_default _ _ hi, List.getD_eq_default _ _ hi]
      rfl

/-- The hash has six bits at most. -/
theorem ipolyHashFunction_lt {q r p c : ℕ} (h : ipolyHashFunction q r p = some c) : c < 64 := by
  have hlen : ∀ l : List Bool, l.length ≤ 6 → bitsetToUlong l < 2 ^ 6 := by
    intro l hl
    apply Nat.lt_pow_two_of_testBit
    intro i hi
    rw [testBit_bitsetToUlong]
    exact List.getD_eq_default _ _ (by omega)
  unfold ipolyHashFunction at h
  dsimp only at h
  split at h
  · cases h
    exact hlen _ (by simp)
  · split at h
    · cases h
      exact hlen _ (by simp)
    · split at h
      · cases h
        exact hlen _ (by simp)
      · cases h

theorem polyUse_eq {n : ℕ} (hn : n ≤ 64) :
    polyUse n = if n ≤ 16 then 2 ^ 4 else if n ≤ 32 then 2 ^ 5 else 2 ^ 6 := by
  have hall : ∀ n < 65, polyUse n = if n ≤ 16 then 2 ^ 4 else if n ≤ 32 then 2 ^ 5 else 2 ^ 6 := by
    decide
  exact hall n (by omega)

/-- The table of a number of channels is one that the hash knows, and has room for them. -/
theorem exists_polyUse {n : ℕ} (hn : n ≤ 64) :
    ∃ w, (w = 4 ∨ w = 5 ∨ w = 6) ∧ polyUse n = 2 ^ w ∧ n ≤ 2 ^ w := by
  rw [polyUse_eq hn]
  split
  · exact ⟨4, .inl rfl, rfl, by omega⟩
  · split
    · exact ⟨5, .inr (.inl rfl), rfl, by omega⟩
    · exact ⟨6, .inr (.inr rfl), rfl, by omega⟩

/-! ## The channel -/

variable {d : DramConfig}

theorem eq_two_pow_of_isPowerOf2U32 {n : ℕ} (h : isPowerOf2U32 n = true) :
    n = 2 ^ floorLog2U32 n := by
  unfold isPowerOf2U32 at h
  simp only [ne_eq, Bool.and_eq_true, decide_eq_true_eq] at h
  obtain ⟨hne, hand⟩ := h
  unfold floorLog2U32
  by_contra hcontra
  have hle : 2 ^ n.log2 ≤ n := Nat.log2_self_le hne
  have hlt : n < 2 ^ (n.log2 + 1) := Nat.lt_log2_self
  have htop : n.testBit n.log2 = true :=
    Nat.testBit_of_two_pow_le_and_two_pow_add_one_gt hle hlt
  have htop' : (n - 1).testBit n.log2 = true :=
    Nat.testBit_of_two_pow_le_and_two_pow_add_one_gt (by omega) (by omega)
  have hbit : (n &&& (n - 1)).testBit n.log2 = true := by
    rw [Nat.testBit_and, htop, htop']
    rfl
  rw [hand, Nat.zero_testBit] at hbit
  cases hbit

/-- Both branches split the transaction number into quotient and remainder. -/
theorem channelInPartition_eq (hn : 1 < d.nChPerPartition) (addr : ℕ) :
    d.channelInPartition addr =
      (ipolyHashFunction ((addr >>> d.txLog2) / d.nChPerPartition)
        ((addr >>> d.txLog2) % d.nChPerPartition) (polyUse d.nChPerPartition)).map
          (· % d.nChPerPartition) := by
  unfold DramConfig.channelInPartition
  dsimp only
  rw [if_pos hn]
  split
  · rename_i hpow
    have hk := eq_two_pow_of_isPowerOf2U32 hpow
    have hdiv : (addr >>> d.txLog2) >>> floorLog2U32 d.nChPerPartition =
        (addr >>> d.txLog2) / d.nChPerPartition := by
      rw [Nat.shiftRight_eq_div_pow (addr >>> d.txLog2), ← hk]
    have hmod : (addr >>> d.txLog2) &&& (d.nChPerPartition - 1) =
        (addr >>> d.txLog2) % d.nChPerPartition := by
      calc (addr >>> d.txLog2) &&& (d.nChPerPartition - 1)
          = (addr >>> d.txLog2) &&& (2 ^ floorLog2U32 d.nChPerPartition - 1) := by rw [← hk]
        _ = (addr >>> d.txLog2) % 2 ^ floorLog2U32 d.nChPerPartition :=
          Nat.and_two_pow_sub_one_eq_mod _ _
        _ = (addr >>> d.txLog2) % d.nChPerPartition := by rw [← hk]
    rw [hdiv, hmod]
  · rfl

/-- Up to 64 channels the hash is the remainder with the mixed bits, folded. -/
theorem channelInPartition_mix (hn : 1 < d.nChPerPartition) (hle : d.nChPerPartition ≤ 64)
    (addr : ℕ) :
    d.channelInPartition addr = some
      (((addr >>> d.txLog2) % d.nChPerPartition ^^^
        mix (polyUse d.nChPerPartition) ((addr >>> d.txLog2) / d.nChPerPartition)) %
          d.nChPerPartition) := by
  obtain ⟨w, hw, hpoly, hroom⟩ := exists_polyUse hle
  have hr : (addr >>> d.txLog2) % d.nChPerPartition < 2 ^ w :=
    lt_of_lt_of_le (Nat.mod_lt _ d.channels_pos) hroom
  rw [channelInPartition_eq hn, hpoly, ipolyHashFunction_eq hw hr]
  rfl

/-- The channel in the partition and the number of the partition make up the channel. -/
theorem getChannelId_eq {addr numaId c : ℕ} (h : d.channelInPartition addr = some c)
    (hc : c < d.nChPerPartition) :
    d.getChannelId addr numaId = some (numaId % d.nPartitions * d.nChPerPartition + c) := by
  have hpart : numaId % d.nPartitions + 1 ≤ d.nPartitions := Nat.mod_lt _ d.partitions_pos
  have hmul := Nat.mul_le_mul_right d.nChPerPartition hpart
  have hlt := d.channels_lt
  rw [Nat.add_mul, Nat.one_mul] at hmul
  unfold DramConfig.getChannelId
  rw [h, Option.map_some, Nat.mod_eq_of_lt (by omega), Nat.add_comm]

/-! ## Exactness -/

/-- What the address map promises about request-aligned addresses: channel and address in the
channel determine the address, the channel lies in the partition, and every channel of the
partition is used. -/
structure AddressMapExact (d : DramConfig) : Prop where
  injective : ∀ a b numaId, a < 2 ^ 64 → b < 2 ^ 64 → 2 ^ d.txLog2 ∣ a → 2 ^ d.txLog2 ∣ b →
    d.getChannelId a numaId = d.getChannelId b numaId →
    d.partitionDramAddress a = d.partitionDramAddress b → a = b
  range : ∀ a numaId, a < 2 ^ 64 → ∃ c, d.getChannelId a numaId = some c ∧
    numaId % d.nPartitions * d.nChPerPartition ≤ c ∧
    c < (numaId % d.nPartitions + 1) * d.nChPerPartition
  onto : ∀ numaId c, c < d.nChPerPartition → ∃ a, a < 2 ^ 64 ∧ 2 ^ d.txLog2 ∣ a ∧
    d.getChannelId a numaId = some (numaId % d.nPartitions * d.nChPerPartition + c)

/-- The address of a transaction. -/
def transactionAddress (d : DramConfig) (tx : ℕ) : ℕ := tx <<< d.txLog2

theorem transactionAddress_shiftRight (d : DramConfig) (tx : ℕ) :
    transactionAddress d tx >>> d.txLog2 = tx := by
  unfold transactionAddress
  exact Nat.shiftLeft_shiftRight tx d.txLog2

theorem dvd_transactionAddress (d : DramConfig) (tx : ℕ) :
    2 ^ d.txLog2 ∣ transactionAddress d tx := by
  unfold transactionAddress
  rw [Nat.shiftLeft_eq]
  exact Nat.dvd_mul_left _ _

/-- Numbers below `2 ^ 32` are numbers of transactions of the address space. -/
theorem transactionAddress_lt {tx : ℕ} (h : tx < 2 ^ 32) : transactionAddress d tx < 2 ^ 64 := by
  have hpow : 2 ^ d.txLog2 ≤ 2 ^ 31 :=
    Nat.pow_le_pow_right (by omega) (Nat.le_of_lt_succ d.txLog2_lt)
  unfold transactionAddress
  rw [Nat.shiftLeft_eq]
  calc tx * 2 ^ d.txLog2 ≤ tx * 2 ^ 31 := Nat.mul_le_mul_left tx hpow
    _ < 2 ^ 64 := by omega

/-- The address in the channel is the quotient of the transaction number. -/
theorem quotient_eq {a b : ℕ} (h : d.partitionDramAddress a = d.partitionDramAddress b) :
    a >>> d.txLog2 / d.nChPerPartition = b >>> d.txLog2 / d.nChPerPartition := by
  unfold DramConfig.partitionDramAddress at h
  dsimp only at h
  rw [Nat.shiftLeft_eq, Nat.shiftLeft_eq] at h
  exact Nat.eq_of_mul_eq_mul_right (Nat.two_pow_pos _) h

/-- Quotient and remainder of the transaction number determine an aligned address. -/
theorem address_ext {a b : ℕ} (ha : 2 ^ d.txLog2 ∣ a) (hb : 2 ^ d.txLog2 ∣ b)
    (hquot : d.partitionDramAddress a = d.partitionDramAddress b)
    (hrem : (a >>> d.txLog2) % d.nChPerPartition = (b >>> d.txLog2) % d.nChPerPartition) :
    a = b := by
  have hq := quotient_eq hquot
  have htx : a >>> d.txLog2 = b >>> d.txLog2 := by
    rw [← Nat.div_add_mod (a >>> d.txLog2) d.nChPerPartition, hq, hrem, Nat.div_add_mod]
  rw [Nat.shiftRight_eq_div_pow, Nat.shiftRight_eq_div_pow] at htx
  calc a = 2 ^ d.txLog2 * (a / 2 ^ d.txLog2) := (Nat.mul_div_cancel' ha).symm
    _ = 2 ^ d.txLog2 * (b / 2 ^ d.txLog2) := by rw [htx]
    _ = b := Nat.mul_div_cancel' hb

/-- Up to 64 channels the channel always lies in the partition. -/
theorem exists_channelInPartition (hle : d.nChPerPartition ≤ 64) (addr : ℕ) :
    ∃ c, d.channelInPartition addr = some c ∧ c < d.nChPerPartition := by
  rcases Nat.lt_or_ge 1 d.nChPerPartition with hn | hn
  · exact ⟨_, channelInPartition_mix hn hle addr, Nat.mod_lt _ d.channels_pos⟩
  · refine ⟨0, ?_, d.channels_pos⟩
    unfold DramConfig.channelInPartition
    dsimp only
    rw [if_neg (by omega)]

theorem mix_zero {w : ℕ} (hw : w = 4 ∨ w = 5 ∨ w = 6) : mix (2 ^ w) 0 = 0 := by
  rcases hw with rfl | rfl | rfl
  all_goals decide

/-- The first transactions go to the channels in order. -/
theorem channelInPartition_of_lt (hle : d.nChPerPartition ≤ 64) {c : ℕ}
    (hc : c < d.nChPerPartition) :
    d.channelInPartition (transactionAddress d c) = some c := by
  rcases Nat.lt_or_ge 1 d.nChPerPartition with hn | hn
  · obtain ⟨w, hw, hpoly, -⟩ := exists_polyUse hle
    rw [channelInPartition_mix hn hle, transactionAddress_shiftRight, Nat.div_eq_of_lt hc, hpoly,
      mix_zero hw, Nat.xor_zero, Nat.mod_mod, Nat.mod_eq_of_lt hc]
  · have hzero : c = 0 := by omega
    unfold DramConfig.channelInPartition
    dsimp only
    rw [if_neg (by omega), hzero]

/-- For a power of two the hash keeps the remainder. -/
theorem remainder_eq {k a b : ℕ} (hk : k ≤ 6) (hn : d.nChPerPartition = 2 ^ k)
    (hquot : d.partitionDramAddress a = d.partitionDramAddress b)
    (hchannel : d.channelInPartition a = d.channelInPartition b) :
    (a >>> d.txLog2) % d.nChPerPartition = (b >>> d.txLog2) % d.nChPerPartition := by
  have hq := quotient_eq hquot
  have hle : d.nChPerPartition ≤ 64 := by
    rw [hn]
    exact Nat.pow_le_pow_right (by omega) hk
  rcases Nat.lt_or_ge 1 d.nChPerPartition with hone | hone
  · rw [channelInPartition_mix hone hle, channelInPartition_mix hone hle, ← hq] at hchannel
    have hxor := Option.some.inj hchannel
    have hra := Nat.mod_lt (a >>> d.txLog2) d.channels_pos
    have hrb := Nat.mod_lt (b >>> d.txLog2) d.channels_pos
    generalize mix (polyUse d.nChPerPartition) (a >>> d.txLog2 / d.nChPerPartition) = f at hxor
    generalize a >>> d.txLog2 % d.nChPerPartition = r at *
    generalize b >>> d.txLog2 % d.nChPerPartition = s at *
    rw [hn] at hra hrb hxor
    exact xor_mod_two_pow_inj hra hrb hxor
  · have hone' : d.nChPerPartition = 1 := by
      have hpos := d.channels_pos
      omega
    rw [hone', Nat.mod_one, Nat.mod_one]

theorem exact_of_two_pow {k : ℕ} (hk : k ≤ 6) (hn : d.nChPerPartition = 2 ^ k) :
    AddressMapExact d := by
  have hle : d.nChPerPartition ≤ 64 := by
    rw [hn]
    exact Nat.pow_le_pow_right (by omega) hk
  constructor
  · intro a b numaId _ _ ha hb hchannel hquot
    obtain ⟨ca, hca, hca_lt⟩ := exists_channelInPartition hle a
    obtain ⟨cb, hcb, hcb_lt⟩ := exists_channelInPartition hle b
    rw [getChannelId_eq hca hca_lt, getChannelId_eq hcb hcb_lt] at hchannel
    have hc : ca = cb := Nat.add_left_cancel (Option.some.inj hchannel)
    have hsame : d.channelInPartition a = d.channelInPartition b := by rw [hca, hcb, hc]
    exact address_ext ha hb hquot (remainder_eq hk hn hquot hsame)
  · intro a numaId _
    obtain ⟨c, hc, hlt⟩ := exists_channelInPartition hle a
    refine ⟨_, getChannelId_eq hc hlt, Nat.le_add_right _ _, ?_⟩
    rw [Nat.add_mul, Nat.one_mul]
    exact Nat.add_lt_add_left hlt _
  · intro numaId c hc
    refine ⟨transactionAddress d c, transactionAddress_lt (by omega),
      dvd_transactionAddress d c, ?_⟩
    exact getChannelId_eq (channelInPartition_of_lt hle hc) hc

/-- Above 64 channels the hash does not reach the channel 64. -/
theorem not_exact_of_many (h : 64 < d.nChPerPartition) : ¬ AddressMapExact d := by
  intro hexact
  obtain ⟨a, -, -, ha⟩ := hexact.onto 0 64 h
  rw [Nat.zero_mod, Nat.zero_mul, Nat.zero_add] at ha
  unfold DramConfig.getChannelId at ha
  rw [channelInPartition_eq (by omega), Option.map_map, Option.map_eq_some_iff] at ha
  obtain ⟨x, hx, hcomp⟩ := ha
  have hlt := ipolyHashFunction_lt hx
  have hmap : (x % d.nChPerPartition + 0 % d.nPartitions * d.nChPerPartition) % 2 ^ 32 = 64 :=
    hcomp
  have hfold : x % d.nChPerPartition = x := Nat.mod_eq_of_lt (by omega)
  rw [Nat.zero_mod, Nat.zero_mul, Nat.add_zero, hfold, Nat.mod_eq_of_lt (by omega)] at hmap
  omega

/-- The hash can mix the highest bit below the number of channels into the remainder. -/
theorem exists_mix_eq {n : ℕ} (hle : n ≤ 64) (hlow : 2 ^ n.log2 < n) :
    ∃ q < 64, mix (polyUse n) q = 2 ^ n.log2 := by
  have hall : ∀ n < 65, 2 ^ n.log2 < n →
      mix (polyUse n) (if n ≤ 4 then 15 else if n ≤ 8 then 13 else if n ≤ 16 then 9
        else if n ≤ 32 then 18 else 33) = 2 ^ n.log2 := by
    decide
  refine ⟨_, ?_, hall n (by omega) hlow⟩
  split_ifs <;> omega

/-- For a number of channels that is not a power of two, two addresses are merged. -/
theorem not_exact_of_not_two_pow (hle : d.nChPerPartition ≤ 64)
    (hlow : 2 ^ d.nChPerPartition.log2 < d.nChPerPartition) : ¬ AddressMapExact d := by
  intro hexact
  obtain ⟨q, hq, hmix⟩ := exists_mix_eq hle hlow
  obtain ⟨r, s, hr, hs, hne, hxor⟩ := exists_xor_collision hlow Nat.lt_log2_self
  have hone : 1 < d.nChPerPartition :=
    lt_of_le_of_lt (Nat.one_le_two_pow) hlow
  have hdiv : ∀ {x}, x < d.nChPerPartition →
      (q * d.nChPerPartition + x) / d.nChPerPartition = q := by
    intro x hx
    rw [Nat.mul_comm, Nat.mul_add_div d.channels_pos, Nat.div_eq_of_lt hx, Nat.add_zero]
  have hmod : ∀ {x}, x < d.nChPerPartition →
      (q * d.nChPerPartition + x) % d.nChPerPartition = x := by
    intro x hx
    rw [Nat.mul_comm, Nat.mul_add_mod, Nat.mod_eq_of_lt hx]
  have hbound : ∀ {x}, x < d.nChPerPartition → q * d.nChPerPartition + x < 2 ^ 32 := by
    intro x hx
    have hmul : q * d.nChPerPartition ≤ 63 * 64 := Nat.mul_le_mul (by omega) hle
    omega
  have hchannel : d.channelInPartition (transactionAddress d (q * d.nChPerPartition + r)) =
      d.channelInPartition (transactionAddress d (q * d.nChPerPartition + s)) := by
    rw [channelInPartition_mix hone hle, channelInPartition_mix hone hle,
      transactionAddress_shiftRight, transactionAddress_shiftRight, hdiv hr, hdiv hs, hmod hr,
      hmod hs, hmix, hxor]
  have hquot : d.partitionDramAddress (transactionAddress d (q * d.nChPerPartition + r)) =
      d.partitionDramAddress (transactionAddress d (q * d.nChPerPartition + s)) := by
    unfold DramConfig.partitionDramAddress
    dsimp only
    rw [transactionAddress_shiftRight, transactionAddress_shiftRight, hdiv hr, hdiv hs]
  have hid : d.getChannelId (transactionAddress d (q * d.nChPerPartition + r)) 0 =
      d.getChannelId (transactionAddress d (q * d.nChPerPartition + s)) 0 := by
    unfold DramConfig.getChannelId
    rw [hchannel]
  have heq := hexact.injective _ _ 0 (transactionAddress_lt (hbound hr))
    (transactionAddress_lt (hbound hs)) (dvd_transactionAddress d _) (dvd_transactionAddress d _)
    hid hquot
  have htx := congrArg (fun a => a >>> d.txLog2) heq
  rw [transactionAddress_shiftRight, transactionAddress_shiftRight] at htx
  exact hne (Nat.add_left_cancel htx)

/-- The address map is exact exactly if the number of channels of a partition is a power of two
that the hash has bits for. -/
theorem addressMapExact_iff (d : DramConfig) :
    AddressMapExact d ↔ ∃ k ≤ 6, d.nChPerPartition = 2 ^ k := by
  constructor
  · intro hexact
    have hle : d.nChPerPartition ≤ 64 := by
      by_contra hcontra
      exact not_exact_of_many (by omega) hexact
    have hlow : d.nChPerPartition ≤ 2 ^ d.nChPerPartition.log2 := by
      by_contra hcontra
      exact not_exact_of_not_two_pow hle (by omega) hexact
    have hself := Nat.log2_self_le d.channels_pos.ne'
    have hk : 2 ^ d.nChPerPartition.log2 < 2 ^ 7 := by omega
    exact ⟨d.nChPerPartition.log2,
      Nat.le_of_lt_succ ((Nat.pow_lt_pow_iff_right (by omega)).mp hk), by omega⟩
  · rintro ⟨k, hk, hn⟩
    exact exact_of_two_pow hk hn

/-- Three channels and requests of 32 bytes. -/
def threeChannels : DramConfig where
  nPartitions := 1
  nChPerPartition := 3
  txLog2 := 5
  partitions_pos := Nat.one_pos
  channels_pos := by decide
  channels_lt := by decide
  txLog2_lt := by decide

/-- With three channels two request-aligned addresses go to one row of one channel. -/
theorem threeChannels_merge : ¬ AddressMapExact threeChannels := by
  intro hexact
  have heq : (1472 : ℕ) = 1504 := by
    apply hexact.injective 1472 1504 0
    all_goals decide
  omega

end PyTorchSim.Analysis
