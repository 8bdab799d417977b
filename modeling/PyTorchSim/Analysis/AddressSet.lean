import PyTorchSim.Model.Instruction
import Mathlib.Data.Int.ModEq
import Mathlib.Data.Nat.Prime.Basic
import Mathlib.Data.List.Forall2
import Mathlib.Tactic.Linarith
import Mathlib.Tactic.Ring

/-!
# When the address set of a DMA instruction is exact

An element starts `8 * base + offset` bits into the memory and has `elemBits` bits.  The source
shifts `base + (offset + 7)` by three, so the base is divided by eight together with the offset,
the bit offset is rounded up, and each element gives one block only.  The blocks of all tiles
are right only where these three do no harm: base 0 with elements of whole bytes that fill the
blocks evenly, or base 1, where the division takes back the rounding.
-/

set_option autoImplicit false

namespace PyTorchSim.Analysis

open PyTorchSim.Model

variable {τ ι : Type}

/-! ## The elements of a tile -/

/-- The bits between the base address and an element. -/
def bitOffset (i : Instruction τ ι) (idx : List ℕ) : ℤ :=
  (List.zipWith (fun (d : ℕ) (s : ℤ) => (d : ℤ) * s) idx
    (Instruction.padLeft4 0 i.tileStride)).sum * i.elemBits

/-- The first bit of an element. -/
def firstBit (i : Instruction τ ι) (idx : List ℕ) : ℤ := 8 * i.dramAddr + bitOffset i idx

/-- The request-aligned address of the block that a bit is in. -/
def blockAddress (reqSize : ℕ) (bit : ℤ) : ℤ := bit / 8 / reqSize * reqSize

theorem u64_emod (z : ℤ) : ((u64 z : ℕ) : ℤ) = z % 2 ^ 64 := by
  unfold u64
  exact Int.toNat_of_nonneg (Int.emod_nonneg _ (by norm_num))

theorem sub_and_two_pow_sub_one (a t : ℕ) : a - (a &&& (2 ^ t - 1)) = a / 2 ^ t * 2 ^ t := by
  rw [Nat.and_two_pow_sub_one_eq_mod]
  have h := Nat.div_add_mod' a (2 ^ t)
  omega

/-- What the source computes for an element, modulo the width of its sum. -/
theorem elementAddress_emod (i : Instruction τ ι) {t : ℕ} (ht : t < 32) (idx : List ℕ) :
    ((i.elementAddress (2 ^ t) idx none : ℕ) : ℤ) =
      blockAddress (2 ^ t) ((i.dramAddr + bitOffset i idx + 7) % 2 ^ 64) := by
  have hmask : u64 (((2 ^ t : ℕ) : ℤ) - 1) = 2 ^ t - 1 := by
    have hpos : 1 ≤ 2 ^ t := Nat.one_le_two_pow
    have hpow : 2 ^ t ≤ 2 ^ 31 := Nat.pow_le_pow_right (by omega) (by omega)
    unfold u64
    omega
  unfold Instruction.elementAddress bitOffset
  dsimp only
  generalize (List.zipWith (fun (d : ℕ) (s : ℤ) => (d : ℤ) * s) idx
    (Instruction.padLeft4 0 i.tileStride)).sum = s
  have hmod : (i.dramAddr + (s % 2 ^ 64 * i.elemBits + 7) : ℤ) ≡
      i.dramAddr + s * i.elemBits + 7 [ZMOD 2 ^ 64] := by
    rw [add_assoc]
    exact (((Int.mod_modEq s _).mul_right _).add_right 7).add_left _
  have hsum : ((u64 (i.dramAddr + ((u64 s : ℕ) * i.elemBits + 7)) : ℕ) : ℤ) =
      (i.dramAddr + s * i.elemBits + 7) % 2 ^ 64 := by
    rw [u64_emod, u64_emod]
    exact hmod
  rw [hmask, sub_and_two_pow_sub_one, Nat.shiftRight_eq_div_pow, ← hsum]
  unfold blockAddress
  push_cast
  rfl

/-- Two bits have one block address exactly if they have one block number. -/
theorem blockAddress_eq_iff {t : ℕ} {x y : ℤ} :
    blockAddress (2 ^ t) x = blockAddress (2 ^ t) y ↔
      x / (8 * 2 ^ t) = y / (8 * 2 ^ t) := by
  have hpos : (0 : ℤ) < 2 ^ t := by positivity
  unfold blockAddress
  push_cast
  rw [Int.ediv_ediv_of_nonneg (by omega), Int.ediv_ediv_of_nonneg (by omega)]
  constructor
  · exact Int.eq_of_mul_eq_mul_right hpos.ne'
  · intro h
    rw [h]

/-! ## Tiles that are exact -/

/-- The block the source computes for an element is the one block that the element is in. -/
structure ElementAligned (i : Instruction τ ι) (t : ℕ) (idx : List ℕ) : Prop where
  nonneg : 0 ≤ i.dramAddr + bitOffset i idx + 7
  lt : i.dramAddr + bitOffset i idx + 7 < 2 ^ 64
  rounded : (i.dramAddr + bitOffset i idx + 7) / (8 * 2 ^ t) = firstBit i idx / (8 * 2 ^ t)
  whole : (firstBit i idx + i.elemBits - 1) / (8 * 2 ^ t) = firstBit i idx / (8 * 2 ^ t)
  pos : 0 < i.elemBits

/-- The bits of an aligned element have the block address that the source computes. -/
theorem ElementAligned.elementAddress {i : Instruction τ ι} {t : ℕ} (ht : t < 32) {idx : List ℕ}
    (h : ElementAligned i t idx) {bit : ℤ} (hle : firstBit i idx ≤ bit)
    (hlt : bit < firstBit i idx + i.elemBits) :
    ((i.elementAddress (2 ^ t) idx none : ℕ) : ℤ) = blockAddress (2 ^ t) bit := by
  have hD : (0 : ℤ) < 8 * 2 ^ t := by positivity
  have hlow : firstBit i idx / (8 * 2 ^ t) ≤ bit / (8 * 2 ^ t) := Int.ediv_le_ediv hD hle
  have hhigh : bit / (8 * 2 ^ t) ≤ (firstBit i idx + i.elemBits - 1) / (8 * 2 ^ t) :=
    Int.ediv_le_ediv hD (by omega)
  rw [h.whole] at hhigh
  rw [elementAddress_emod i ht, Int.emod_eq_of_lt h.nonneg h.lt, blockAddress_eq_iff, h.rounded]
  omega

section EveryTile

variable {i : Instruction τ ι} {t : ℕ}

/-- What is known when two elements are exact at every distance, with blocks of `D` bits: the
base is in the block at `P`, no block starts inside an element behind it, and none between the
first bit of such an element and the bit that the source takes for it. -/
structure PairsExact (i : Instruction τ ι) (D P : ℤ) : Prop where
  pos : 0 < i.elemBits
  first_le : P ≤ 8 * i.dramAddr
  last_le : (8 * i.dramAddr + i.elemBits : ℤ) ≤ P + D
  code_le : P ≤ i.dramAddr + 7
  later : ∀ (s : ℕ) (k : ℤ), (s * i.elemBits : ℤ) < 2 ^ 63 →
    P + D ≤ 8 * i.dramAddr + s * i.elemBits →
    (8 * i.dramAddr + s * i.elemBits < k * D →
      8 * i.dramAddr + s * i.elemBits + i.elemBits ≤ k * D ∧
        i.dramAddr + s * i.elemBits + 7 < k * D) ∧
    (k * D ≤ 8 * i.dramAddr + s * i.elemBits → k * D ≤ i.dramAddr + s * i.elemBits + 7)

/-- A block behind the one of the base starts with an element. -/
theorem PairsExact.dvd {D P k : ℤ} (h : PairsExact i D P) (hD : D ≤ 2 ^ 34)
    (hlow : P + 2 * D ≤ k * D) (hhigh : k * D ≤ P + 3 * D) :
    (i.elemBits : ℤ) ∣ k * D - 8 * i.dramAddr := by
  obtain ⟨hpos, hfirst, hlast, hcode, hlater⟩ := h
  have hdiv := Int.mul_ediv_add_emod (k * D - 8 * i.dramAddr) i.elemBits
  have hmod := Int.emod_nonneg (k * D - 8 * i.dramAddr) (b := i.elemBits) (by omega)
  have hmod_lt := Int.emod_lt_of_pos (k * D - 8 * i.dramAddr) (b := i.elemBits) (by omega)
  have hquot : 0 ≤ (k * D - 8 * i.dramAddr) / i.elemBits := Int.ediv_nonneg (by omega) (by omega)
  obtain ⟨s, hs⟩ := Int.eq_ofNat_of_zero_le hquot
  rw [hs, Int.mul_comm] at hdiv
  by_contra hcontra
  have hne : (k * D - 8 * i.dramAddr) % i.elemBits ≠ 0 := by
    intro hzero
    exact hcontra (Int.dvd_of_emod_eq_zero hzero)
  have hinside := ((hlater s k (by omega) (by omega)).1 (by omega)).1
  omega

end EveryTile

end PyTorchSim.Analysis
