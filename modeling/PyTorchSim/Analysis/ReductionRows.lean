import Mathlib.Data.Fintype.Pi
import PyTorchSim.Analysis.ReductionLayout
import PyTorchSim.Library.SlotProducts

/-!
# The rows of a reduction

A slot of a lane's result stands for a row of the output, the one that the store takes from
there.  It has the elements of that row where the lanes do not divide a reduced axis and the loaded
tile has the axes of the output inside the others.

The DMA engine, which spreads a tile over the lanes, is not part of the repository.  It is a
parameter here, with what the kernels rely on: that it gives each lane strides in turn.
-/

set_option autoImplicit false

namespace PyTorchSim.Analysis

open PyTorchSim.Frontend PyTorchSim.Library

variable {T L O : MLIRMultiDimTile} {n d pad p lane slot axis : ℕ} {place : ℕ → ℕ → ℕ → ℕ → ℕ}
  {M : Type} [CommMonoid M]

/-! ## The elements of a place -/

/-- The DMA engine: `place lanes stride lane digit` is the coordinate along the split axis of the
elements that have the digit there in the lane. -/
structure DmaPlacement (place : ℕ → ℕ → ℕ → ℕ → ℕ) : Prop where
  /-- In the first round each lane gets one stride. -/
  one_round : ∀ lanes stride lane digit, digit < stride →
    place lanes stride lane digit = lane * stride + digit
  /-- A single lane gets all of the axis. -/
  one_lane : ∀ stride digit, 0 < stride → place 1 stride 0 digit = digit
  /-- No element is placed twice. -/
  injective : ∀ lanes stride lane lane' digit digit', 0 < stride → lane < lanes → lane' < lanes →
    place lanes stride lane digit = place lanes stride lane' digit' → lane = lane' ∧ digit = digit'

/-- The coordinate of the element at a place of a lane's buffer. -/
def coordinate (place : ℕ → ℕ → ℕ → ℕ → ℕ) (T : MLIRMultiDimTile) (lane p axis : ℕ) : ℕ :=
  if axis = T.vmap.vlaneSplitAxis then
    place T.vmap.vectorLane T.vmap.vlaneStride lane (laneDigit T p axis)
  else laneDigit T p axis

/-- The element of the kernel's tile at a place of the loaded one, whose last axes are those of the
kernel's. -/
def loadedAt (place : ℕ → ℕ → ℕ → ℕ → ℕ) (L : MLIRMultiDimTile) (n lane p : ℕ) : Fin n → ℕ :=
  fun i => coordinate place L lane p (i + (L.tileSize.length - n))

/-- The elements of the row that a slot of a lane's result stands for. -/
def rowElements (place : ℕ → ℕ → ℕ → ℕ → ℕ) (T O : MLIRMultiDimTile) (n d lane slot : ℕ) :
    Finset (Fin n → ℕ) :=
  Fintype.piFinset fun i =>
    if i.val < d then {coordinate place O lane slot i} else Finset.range (entry T.tileSize i)

/-- The strides of an axis dealt out to the lanes, round after round. -/
def dealStrides (lanes stride lane digit : ℕ) : ℕ :=
  (digit / stride * lanes + lane) * stride + digit % stride

theorem dmaPlacement_dealStrides : DmaPlacement dealStrides := by
  refine ⟨?_, ?_, ?_⟩
  · intro lanes stride lane digit hlt
    rw [dealStrides, Nat.div_eq_of_lt hlt, Nat.mod_eq_of_lt hlt, Nat.zero_mul, Nat.zero_add]
  · intro stride digit _
    rw [dealStrides, Nat.mul_one, Nat.add_zero]
    exact Nat.div_add_mod' digit stride
  · intro lanes stride lane lane' digit digit' hstride hlane hlane' heq
    have hround : ∀ x d, (x * stride + d % stride) / stride = x := by
      intro x d
      rw [Nat.mul_comm, Nat.mul_add_div hstride, Nat.div_eq_of_lt (Nat.mod_lt d hstride),
        Nat.add_zero]
    have hrest : digit % stride = digit' % stride := by
      have hmod := congrArg (· % stride) heq
      simpa [dealStrides] using hmod
    have hquot : digit / stride * lanes + lane = digit' / stride * lanes + lane' := by
      have hdiv := congrArg (· / stride) heq
      simpa only [dealStrides, hround] using hdiv
    have hlanes : lane = lane' := by
      have hmod := congrArg (· % lanes) hquot
      simpa [Nat.mod_eq_of_lt hlane, Nat.mod_eq_of_lt hlane'] using hmod
    have hrounds : digit / stride = digit' / stride := by
      rw [hlanes, Nat.add_right_cancel_iff] at hquot
      exact Nat.eq_of_mul_eq_mul_right (Nat.zero_lt_of_lt hlane) hquot
    refine ⟨hlanes, ?_⟩
    rw [← Nat.div_add_mod digit stride, hrounds, hrest]
    exact Nat.div_add_mod digit' stride

theorem loadedAt_apply (hlen : T.tileSize.length = n) (hL : ExtendedTile T L pad) (i : Fin n) :
    loadedAt place L n lane p i = coordinate place L lane p (i + pad) := by
  have hpad : L.tileSize.length - n = pad := by
    rw [hL.length_eq]
    omega
  rw [loadedAt, hpad]

section Coordinates

variable (hplace : DmaPlacement place)
include hplace

/-- A lane that is used alone has all coordinates as digits. -/
theorem coordinate_one_lane (hT : SoundTile T) (hused : T.getUsedVlane = 1)
    (haxis : axis < T.tileSize.length) : coordinate place T 0 p axis = laneDigit T p axis := by
  unfold coordinate
  split
  · rename_i hsplit
    have hdigit := hT.laneDigit_lt (p := p) haxis
    rw [getTileSizePerLane_one_lane hT hused] at hdigit
    by_cases hlanes : T.vmap.vectorLane = 1
    · rw [hlanes]
      exact hplace.one_lane _ _ hT.stride_pos
    · have hround : splitSize T ⌈/⌉ T.vmap.vlaneStride = 1 := by
        have hmin : min (splitSize T ⌈/⌉ T.vmap.vlaneStride) T.vmap.vectorLane = 1 := hused
        omega
      have hfits : splitSize T ≤ T.vmap.vlaneStride := by
        have hle := (ceilDiv_le_iff_le_mul hT.stride_pos).1 hround.le
        rwa [Nat.mul_one] at hle
      have hlt : laneDigit T p axis < T.vmap.vlaneStride := by
        rw [hsplit] at hdigit ⊢
        exact Nat.lt_of_lt_of_le hdigit hfits
      rw [hplace.one_round _ _ _ _ hlt, Nat.zero_mul, Nat.zero_add]
  · rfl

variable (hT : SoundTile T) (hlen : T.tileSize.length = n) (hd : d < n) (hL : ExtendedTile T L pad)
  (hO : 0 < d → StoredTile T O d)
  (hkept : T.vmap.vlaneSplitAxis < d ∨ T.getUsedVlane = 1 ∧ O.getUsedVlane = 1)
  (hlane : lane < O.getUsedVlane)
include hT hlen hd hL hkept hlane

omit hd in
/-- Along a reduced axis the coordinate is the digit. -/
theorem coordinate_reduced (hle : d ≤ axis) (hlt : axis < n) :
    coordinate place L lane p (axis + pad) = laneDigit L p (axis + pad) := by
  rcases hkept with hsplit | ⟨hused, hstored⟩
  · have hne : axis + pad ≠ L.vmap.vlaneSplitAxis := by
      rw [hL.axis_eq]
      omega
    exact if_neg hne
  · have hzero : lane = 0 := by omega
    rw [hzero]
    apply coordinate_one_lane hplace (hL.sound hT)
    · rw [hL.getUsedVlane_eq]
      exact hused
    · rw [hL.length_eq]
      omega

variable (hrows : RowsInnermost T L d pad)
include hO hrows

/-- Along an axis of the output the coordinate is that of the row. -/
theorem coordinate_row (hlt : axis < d) :
    coordinate place L lane p (axis + pad) = coordinate place O lane (p % rowCount T d) axis := by
  have hstored := hO (Nat.zero_lt_of_lt hlt)
  have hdn : d ≤ T.tileSize.length := by omega
  have hdigit : laneDigit L p (axis + pad) = laneDigit O (p % rowCount T d) axis := by
    rw [laneDigit_rows hT hL hrows hdn hlt,
      hstored.laneDigit_eq hT (Nat.zero_lt_of_lt hlt) hdn hkept hlt]
  rcases hkept with hsplit | ⟨hused, hone⟩
  · have haxis : axis + pad = L.vmap.vlaneSplitAxis ↔ axis = O.vmap.vlaneSplitAxis := by
      rw [hL.axis_eq, hstored.axis_eq, if_pos hsplit]
      omega
    unfold coordinate
    simp only [haxis, hdigit, hL.lane_eq, hL.stride_eq, hstored.lane_eq, hstored.stride_eq]
  · have hzero : lane = 0 := by omega
    rw [hzero, coordinate_one_lane hplace (hL.sound hT), coordinate_one_lane hplace, hdigit]
    · exact hstored.sound hT (Nat.zero_lt_of_lt hlt) hdn
    · exact hone
    · rw [hstored.length_eq hdn]
      exact hlt
    · rw [hL.getUsedVlane_eq]
      exact hused
    · rw [hL.length_eq]
      omega

/-- The elements at the places of a slot are those of its row. -/
theorem loadedAt_mem (hp : p % rowCount T d = slot) :
    loadedAt place L n lane p ∈ rowElements place T O n d lane slot := by
  rw [rowElements, Fintype.mem_piFinset]
  intro i
  rw [loadedAt_apply hlen hL]
  split
  · rename_i hlt
    rw [coordinate_row hplace hT hlen hd hL hO hkept hlane hrows hlt, hp, Finset.mem_singleton]
  · rename_i hnot
    have hle : d ≤ i.val := Nat.le_of_not_lt hnot
    rw [coordinate_reduced hplace hT hlen hL hkept hlane hle i.isLt, Finset.mem_range,
      ← entry_perLane_reduced hT (hkept.imp_right And.left) hle, ← hL.entry_perLane]
    apply (hL.sound hT).laneDigit_lt
    rw [hL.length_eq]
    omega

omit hO in
/-- Different places of a slot have different elements. -/
theorem loadedAt_injOn :
    Set.InjOn (loadedAt place L n lane) {p | p < L.getNumelPerLane ∧ p % rowCount T d = slot} := by
  rintro p ⟨hp, hpslot⟩ q ⟨hq, hqslot⟩ heq
  apply place_eq_of_laneDigit hL.order_injOn hp hq
  intro j hj
  rw [hL.length_eq] at hj
  rcases Nat.lt_or_ge j pad with hdummy | hle
  · rw [hL.laneDigit_pad hdummy, hL.laneDigit_pad hdummy]
  · obtain ⟨k, rfl⟩ : ∃ k, j = k + pad := ⟨j - pad, by omega⟩
    rcases Nat.lt_or_ge k d with hk | hk
    · rw [laneDigit_rows hT hL hrows (by omega) hk, laneDigit_rows hT hL hrows (by omega) hk, hpslot, hqslot]
    · have hlt : k < n := by omega
      have hcoord := congrFun heq ⟨k, hlt⟩
      rw [loadedAt_apply hlen hL, loadedAt_apply hlen hL] at hcoord
      rwa [coordinate_reduced hplace hT hlen hL hkept hlane hk hlt,
        coordinate_reduced hplace hT hlen hL hkept hlane hk hlt] at hcoord

/-- Each element of the row of a slot has a place there. -/
theorem exists_loadedAt (hslot : slot < rowCount T d) {c : Fin n → ℕ}
    (hc : c ∈ rowElements place T O n d lane slot) :
    ∃ p < L.getNumelPerLane, p % rowCount T d = slot ∧ loadedAt place L n lane p = c := by
  rw [rowElements, Fintype.mem_piFinset] at hc
  -- the digits of the row along the axes of the output, the coordinates along the others
  let digits : ℕ → ℕ := fun k =>
    if k < d then rowDigit T d slot k else if hk : k < n then c ⟨k, hk⟩ else 0
  have hbound : ∀ j < L.tileSize.length,
      (if j < pad then 0 else digits (j - pad)) < entry L.getTileSizePerLane j := by
    intro j hj
    rw [hL.length_eq, hlen] at hj
    by_cases hdummy : j < pad
    · rw [if_pos hdummy, hL.entry_perLane_pad hdummy]
      exact Nat.one_pos
    · obtain ⟨k, rfl⟩ : ∃ k, j = k + pad := ⟨j - pad, by omega⟩
      rw [if_neg hdummy, Nat.add_sub_cancel, hL.entry_perLane]
      have hk : k < n := by omega
      by_cases hrow : k < d
      · have hdigit : digits k = rowDigit T d slot k := if_pos hrow
        rw [hdigit]
        exact rowDigit_lt hT (by omega)
      · have hdigit : digits k = c ⟨k, hk⟩ := (if_neg hrow).trans (dif_pos hk)
        have hmem := hc ⟨k, hk⟩
        rw [if_neg hrow, Finset.mem_range] at hmem
        rw [hdigit, entry_perLane_reduced hT (hkept.imp_right And.left) (Nat.le_of_not_lt hrow)]
        exact hmem
  obtain ⟨p, hp, hback⟩ := exists_laneDigit hL.order_injOn _ hbound
  have hdigit : ∀ k < n, laneDigit L p (k + pad) = digits k := by
    intro k hk
    rw [hback (k + pad) (by rw [hL.length_eq]; omega), if_neg (by omega), Nat.add_sub_cancel]
  have hpslot : p % rowCount T d = slot := by
    apply row_eq_of_rowDigit (Nat.mod_lt _ (Nat.zero_lt_of_lt hslot)) hslot
    intro k hk
    rw [← laneDigit_rows hT hL hrows (by omega) hk, hdigit k (by omega)]
    exact if_pos hk
  refine ⟨p, hp, hpslot, ?_⟩
  funext i
  rw [loadedAt_apply hlen hL]
  have hmem := hc i
  rcases Nat.lt_or_ge i.val d with hi | hi
  · rw [if_pos hi, Finset.mem_singleton] at hmem
    rw [coordinate_row hplace hT hlen hd hL hO hkept hlane hrows hi, hpslot, hmem]
  · rw [coordinate_reduced hplace hT hlen hL hkept hlane hi i.isLt, hdigit i i.isLt]
    exact (if_neg (Nat.not_lt.2 hi)).trans (dif_pos i.isLt)

/-- The values of a slot are those of its row. -/
theorem slotProduct_rows (hslot : slot < rowCount T d) (value : (Fin n → ℕ) → M) :
    slotProduct T.getNumelPerLane (rowCount T d) slot (fun p => value (loadedAt place L n lane p)) =
      ∏ c ∈ rowElements place T O n d lane slot, value c := by
  have hmem : ∀ q, q ∈ (Finset.range T.getNumelPerLane).filter (fun q => q % rowCount T d = slot) ↔
      q < L.getNumelPerLane ∧ q % rowCount T d = slot := by
    intro q
    rw [Finset.mem_filter, Finset.mem_range, hL.getNumelPerLane_eq]
  unfold slotProduct
  apply Finset.prod_nbij (loadedAt place L n lane)
  · intro q hq
    exact loadedAt_mem hplace hT hlen hd hL hO hkept hlane hrows ((hmem q).1 hq).2
  · intro q hq q' hq'
    exact loadedAt_injOn hplace hT hlen hd hL hkept hlane hrows ((hmem q).1 hq) ((hmem q').1 hq')
  · intro c hc
    obtain ⟨q, hq, hqslot,
      rfl⟩ := exists_loadedAt hplace hT hlen hd hL hO hkept hlane hrows hslot hc
    exact ⟨q, (hmem q).2 ⟨hq, hqslot⟩, rfl⟩
  · intro q _
    rfl

end Coordinates

end PyTorchSim.Analysis
