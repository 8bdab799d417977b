import Mathlib.Data.List.GetD
import PyTorchSim.Frontend.TileDesc
import PyTorchSim.Library.CeilDiv

/-!
# Padding over the vector lanes

A tile is padded along its split axis until each lane in use has the same whole number of strides.
The lanes in use are counted from the size that the padding changes; their number stays the same.
-/

set_option autoImplicit false

namespace PyTorchSim.Analysis

open PyTorchSim.Frontend PyTorchSim.Library

/-- A tile that the code can work on. -/
structure SoundTile (T : MLIRMultiDimTile) : Prop where
  size_pos : ∀ size ∈ T.tileSize, 0 < size
  axis_lt : T.vmap.vlaneSplitAxis < T.tileSize.length
  lane_pos : 0 < T.vmap.vectorLane
  stride_pos : 0 < T.vmap.vlaneStride

/-- The size of the axis that is divided over the lanes. -/
abbrev splitSize (T : MLIRMultiDimTile) : ℕ := T.tileSize.getD T.vmap.vlaneSplitAxis 0

/-- What all used lanes take in one round. -/
abbrev roundSize (T : MLIRMultiDimTile) : ℕ := T.getUsedVlane * T.vmap.vlaneStride

variable {T : MLIRMultiDimTile}

theorem getD_set_self {sizes : List ℕ} {axis size : ℕ} (h : axis < sizes.length) :
    (sizes.set axis size).getD axis 0 = size := by
  rw [List.getD_eq_getElem _ _ (by rw [List.length_set]; exact h), List.getElem_set_self]

theorem SoundTile.splitSize_pos (h : SoundTile T) : 0 < splitSize T := by
  apply h.size_pos
  unfold splitSize
  rw [List.getD_eq_getElem _ _ h.axis_lt]
  exact List.getElem_mem h.axis_lt

theorem SoundTile.getUsedVlane_pos (h : SoundTile T) : 0 < T.getUsedVlane :=
  min_ceilDiv_pos h.stride_pos h.lane_pos h.splitSize_pos

theorem SoundTile.roundSize_pos (h : SoundTile T) : 0 < roundSize T :=
  Nat.mul_pos h.getUsedVlane_pos h.stride_pos

/-- The lanes in use are at most those of the machine. -/
theorem getUsedVlane_le (T : MLIRMultiDimTile) : T.getUsedVlane ≤ T.vmap.vectorLane :=
  Nat.min_le_right _ _

@[simp] theorem padVlaneTile_vmap (T : MLIRMultiDimTile) : T.padVlaneTile.vmap = T.vmap := rfl

/-- The padding changes the size of the split axis and nothing else. -/
theorem padVlaneTile_eq (T : MLIRMultiDimTile) :
    T.padVlaneTile =
      { T with tileSize := T.tileSize.set T.vmap.vlaneSplitAxis
                 (splitSize T ⌈/⌉ roundSize T * roundSize T) } := rfl

theorem SoundTile.splitSize_padVlaneTile (h : SoundTile T) :
    splitSize T.padVlaneTile = splitSize T ⌈/⌉ roundSize T * roundSize T := by
  simp only [splitSize, padVlaneTile_eq]
  exact getD_set_self h.axis_lt

/-- A padded axis in rounds of strides of lanes. -/
theorem SoundTile.splitSize_padVlaneTile_lanes (h : SoundTile T) :
    splitSize T.padVlaneTile =
      splitSize T ⌈/⌉ roundSize T * T.vmap.vlaneStride * T.getUsedVlane := by
  rw [h.splitSize_padVlaneTile, Nat.mul_assoc, Nat.mul_comm T.vmap.vlaneStride]

theorem SoundTile.getUsedVlane_padVlaneTile (h : SoundTile T) :
    T.padVlaneTile.getUsedVlane = T.getUsedVlane := by
  change min (splitSize T.padVlaneTile ⌈/⌉ T.vmap.vlaneStride) T.vmap.vectorLane = _
  rw [h.splitSize_padVlaneTile]
  exact min_ceilDiv_round h.stride_pos h.lane_pos h.splitSize_pos

/-- A padded tile is padded already. -/
theorem SoundTile.padVlaneTile_idem (h : SoundTile T) :
    T.padVlaneTile.padVlaneTile = T.padVlaneTile := by
  have hround : roundSize T.padVlaneTile = roundSize T := by
    unfold roundSize
    rw [h.getUsedVlane_padVlaneTile, padVlaneTile_vmap]
  rw [padVlaneTile_eq T.padVlaneTile, hround, h.splitSize_padVlaneTile,
    mul_ceilDiv_self h.roundSize_pos]
  simp only [padVlaneTile_eq, List.set_set]

/-- Each lane in use has the same number of elements of a padded tile, in whole strides. -/
theorem SoundTile.perLane_padVlaneTile (h : SoundTile T) :
    T.padVlaneTile.getTileSizePerLane.getD T.vmap.vlaneSplitAxis 0 =
      splitSize T ⌈/⌉ roundSize T * T.vmap.vlaneStride := by
  have hlen : T.vmap.vlaneSplitAxis < T.padVlaneTile.tileSize.length := by
    rw [padVlaneTile_eq, List.length_set]
    exact h.axis_lt
  have hused : T.vmap.getUsedVlane T.padVlaneTile.tileSize = T.getUsedVlane :=
    h.getUsedVlane_padVlaneTile
  have hsplit : T.padVlaneTile.tileSize.getD T.vmap.vlaneSplitAxis 0 = _ :=
    h.splitSize_padVlaneTile_lanes
  unfold MLIRMultiDimTile.getTileSizePerLane VectorLaneMapping.getTileSizePerLane
  rw [padVlaneTile_vmap, getD_set_self hlen, hused, hsplit, mul_ceilDiv_self h.getUsedVlane_pos]

/-- Padding a tile over the lanes changes its split axis only, to the least multiple of a round of
the used lanes.  The used lanes stay the same, they share the padded axis in whole strides, and a
second padding changes nothing. -/
theorem padVlaneTile_sound (h : SoundTile T) :
    (∀ axis, axis ≠ T.vmap.vlaneSplitAxis →
      T.padVlaneTile.tileSize[axis]? = T.tileSize[axis]?) ∧
    IsLeast {size | T.getUsedVlane * T.vmap.vlaneStride ∣ size ∧ splitSize T ≤ size}
      (splitSize T.padVlaneTile) ∧
    T.padVlaneTile.getUsedVlane = T.getUsedVlane ∧
    T.getUsedVlane ≤ T.vmap.vectorLane ∧
    T.padVlaneTile.getTileSizePerLane.getD T.vmap.vlaneSplitAxis 0 * T.padVlaneTile.getUsedVlane =
      splitSize T.padVlaneTile ∧
    T.vmap.vlaneStride ∣ T.padVlaneTile.getTileSizePerLane.getD T.vmap.vlaneSplitAxis 0 ∧
    T.padVlaneTile.padVlaneTile = T.padVlaneTile := by
  refine ⟨?_, ?_, h.getUsedVlane_padVlaneTile, getUsedVlane_le T, ?_, ?_, h.padVlaneTile_idem⟩
  · intro axis hne
    rw [padVlaneTile_eq]
    exact List.getElem?_set_ne (Ne.symm hne)
  · rw [h.splitSize_padVlaneTile]
    exact isLeast_ceilDiv_mul h.roundSize_pos
  · rw [h.perLane_padVlaneTile, h.getUsedVlane_padVlaneTile, h.splitSize_padVlaneTile_lanes]
  · rw [h.perLane_padVlaneTile]
    exact Dvd.intro_left _ rfl

/-- A tile of ten rows over four lanes, two rows at a time. -/
theorem padVlaneTile_sound_ten :
    ((MLIRMultiDimTile.make [10, 3] 4 0 2 none).padVlaneTile).padVlaneTile =
      (MLIRMultiDimTile.make [10, 3] 4 0 2 none).padVlaneTile :=
  (padVlaneTile_sound (T := MLIRMultiDimTile.make [10, 3] 4 0 2 none)
    ⟨by decide, by decide, by decide, by decide⟩).2.2.2.2.2.2

end PyTorchSim.Analysis
