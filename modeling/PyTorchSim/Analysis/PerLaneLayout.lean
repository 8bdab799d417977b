import PyTorchSim.Analysis.LanePadding
import PyTorchSim.Analysis.TileLayout

/-!
# The layout of a lane's part of a padded tile

The strides within a lane are those of the tile with the outer ones divided by the number of used
lanes.  On a padded tile they are the strides of the sizes per lane, in the same order of the axes.
-/

set_option autoImplicit false

namespace PyTorchSim.Analysis

open PyTorchSim.Frontend PyTorchSim.Library

/-- A tile after `pad_vlane_tile` and `update_tile_stride`, in any order of its axes. -/
structure PaddedTile (T : MLIRMultiDimTile) : Prop where
  sound : SoundTile T
  laid : LaidOut T
  padded : T.padVlaneTile = T

variable {T : MLIRMultiDimTile} {axis : ℕ}

/-- The size of the split axis in each lane. -/
abbrev laneSize (T : MLIRMultiDimTile) : ℕ := entry T.getTileSizePerLane T.vmap.vlaneSplitAxis

theorem length_getTileSizePerLane (T : MLIRMultiDimTile) :
    T.getTileSizePerLane.length = T.tileSize.length := by
  simp [MLIRMultiDimTile.getTileSizePerLane, VectorLaneMapping.getTileSizePerLane]

/-- Other axes are not divided. -/
theorem entry_getTileSizePerLane (hne : axis ≠ T.vmap.vlaneSplitAxis) :
    entry T.getTileSizePerLane axis = entry T.tileSize axis := by
  unfold MLIRMultiDimTile.getTileSizePerLane VectorLaneMapping.getTileSizePerLane
  simp only [entry, List.getD_eq_getElem?_getD]
  rw [List.getElem?_set_ne (Ne.symm hne)]

theorem SoundTile.laneSize_pos (h : SoundTile T) : 0 < laneSize T := by
  have hused := h.getUsedVlane_pos
  have hlane : laneSize T = splitSize T ⌈/⌉ T.getUsedVlane := getD_set_self h.axis_lt
  rw [hlane]
  exact ceilDiv_pos hused h.splitSize_pos

theorem SoundTile.getNumelPerLane_pos (h : SoundTile T) : 0 < T.getNumelPerLane := by
  apply List.prod_pos
  intro size hsize
  rcases List.mem_or_eq_of_mem_set hsize with hmem | rfl
  · exact h.size_pos size hmem
  · exact ceilDiv_pos h.getUsedVlane_pos h.splitSize_pos

/-- A stride in a lane is that of the tile, divided for the axes outside the split one. -/
theorem entry_getTileStridePerLane_eq (haxis : axis < T.tileStride.length) :
    entry T.getTileStridePerLane axis =
      if entry T.tileStride T.vmap.vlaneSplitAxis < entry T.tileStride axis then
        entry T.tileStride axis / (splitSize T / laneSize T)
      else entry T.tileStride axis := entry_map haxis

namespace PaddedTile

variable (h : PaddedTile T)
include h

/-- The used lanes share the split axis. -/
theorem laneSize_mul : laneSize T * T.getUsedVlane = splitSize T := by
  have hshare := (padVlaneTile_sound h.sound).2.2.2.2.1
  rw [h.padded] at hshare
  exact hshare

theorem stride_dvd_laneSize : T.vmap.vlaneStride ∣ laneSize T := by
  have hstride := (padVlaneTile_sound h.sound).2.2.2.2.2.1
  rw [h.padded] at hstride
  exact hstride

theorem size_pos : ∀ i ∈ Finset.range T.tileSize.length, 0 < entry T.tileSize i := by
  intro i hi
  rw [entry_eq_getElem (Finset.mem_range.1 hi)]
  exact h.sound.size_pos _ (List.getElem_mem _)

theorem length_order : T.tileAxisOrder.length = T.tileSize.length := by
  simpa using h.laid.order_perm.length_eq

theorem order_nodup : T.tileAxisOrder.Nodup := h.laid.order_perm.nodup_iff.2 List.nodup_range

theorem order_injOn : Set.InjOn (entry T.tileAxisOrder) (Finset.range T.tileSize.length : Set ℕ) :=
  entry_injOn h.order_nodup h.length_order

theorem entry_tileStride {i : ℕ} (hi : i < T.tileSize.length) :
    entry T.tileStride i =
      strideIn (Finset.range T.tileSize.length) (entry T.tileAxisOrder) (entry T.tileSize) i := by
  rw [h.laid.stride_eq, entry_tileStrides h.order_nodup h.length_order hi]

theorem length_tileStride : T.tileStride.length = T.tileSize.length := by
  rw [h.laid.stride_eq, length_tileStrides]

/-- A stride of the tile is that of the lane, times the used lanes where the split axis is inside.
-/
theorem strideIn_lane (i : ℕ) :
    strideIn (Finset.range T.tileSize.length) (entry T.tileAxisOrder) (entry T.tileSize) i =
      (if entry T.tileAxisOrder i < entry T.tileAxisOrder T.vmap.vlaneSplitAxis then T.getUsedVlane
        else 1) *
      strideIn (Finset.range T.tileSize.length) (entry T.tileAxisOrder)
        (entry T.getTileSizePerLane) i := by
  have hmem : T.vmap.vlaneSplitAxis ∈ Finset.range T.tileSize.length :=
    Finset.mem_range.2 h.sound.axis_lt
  have hrest : ∏ j ∈ (Finset.range T.tileSize.length).erase T.vmap.vlaneSplitAxis,
      (if entry T.tileAxisOrder i < entry T.tileAxisOrder j then entry T.tileSize j else 1) =
      ∏ j ∈ (Finset.range T.tileSize.length).erase T.vmap.vlaneSplitAxis,
        if entry T.tileAxisOrder i < entry T.tileAxisOrder j then entry T.getTileSizePerLane j
        else 1 := by
    apply Finset.prod_congr rfl
    intro j hj
    rw [entry_getTileSizePerLane (Finset.ne_of_mem_erase hj)]
  unfold strideIn
  rw [Finset.prod_filter, Finset.prod_filter, ← Finset.mul_prod_erase _ _ hmem,
    ← Finset.mul_prod_erase _ (fun j => ite _ (entry T.getTileSizePerLane j) _) hmem, hrest,
    ← Nat.mul_assoc]
  congr 1
  split
  · rw [Nat.mul_comm]
    exact h.laneSize_mul.symm
  · rfl

/-- The strides in a lane are those of its sizes, in the order of the tile. -/
theorem entry_getTileStridePerLane {i : ℕ} (hi : i < T.tileSize.length) :
    entry T.getTileStridePerLane i =
      strideIn (Finset.range T.tileSize.length) (entry T.tileAxisOrder)
        (entry T.getTileSizePerLane) i := by
  have hmemAxis := Finset.mem_range.2 h.sound.axis_lt
  have hused := h.sound.getUsedVlane_pos
  have hcoeff : splitSize T / laneSize T = T.getUsedVlane := by
    rw [← h.laneSize_mul]
    exact Nat.mul_div_cancel_left _ h.sound.laneSize_pos
  rw [entry_getTileStridePerLane_eq (by rw [h.length_tileStride]; exact hi), hcoeff,
    h.entry_tileStride hi, h.entry_tileStride h.sound.axis_lt]
  by_cases hinside : entry T.tileAxisOrder i < entry T.tileAxisOrder T.vmap.vlaneSplitAxis
  · -- the split axis lies inside axis `i`
    have hle := mul_strideIn_le h.size_pos hmemAxis hinside
    have hlane := h.strideIn_lane i
    rw [if_pos hinside] at hlane
    split
    · rw [hlane, Nat.mul_div_cancel_left _ hused]
    · rename_i hnot
      have hpos : 0 < strideIn (Finset.range T.tileSize.length) (entry T.tileAxisOrder)
          (entry T.tileSize) T.vmap.vlaneSplitAxis := strideIn_pos h.size_pos
      have hone : splitSize T ≤ 1 := by
        by_contra hmany
        exact hnot (lt_of_lt_of_le (lt_mul_of_one_lt_left hpos (Nat.lt_of_not_le hmany)) hle)
      rw [← h.laneSize_mul] at hone
      have hlanes : T.getUsedVlane ≤ 1 := (Nat.le_mul_of_pos_left _ h.sound.laneSize_pos).trans hone
      rw [hlane, Nat.le_antisymm hlanes hused, Nat.one_mul]
  · have hle := strideIn_anti h.size_pos (Nat.not_lt.1 hinside)
    rw [if_neg (Nat.not_lt.2 hle), h.strideIn_lane i, if_neg hinside, Nat.one_mul]

end PaddedTile

end PyTorchSim.Analysis
