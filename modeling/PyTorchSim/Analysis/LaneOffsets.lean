import PyTorchSim.Analysis.IndexCoordinates

/-!
# Offsets in a lane

The strides within a lane are those that the tile's own loop would give for the sizes of the
lane.  So the coordinates of a lane have each offset of the lane's buffer once.
-/

set_option autoImplicit false

namespace PyTorchSim.Analysis

open PyTorchSim.Frontend PyTorchSim.Library

variable {T : MLIRMultiDimTile} {c : List ℕ}

/-- The offset of a lane's coordinates in its buffer. -/
def laneOffset (T : MLIRMultiDimTile) (c : List ℕ) : ℕ :=
  ∑ i ∈ Finset.range T.tileSize.length, entry c i * entry T.getTileStridePerLane i

/-- The coordinates of the elements of a lane. -/
def laneCoordinates (T : MLIRMultiDimTile) : Set (List ℕ) :=
  {c | c.length = T.tileSize.length ∧ ∀ i < T.tileSize.length,
    entry c i < entry T.getTileSizePerLane i}

/-- `pad_vlane_tile` and `update_tile_stride` give a padded tile. -/
theorem SoundTile.paddedTile (h : SoundTile T)
    (horder : T.tileAxisOrder.Perm (List.range T.tileSize.length)) :
    PaddedTile T.padVlaneTile.updateTileStride := by
  have hlen : T.padVlaneTile.tileSize.length = T.tileSize.length := by
    rw [padVlaneTile_eq, List.length_set]
  refine ⟨⟨?_, ?_, h.lane_pos, h.stride_pos⟩, ⟨?_, rfl⟩, ?_⟩
  · intro size hsize
    change size ∈ T.tileSize.set _ _ at hsize
    rcases List.mem_or_eq_of_mem_set hsize with hmem | rfl
    · exact h.size_pos size hmem
    · exact Nat.mul_pos (ceilDiv_pos h.roundSize_pos h.splitSize_pos) h.roundSize_pos
  · change T.vmap.vlaneSplitAxis < T.padVlaneTile.tileSize.length
    rw [hlen]
    exact h.axis_lt
  · change T.tileAxisOrder.Perm (List.range T.padVlaneTile.tileSize.length)
    rw [hlen]
    exact horder
  · -- a second padding keeps the sizes, and the strides do not take part in it
    have hsize : T.padVlaneTile.padVlaneTile.tileSize = T.padVlaneTile.tileSize :=
      congrArg _ h.padVlaneTile_idem
    change { T.padVlaneTile.updateTileStride with
      tileSize := T.padVlaneTile.padVlaneTile.tileSize } = _
    rw [hsize]
    rfl

namespace PaddedTile

variable (h : PaddedTile T)
include h

/-- The strides in a lane are those of `update_tile_stride` on the sizes of the lane. -/
theorem getTileStridePerLane_eq :
    T.getTileStridePerLane = tileStrides T.tileAxisOrder T.getTileSizePerLane := by
  have hlen : T.tileAxisOrder.length = T.getTileSizePerLane.length := by
    rw [h.length_order, length_getTileSizePerLane]
  apply List.ext_getElem
  · rw [length_tileStrides, length_getTileSizePerLane, ← h.length_tileStride]
    exact List.length_map _
  · intro i hi hi'
    have hi'' : i < T.tileSize.length := by
      rwa [length_tileStrides, length_getTileSizePerLane] at hi'
    rw [← entry_eq_getElem, ← entry_eq_getElem, h.entry_getTileStridePerLane hi'',
      entry_tileStrides h.order_nodup hlen (by rwa [length_getTileSizePerLane]),
      length_getTileSizePerLane]

theorem laneOffset_eq (c : List ℕ) :
    laneOffset T c = offsetIn (Finset.range T.tileSize.length) (entry T.tileAxisOrder)
      (entry T.getTileSizePerLane) (entry c) := by
  apply Finset.sum_congr rfl
  intro i hi
  rw [h.entry_getTileStridePerLane (Finset.mem_range.1 hi)]

/-- A lane has each offset of its buffer once. -/
theorem laneOffset_bijOn :
    Set.BijOn (laneOffset T) (laneCoordinates T) {p | p < T.getNumelPerLane} := by
  have hbound : ∀ c ∈ laneCoordinates T, ∀ i ∈ Finset.range T.tileSize.length,
      entry c i < entry T.getTileSizePerLane i :=
    fun c hc i hi => hc.2 i (Finset.mem_range.1 hi)
  refine ⟨?_, ?_, ?_⟩
  · intro c hc
    change laneOffset T c < T.getNumelPerLane
    rw [h.laneOffset_eq, getNumelPerLane_eq]
    exact offsetIn_lt h.order_injOn (hbound c hc)
  · intro c hc c' hc' heq
    rw [h.laneOffset_eq, h.laneOffset_eq] at heq
    apply List.ext_getElem (hc.1.trans hc'.1.symm)
    intro i hi hi'
    have hmem : i ∈ Finset.range T.tileSize.length := Finset.mem_range.2 (hc.1 ▸ hi)
    rw [← entry_eq_getElem, ← entry_eq_getElem,
      ← digitIn_offsetIn h.order_injOn (hbound c hc) hmem, heq,
      digitIn_offsetIn h.order_injOn (hbound c' hc') hmem]
  · intro p hp
    have hentry : ∀ i < T.tileSize.length,
        entry ((List.range T.tileSize.length).map (laneDigit T p)) i = laneDigit T p i := by
      intro i hi
      simp [entry, hi]
    refine ⟨(List.range T.tileSize.length).map (laneDigit T p), ⟨by simp, ?_⟩, ?_⟩
    · intro i hi
      rw [hentry i hi]
      exact h.sound.laneDigit_lt hi
    · change p < T.getNumelPerLane at hp
      rw [getNumelPerLane_eq] at hp
      refine (h.laneOffset_eq _).trans (Eq.trans ?_ (offsetIn_digitIn h.order_injOn hp))
      apply Finset.sum_congr rfl
      intro i hi
      rw [hentry i (Finset.mem_range.1 hi)]
      rfl

end PaddedTile

/-- After the padding and the update of the strides, in any order of the axes, the strides per lane
are those that the update would give for the sizes per lane, and the coordinates of a lane have each
offset of its buffer once. -/
theorem laneStrides_dense (h : SoundTile T)
    (horder : T.tileAxisOrder.Perm (List.range T.tileSize.length)) :
    T.padVlaneTile.updateTileStride.getTileStridePerLane =
        tileStrides T.tileAxisOrder T.padVlaneTile.updateTileStride.getTileSizePerLane ∧
      Set.BijOn (laneOffset T.padVlaneTile.updateTileStride)
        (laneCoordinates T.padVlaneTile.updateTileStride)
        {p | p < T.padVlaneTile.updateTileStride.getNumelPerLane} :=
  ⟨(h.paddedTile horder).getTileStridePerLane_eq, (h.paddedTile horder).laneOffset_bijOn⟩

/-- Ten rows of three columns over four lanes, two rows at a time, with the rows inside. -/
theorem laneStrides_dense_rows :
    ({ MLIRMultiDimTile.make [10, 3] 4 0 2 none with
      tileAxisOrder := [1, 0] }).padVlaneTile.updateTileStride.getTileStridePerLane = [1, 4] :=
  (laneStrides_dense
    (T := { MLIRMultiDimTile.make [10, 3] 4 0 2 none with tileAxisOrder := [1, 0] })
    ⟨by decide, by decide, by decide, by decide⟩ (by decide)).1

end PyTorchSim.Analysis
