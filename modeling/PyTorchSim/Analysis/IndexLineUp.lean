import Mathlib.Tactic.IntervalCases
import PyTorchSim.Analysis.PerLaneLayout
import PyTorchSim.Frontend.IndexExpr

/-!
# Index expressions and loads of a reduction

In a reduction the tile of a load puts the axes of the output innermost, in an order that depends on
the rank and on the number of reduction dimensions.  An index expression always moves the first axis
to the end.  The two agree on kernels with one reduction dimension.
-/

set_option autoImplicit false

namespace PyTorchSim.Analysis

open PyTorchSim.Frontend PyTorchSim.Library

variable {base load : MLIRMultiDimTile} {nrRanges reductionDepth lane p : ℕ}

/-- Tiles that differ in what the layout does not depend on. -/
structure SameTile (index load : MLIRMultiDimTile) : Prop where
  size_eq : load.tileSize = index.tileSize
  stride_eq : load.tileStride = index.tileStride
  lane_eq : load.vmap.vectorLane = index.vmap.vectorLane
  axis_eq : load.vmap.vlaneSplitAxis = index.vmap.vlaneSplitAxis
  laneStride_eq : load.vmap.vlaneStride = index.vmap.vlaneStride

theorem SameTile.perLane_eq {index : MLIRMultiDimTile} (h : SameTile index load) :
    load.getTileSizePerLane = index.getTileSizePerLane ∧
      load.getTileStridePerLane = index.getTileStridePerLane := by
  obtain ⟨hsize, hstride, hlane, haxis, hlaneStride⟩ := h
  simp only [MLIRMultiDimTile.getTileSizePerLane, VectorLaneMapping.getTileSizePerLane,
    MLIRMultiDimTile.getTileStridePerLane, VectorLaneMapping.getTileStridePerLane,
    VectorLaneMapping.getUsedVlane, hsize, hstride, hlane, haxis, hlaneStride, and_self]

theorem map_getD_range (sizes : List ℕ) :
    (List.range sizes.length).map (fun dim => sizes.getD dim 0) = sizes := by
  apply List.ext_getElem
  · simp
  · intro i hi hi'
    simp [hi']

theorem idxOf_range {n axis : ℕ} (h : axis < n) : (List.range n).idxOf axis = axis := by
  have hidx := List.nodup_range.idxOf_getElem axis (by simpa using h)
  rwa [List.getElem_range] at hidx

/-- A load of all loop dimensions has the sizes of the kernel's tile. -/
theorem loadTile_eq (reductionDepth : ℕ) (hlen : base.tileSize.length = nrRanges)
    (haxis : base.vmap.vlaneSplitAxis < nrRanges) :
    loadTile base nrRanges reductionDepth =
      dmaTile base (List.range nrRanges) reductionDepth (nrRanges - reductionDepth) false ∧
    (List.range nrRanges).idxOf base.vmap.vlaneSplitAxis = base.vmap.vlaneSplitAxis ∧
    (List.range nrRanges).map (fun dim => base.tileSize.getD dim 0) = base.tileSize := by
  refine ⟨?_, idxOf_range haxis, ?_⟩
  · unfold loadTile dmaLocalDims
    simp only [ite_self]
  · rw [← hlen]
    exact map_getD_range base.tileSize

theorem loadTile_one (hlen : base.tileSize.length = 1) (haxis : base.vmap.vlaneSplitAxis < 1) :
    loadTile base 1 0 = .ok (localTile base (1 :: base.tileSize) none 1) := by
  obtain ⟨heq, -, hsizes⟩ := loadTile_eq 0 hlen haxis
  have hzero : base.vmap.vlaneSplitAxis = 0 := Nat.lt_one_iff.1 haxis
  rw [heq]
  simp only [dmaTile, hsizes, hzero]
  rfl

theorem loadTile_two (reductionDepth : ℕ) (hlen : base.tileSize.length = 2)
    (haxis : base.vmap.vlaneSplitAxis < 2) :
    loadTile base 2 reductionDepth = .ok (localTile base base.tileSize
      (if reductionDepth = 1 then some [1, 0] else none) base.vmap.vlaneSplitAxis) := by
  obtain ⟨heq, hidx, hsizes⟩ := loadTile_eq reductionDepth hlen haxis
  rw [heq]
  simp only [dmaTile, hidx, hsizes, List.mem_range, haxis, if_true, List.length_range]
  simp

theorem loadTile_three (hlen : base.tileSize.length = 3) (haxis : base.vmap.vlaneSplitAxis < 3)
    (hred : reductionDepth < 3) :
    loadTile base 3 reductionDepth = .ok (localTile base base.tileSize
      (some (if 3 - reductionDepth = 1 then [1, 2, 0] else [2, 1, 0]))
      base.vmap.vlaneSplitAxis) := by
  obtain ⟨heq, hidx, hsizes⟩ := loadTile_eq reductionDepth hlen haxis
  rw [heq]
  simp only [dmaTile, hidx, hsizes, List.mem_range, haxis, if_true, List.length_range]
  simp [hred]

/-- A tile with the sizes and the lanes of the kernel's tile, and the strides given. -/
structure TileOf (base T : MLIRMultiDimTile) (strides : List ℕ) : Prop where
  size_eq : T.tileSize = base.tileSize
  vmap_eq : T.vmap.vectorLane = base.vmap.vectorLane ∧
    T.vmap.vlaneSplitAxis = base.vmap.vlaneSplitAxis ∧ T.vmap.vlaneStride = base.vmap.vlaneStride
  stride_eq : T.tileStride = strides

variable {T : MLIRMultiDimTile} {strides strides' : List ℕ}

theorem TileOf.perLane_eq (h : TileOf base T strides) :
    T.getTileSizePerLane = base.getTileSizePerLane := by
  obtain ⟨hsize, ⟨hlane, haxis, hstride⟩, -⟩ := h
  simp only [MLIRMultiDimTile.getTileSizePerLane, VectorLaneMapping.getTileSizePerLane,
    VectorLaneMapping.getUsedVlane, hsize, hlane, haxis, hstride]

end PyTorchSim.Analysis
