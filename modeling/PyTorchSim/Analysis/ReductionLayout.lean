import PyTorchSim.Analysis.IndexCoordinates
import PyTorchSim.Analysis.IndexLineUp
import PyTorchSim.Frontend.TileReduction

/-!
# The layout of the tiles of a reduction

A load has the axes of the kernel's tile, a store the first of them.  Where the axes of the output
lie inside the others in the loaded tile, the digits of a place along them are those of the place
modulo the rows of a lane.
-/

set_option autoImplicit false

namespace PyTorchSim.Analysis

open PyTorchSim.Frontend PyTorchSim.Library

variable {T L O : MLIRMultiDimTile} {n d pad p axis : ℕ}

/-! ## The loaded tile -/

/-- A tile with the axes of another one behind some of one element. -/
structure ExtendedTile (T L : MLIRMultiDimTile) (pad : ℕ) : Prop where
  size_eq : L.tileSize = List.replicate pad 1 ++ T.tileSize
  lane_eq : L.vmap.vectorLane = T.vmap.vectorLane
  axis_eq : L.vmap.vlaneSplitAxis = T.vmap.vlaneSplitAxis + pad
  stride_eq : L.vmap.vlaneStride = T.vmap.vlaneStride
  order_perm : L.tileAxisOrder.Perm (List.range L.tileSize.length)

theorem entry_replicate_append (sizes : List ℕ) (pad i : ℕ) :
    entry (List.replicate pad 1 ++ sizes) (i + pad) = entry sizes i := by
  simp [entry, List.getD_eq_getElem?_getD, List.getElem?_append_right]

namespace ExtendedTile

variable (h : ExtendedTile T L pad)
include h

theorem length_eq : L.tileSize.length = T.tileSize.length + pad := by
  simp [h.size_eq, Nat.add_comm]

theorem getUsedVlane_eq : L.getUsedVlane = T.getUsedVlane := by
  have hsplit : splitSize L = splitSize T := by
    unfold splitSize
    rw [h.size_eq, h.axis_eq]
    exact entry_replicate_append T.tileSize pad T.vmap.vlaneSplitAxis
  change min (splitSize L ⌈/⌉ L.vmap.vlaneStride) L.vmap.vectorLane = _
  rw [hsplit, h.lane_eq, h.stride_eq]
  rfl

theorem perLane_eq : L.getTileSizePerLane = List.replicate pad 1 ++ T.getTileSizePerLane := by
  have hused := h.getUsedVlane_eq
  have hsplit : splitSize L = splitSize T := by
    unfold splitSize
    rw [h.size_eq, h.axis_eq]
    exact entry_replicate_append T.tileSize pad T.vmap.vlaneSplitAxis
  change L.tileSize.set L.vmap.vlaneSplitAxis (splitSize L ⌈/⌉ L.getUsedVlane) = _
  rw [hsplit, hused, h.size_eq, h.axis_eq, List.set_append_right _ _ (by simp)]
  simp
  rfl

theorem entry_perLane (i : ℕ) :
    entry L.getTileSizePerLane (i + pad) = entry T.getTileSizePerLane i := by
  rw [h.perLane_eq, entry_replicate_append]

theorem entry_perLane_pad {j : ℕ} (hj : j < pad) : entry L.getTileSizePerLane j = 1 := by
  rw [h.perLane_eq]
  simp [entry, List.getD_eq_getElem?_getD, List.getElem?_append, hj]

theorem laneDigit_pad {j : ℕ} (hj : j < pad) : laneDigit L p j = 0 := by
  unfold laneDigit digitIn
  rw [h.entry_perLane_pad hj, Nat.mod_one]

theorem getNumelPerLane_eq : L.getNumelPerLane = T.getNumelPerLane := by
  change L.getTileSizePerLane.prod = T.getTileSizePerLane.prod
  rw [h.perLane_eq, List.prod_append, List.prod_replicate, one_pow, Nat.one_mul]

theorem sound (hT : SoundTile T) : SoundTile L := by
  refine ⟨?_, ?_, ?_, ?_⟩
  · intro size hmem
    rw [h.size_eq, List.mem_append, List.mem_replicate] at hmem
    rcases hmem with ⟨-, rfl⟩ | hmem
    · exact Nat.one_pos
    · exact hT.size_pos size hmem
  · rw [h.axis_eq, h.length_eq]
    exact Nat.add_lt_add_right hT.axis_lt pad
  · rw [h.lane_eq]
    exact hT.lane_pos
  · rw [h.stride_eq]
    exact hT.stride_pos

theorem order_injOn :
    Set.InjOn (entry L.tileAxisOrder) (Finset.range L.tileSize.length : Set ℕ) :=
  entry_injOn (h.order_perm.nodup_iff.2 List.nodup_range) (by simpa using h.order_perm.length_eq)

end ExtendedTile

theorem loadTile_four (hlen : T.tileSize.length = 4) (haxis : T.vmap.vlaneSplitAxis < 4) :
    loadTile T 4 3 = .ok (localTile T T.tileSize none T.vmap.vlaneSplitAxis) := by
  obtain ⟨heq, hidx, hsizes⟩ := loadTile_eq 3 hlen haxis
  rw [heq]
  simp only [dmaTile, hidx, hsizes, List.mem_range, haxis, if_true, List.length_range]
  simp

theorem loadTile_four_two (hlen : T.tileSize.length = 4) (haxis : T.vmap.vlaneSplitAxis < 4) :
    loadTile T 4 2 = .error "Currently not implemented... ;)" := by
  obtain ⟨heq, hidx, hsizes⟩ := loadTile_eq 2 hlen haxis
  rw [heq]
  simp [dmaTile]

/-- The axis order of a load puts the axes of the output innermost. -/
structure RowsInside (order : List ℕ) (d pad : ℕ) : Prop where
  rows : ∀ i < d, ∀ j < d, (entry order (i + pad) < entry order (j + pad) ↔ i < j)
  outer : ∀ i < d, ∀ j < order.length, (j < pad ∨ d + pad ≤ j) →
    entry order j < entry order (i + pad)

theorem extendedTile_localTile (pad : ℕ) (order : Option (List ℕ))
    (hperm : (order.getD (List.range (T.tileSize.length + pad))).Perm
      (List.range (T.tileSize.length + pad))) :
    ExtendedTile T (localTile T (List.replicate pad 1 ++ T.tileSize) order
      (T.vmap.vlaneSplitAxis + pad)) pad := by
  have hlen : (List.replicate pad 1 ++ T.tileSize).length = T.tileSize.length + pad := by
    simp [Nat.add_comm]
  refine ⟨rfl, rfl, rfl, rfl, ?_⟩
  change (order.getD (List.range (List.replicate pad 1 ++ T.tileSize).length)).Perm
    (List.range (List.replicate pad 1 ++ T.tileSize).length)
  rw [hlen]
  exact hperm

theorem loadTile_many (hlen : T.tileSize.length = n) (haxis : T.vmap.vlaneSplitAxis < n)
    (hn : 4 < n)
    (d : ℕ) : loadTile T n d = .error "Currently not implemented... ;)" := by
  obtain ⟨heq, hidx, hsizes⟩ := loadTile_eq d hlen haxis
  have hnot : n ≠ 0 ∧ n ≠ 1 ∧ n ≠ 2 ∧ n ≠ 3 ∧ n ≠ 4 := by omega
  rw [heq]
  simp [dmaTile, hnot]

/-- In a kernel with up to two reduced dimensions the axes of the output lie inside, except with
four dimensions of which one is reduced. -/
theorem loadTile_cases (hlen : T.tileSize.length = n) (haxis : T.vmap.vlaneSplitAxis < n)
    (hd : d < n)
    (hred : n ≤ d + 2) (hload : loadTile T n d = .ok L) :
    ∃ pad, ExtendedTile T L pad ∧
      (d < 3 ∧ RowsInside L.tileAxisOrder d pad ∨
        d = 3 ∧ n = 4 ∧ pad = 0 ∧ L.tileAxisOrder = [0, 1, 2, 3]) := by
  have htile : ∀ order : Option (List ℕ), (order.getD (List.range n)).Perm (List.range n) →
      ExtendedTile T (localTile T T.tileSize order T.vmap.vlaneSplitAxis) 0 := by
    intro order hperm
    apply extendedTile_localTile 0 order
    rw [Nat.add_zero, hlen]
    exact hperm
  rcases Nat.lt_or_ge 4 n with hmany | hfew
  · rw [loadTile_many hlen haxis hmany] at hload
    exact absurd hload (by simp)
  obtain rfl | rfl | rfl | rfl : n = 1 ∨ n = 2 ∨ n = 3 ∨ n = 4 := by omega
  · obtain rfl : d = 0 := by omega
    have hzero : T.vmap.vlaneSplitAxis = 0 := Nat.lt_one_iff.1 haxis
    rw [loadTile_one hlen haxis, Except.ok.injEq] at hload
    have hext := extendedTile_localTile (T := T) 1 none (List.Perm.refl _)
    rw [hzero] at hext
    subst hload
    exact ⟨1, hext, Or.inl ⟨by omega, by simp, by simp⟩⟩
  · rw [loadTile_two d hlen haxis, Except.ok.injEq] at hload
    subst hload
    obtain rfl | rfl : d = 0 ∨ d = 1 := by omega
    · exact ⟨0, htile _ (by decide), Or.inl ⟨by omega, by simp, by simp⟩⟩
    · refine ⟨0, htile _ (by decide), Or.inl ⟨by omega, ?_⟩⟩
      change RowsInside [1, 0] 1 0
      exact ⟨by decide, by decide⟩
  · rw [loadTile_three hlen haxis hd, Except.ok.injEq] at hload
    subst hload
    obtain rfl | rfl : d = 1 ∨ d = 2 := by omega
    · refine ⟨0, htile _ (by decide), Or.inl ⟨by omega, ?_⟩⟩
      change RowsInside [2, 1, 0] 1 0
      exact ⟨by decide, by decide⟩
    · refine ⟨0, htile _ (by decide), Or.inl ⟨by omega, ?_⟩⟩
      change RowsInside [1, 2, 0] 2 0
      exact ⟨by decide, by decide⟩
  · obtain rfl | rfl : d = 2 ∨ d = 3 := by omega
    · rw [loadTile_four_two hlen haxis] at hload
      exact absurd hload (by simp)
    · rw [loadTile_four hlen haxis, Except.ok.injEq] at hload
      subst hload
      refine ⟨0, htile _ (by decide), Or.inr ⟨rfl, rfl, rfl, ?_⟩⟩
      change List.range T.tileSize.length = _
      rw [hlen]
      rfl

/-! ## The rows of a lane -/

/-- The rows of the output in a lane. -/
def rowCount (T : MLIRMultiDimTile) (d : ℕ) :
    ℕ := ∏ i ∈ Finset.range d, entry T.getTileSizePerLane i

/-- The digit of a row along an axis of the output. -/
def rowDigit (T : MLIRMultiDimTile) (d row i : ℕ) : ℕ :=
  digitIn (Finset.range d) id (entry T.getTileSizePerLane) row i

theorem rowDigit_lt (hT : SoundTile T) {row i : ℕ} (hi : i < T.tileSize.length) :
    rowDigit T d row i < entry T.getTileSizePerLane i := Nat.mod_lt _ (hT.lane_size_pos hi)

/-- The axes of the output lie inside those others that have more than one element in a lane. -/
structure RowsInnermost (T L : MLIRMultiDimTile) (d pad : ℕ) : Prop where
  rows : ∀ i < d, ∀ j < d,
    (entry L.tileAxisOrder (i + pad) < entry L.tileAxisOrder (j + pad) ↔ i < j)
  outer : ∀ i < d, 1 < entry T.getTileSizePerLane i → ∀ j < L.tileSize.length,
    (j < pad ∨ d + pad ≤ j) → entry L.tileAxisOrder (i + pad) < entry L.tileAxisOrder j →
      entry L.getTileSizePerLane j = 1

theorem RowsInside.rowsInnermost (h : RowsInside L.tileAxisOrder d pad)
    (hL : ExtendedTile T L pad) : RowsInnermost T L d pad := by
  refine ⟨h.rows, ?_⟩
  intro i hi _ j hj hout hlt
  have hlen : L.tileAxisOrder.length = L.tileSize.length := by
    simpa using hL.order_perm.length_eq
  have hinside := h.outer i hi j (hlen ▸ hj) hout
  exact absurd hlt (lt_asymm hinside)

/-- The digits of a place along the axes of the output are those of its row. -/
theorem laneDigit_rows (hT : SoundTile T) (hL : ExtendedTile T L pad)
    (hrows : RowsInnermost T L d pad)
    (hd : d ≤ T.tileSize.length) {i : ℕ} (hi : i < d) :
    laneDigit L p (i + pad) = rowDigit T d (p % rowCount T d) i := by
  have hinj : Set.InjOn (· + pad) (Finset.range d : Set ℕ) := (add_left_injective pad).injOn
  have hmem : ∀ j, j ∈ (Finset.range d).image (· + pad) ↔ pad ≤ j ∧ j < d + pad := by
    intro j
    simp only [Finset.mem_image, Finset.mem_range]
    constructor
    · rintro ⟨k, hk, rfl⟩
      omega
    · rintro ⟨hle, hlt⟩
      exact ⟨j - pad, by omega, by omega⟩
  have hsub : (Finset.range d).image (· + pad) ⊆ Finset.range L.tileSize.length := by
    intro j hj
    rw [hmem] at hj
    rw [Finset.mem_range, hL.length_eq]
    omega
  have hprod :
    ∏ j ∈ (Finset.range d).image (· + pad), entry L.getTileSizePerLane j = rowCount T d := by
    rw [Finset.prod_image hinj]
    exact Finset.prod_congr rfl fun j _ => hL.entry_perLane j
  have hinside : laneDigit L p (i + pad) =
      digitIn ((Finset.range d).image (· + pad)) (entry L.tileAxisOrder)
        (entry L.getTileSizePerLane)
        (p % ∏ j ∈ (Finset.range d).image (· + pad), entry L.getTileSizePerLane j) (i + pad) := by
    apply digitIn_inside hsub ((hmem (i + pad)).2 (by omega))
    · rw [hL.entry_perLane]
      exact hT.lane_size_pos (by omega)
    · intro hmany j hj hnot hlt
      rw [hL.entry_perLane] at hmany
      apply hrows.outer i hi hmany j (Finset.mem_range.1 hj) ?_ hlt
      rw [hmem] at hnot
      omega
  unfold rowDigit
  rw [hinside, hprod]
  apply digitIn_image hinj
  · intro j hj k hk
    exact hrows.rows j (Finset.mem_range.1 hj) k (Finset.mem_range.1 hk)
  · intro j _
    exact hL.entry_perLane j
  · exact Finset.mem_range.2 hi

/-- A row is that of its digits. -/
theorem row_eq_of_rowDigit {row row' : ℕ} (hrow : row < rowCount T d) (hrow' : row' < rowCount T d)
    (hdigits : ∀ i < d, rowDigit T d row i = rowDigit T d row' i) : row = row' := by
  have hinj : Set.InjOn (id : ℕ → ℕ) (Finset.range d : Set ℕ) := Function.injective_id.injOn
  rw [← offsetIn_digitIn hinj hrow, ← offsetIn_digitIn hinj hrow']
  apply Finset.sum_congr rfl
  intro i hi
  exact congrArg (· * _) (hdigits i (Finset.mem_range.1 hi))

/-! ## The number of rows -/

/-- The lanes divide an axis of the output, or only one is used. -/
def RowsTogether (T : MLIRMultiDimTile) (d : ℕ) : Prop :=
  T.vmap.vlaneSplitAxis < d ∨ T.getUsedVlane = 1

/-- With one lane nothing is divided. -/
theorem getTileSizePerLane_one_lane (hT : SoundTile T) (hused : T.getUsedVlane = 1) :
    T.getTileSizePerLane = T.tileSize := by
  change T.tileSize.set T.vmap.vlaneSplitAxis (splitSize T ⌈/⌉ T.getUsedVlane) = _
  rw [hused, ceilDiv_one, splitSize, List.getD_eq_getElem _ _ hT.axis_lt]
  exact List.set_getElem_self hT.axis_lt

/-- The reduced axes are not divided. -/
theorem drop_getTileSizePerLane (hT : SoundTile T) (h : RowsTogether T d) :
    T.getTileSizePerLane.drop d = T.tileSize.drop d := by
  rcases h with hlt | hused
  · exact List.drop_set_of_lt hlt
  · rw [getTileSizePerLane_one_lane hT hused]

theorem entry_perLane_reduced (hT : SoundTile T) (h : RowsTogether T d) {j : ℕ} (hle : d ≤ j) :
    entry T.getTileSizePerLane j = entry T.tileSize j := by
  rcases h with hlt | hused
  · exact entry_getTileSizePerLane (by omega)
  · rw [getTileSizePerLane_one_lane hT hused]

theorem prod_take_getTileSizePerLane (hd : d ≤ T.tileSize.length) :
    (T.getTileSizePerLane.take d).prod = rowCount T d := by
  have hlen : (T.getTileSizePerLane.take d).length = d := by
    rw [List.length_take, length_getTileSizePerLane, Nat.min_eq_left hd]
  rw [← prod_entry, hlen]
  apply Finset.prod_congr rfl
  intro i hi
  simp [entry, List.getD_eq_getElem?_getD, Finset.mem_range.1 hi]

/-- The slots of the result are the rows of a lane. -/
theorem reductionSize_eq (hT : SoundTile T) (hd : d < T.tileSize.length)
    (hrdim : T.nrRdim = T.tileSize.length - d) (h : RowsTogether T d) :
    reductionSize T = rowCount T d := by
  have hnumel : T.getNumelPerLane = rowCount T d * (T.tileSize.drop d).prod := by
    rw [← prod_take_getTileSizePerLane hd.le, ← drop_getTileSizePerLane hT h]
    exact (List.prod_take_mul_prod_drop T.getTileSizePerLane d).symm
  have hred : T.getReductionNumel = (T.tileSize.drop d).prod := by
    unfold MLIRMultiDimTile.getReductionNumel
    rw [if_neg (by omega), hrdim, Nat.sub_sub_self hd.le]
  have hpos : 0 < (T.tileSize.drop d).prod :=
    List.prod_pos fun size hsize => hT.size_pos size (List.mem_of_mem_drop hsize)
  rw [reductionSize, hnumel, hred, Nat.mul_div_cancel _ hpos]

/-! ## The stored tile -/

theorem map_getD_range_take {sizes : List ℕ} (hd : d ≤ sizes.length) :
    (List.range d).map (fun dim => sizes.getD dim 0) = sizes.take d := by
  apply List.ext_getElem
  · simp [hd]
  · intro i hi hi'
    rw [List.length_map, List.length_range] at hi
    simp [List.getElem?_eq_getElem (Nat.lt_of_lt_of_le hi hd)]

/-- The output has the first axes of the kernel's tile, and is divided along the last of them where
the kernel's tile is divided along a reduced axis. -/
theorem storeTile_eq (n : ℕ) (hpos : 0 < d) (hd : d ≤ 3) (hlen : d ≤ T.tileSize.length) :
    storeTile T n d = .ok (localTile T (T.tileSize.take d) none
      (if T.vmap.vlaneSplitAxis < d then T.vmap.vlaneSplitAxis else d - 1)) := by
  have hdims : dmaLocalDims (List.range d) (List.range n) d false = List.range d := rfl
  have hsizes := map_getD_range_take hlen
  unfold storeTile
  rw [hdims]
  by_cases hlt : T.vmap.vlaneSplitAxis < d
  · have hidx := idxOf_range hlt
    simp only [dmaTile, hidx, hsizes, List.mem_range, hlt, if_true, List.length_range]
    obtain rfl | rfl | rfl : d = 1 ∨ d = 2 ∨ d = 3 := by omega
    all_goals simp
  · simp only [dmaTile, hsizes, List.mem_range, hlt, if_false, List.length_range]
    obtain rfl | rfl | rfl : d = 1 ∨ d = 2 ∨ d = 3 := by omega
    all_goals simp

theorem storeTile_zero (n : ℕ) (hload : storeTile T n 0 = .ok O) :
    O.tileSize = [1] ∧ O.vmap.vlaneSplitAxis = 0 ∧ O.vmap.vectorLane = T.vmap.vectorLane ∧
      O.vmap.vlaneStride = 1 := by
  have hdims : dmaLocalDims (List.range 0) (List.range n) 0 false = [] := rfl
  unfold storeTile at hload
  rw [hdims] at hload
  simp only [dmaTile, List.length_nil, if_true, Bool.not_true, Bool.false_eq_true, if_false,
    Except.ok.injEq] at hload
  subst hload
  exact ⟨rfl, rfl, rfl, rfl⟩

/-- The tile of an output with at least one dimension. -/
structure StoredTile (T O : MLIRMultiDimTile) (d : ℕ) : Prop where
  size_eq : O.tileSize = T.tileSize.take d
  order_eq : O.tileAxisOrder = List.range d
  lane_eq : O.vmap.vectorLane = T.vmap.vectorLane
  axis_eq : O.vmap.vlaneSplitAxis =
    if T.vmap.vlaneSplitAxis < d then T.vmap.vlaneSplitAxis else d - 1
  stride_eq : O.vmap.vlaneStride = T.vmap.vlaneStride

theorem storedTile_of_storeTile (hpos : 0 < d) (hd : d ≤ 3) (hlen : d ≤ T.tileSize.length)
    (hstore : storeTile T n d = .ok O) : StoredTile T O d := by
  rw [storeTile_eq n hpos hd hlen, Except.ok.injEq] at hstore
  subst hstore
  refine ⟨rfl, ?_, rfl, rfl, rfl⟩
  change List.range (T.tileSize.take d).length = _
  rw [List.length_take, Nat.min_eq_left hlen]

namespace StoredTile

variable (h : StoredTile T O d) (hT : SoundTile T) (hpos : 0 < d) (hd : d ≤ T.tileSize.length)
include h hd

theorem length_eq : O.tileSize.length = d := by
  rw [h.size_eq, List.length_take, Nat.min_eq_left hd]

include hT hpos

theorem sound : SoundTile O := by
  refine ⟨?_, ?_, ?_, ?_⟩
  · intro size hmem
    rw [h.size_eq] at hmem
    exact hT.size_pos size (List.mem_of_mem_take hmem)
  · rw [h.length_eq hd, h.axis_eq]
    split
    · assumption
    · omega
  · rw [h.lane_eq]
    exact hT.lane_pos
  · rw [h.stride_eq]
    exact hT.stride_pos

/-- A lane of the output has the rows of the lane of the load. -/
theorem perLane_eq (hkept : T.vmap.vlaneSplitAxis < d ∨ T.getUsedVlane = 1 ∧ O.getUsedVlane = 1) :
    O.getTileSizePerLane = T.getTileSizePerLane.take d := by
  rcases hkept with hlt | ⟨hT1, hO1⟩
  · have haxis : O.vmap.vlaneSplitAxis = T.vmap.vlaneSplitAxis := by
      rw [h.axis_eq, if_pos hlt]
    have hsplit : splitSize O = splitSize T := by
      unfold splitSize
      rw [haxis, h.size_eq, List.getD_eq_getElem?_getD, List.getElem?_take_of_lt hlt,
        List.getD_eq_getElem?_getD]
    have hused : O.getUsedVlane = T.getUsedVlane := by
      change min (splitSize O ⌈/⌉ O.vmap.vlaneStride) O.vmap.vectorLane = _
      rw [hsplit, h.stride_eq, h.lane_eq]
      rfl
    change O.tileSize.set O.vmap.vlaneSplitAxis (splitSize O ⌈/⌉ O.getUsedVlane) =
      (T.tileSize.set T.vmap.vlaneSplitAxis (splitSize T ⌈/⌉ T.getUsedVlane)).take d
    rw [haxis, hsplit, hused, h.size_eq, List.take_set]
  · rw [getTileSizePerLane_one_lane (h.sound hT hpos hd) hO1, getTileSizePerLane_one_lane hT hT1,
      h.size_eq]

variable (hkept : T.vmap.vlaneSplitAxis < d ∨ T.getUsedVlane = 1 ∧ O.getUsedVlane = 1)
include hkept

theorem entry_perLane {i : ℕ} (hi : i < d) :
    entry O.getTileSizePerLane i = entry T.getTileSizePerLane i := by
  rw [h.perLane_eq hT hpos hd hkept]
  simp [entry, List.getD_eq_getElem?_getD, hi]

theorem getNumelPerLane_eq : O.getNumelPerLane = rowCount T d := by
  rw [← prod_take_getTileSizePerLane hd, ← h.perLane_eq hT hpos hd hkept]
  rfl

theorem laneDigit_eq {row i : ℕ} (hi : i < d) : laneDigit O row i = rowDigit T d row i := by
  have himage :
    digitIn ((Finset.range d).image id) (entry O.tileAxisOrder) (entry O.getTileSizePerLane)
      row (id i) = rowDigit T d row i := by
    apply digitIn_image Function.injective_id.injOn ?_ ?_ (Finset.mem_range.2 hi)
    · intro j hj k hk
      rw [Finset.mem_range] at hj hk
      rw [h.order_eq]
      simp [entry, List.getD_eq_getElem?_getD, hj, hk]
    · intro j hj
      exact h.entry_perLane hT hpos hd hkept (Finset.mem_range.1 hj)
  rw [Finset.image_id] at himage
  unfold laneDigit
  rw [h.length_eq hd]
  exact himage

end StoredTile

end PyTorchSim.Analysis
