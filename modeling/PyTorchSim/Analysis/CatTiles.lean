import Mathlib.Algebra.BigOperators.Ring.List
import Mathlib.Algebra.Order.BigOperators.Group.List
import Mathlib.Data.List.GetD
import Mathlib.Tactic.Linarith
import PyTorchSim.Frontend.CatTemplate
import PyTorchSim.Library.CeilDiv

/-!
# Concatenation tiles in the scratchpad

The candidates are chosen so that the tiles of all inputs fit into the scratchpads of all lanes
together.  A buffer is divided along the last axis of its tile only, so a lane holds more than its
part where that axis is not a multiple of the number of lanes.
-/

set_option autoImplicit false

namespace PyTorchSim.Analysis

open Finset Frontend Frontend.CatTemplate Library

/-! ## The shares of the inputs -/

section Shares

variable {budget : ℤ} {extents : List ℕ}

/-- The share of an input of extent `extent`, where those in front of it have the extents `before`
together. -/
def share (budget : ℤ) (before extent : ℕ) : ℕ :=
  if (before : ℤ) < budget then min extent (budget - before).toNat else 1

theorem length_shareExtents (budget : ℤ) (extents : List ℕ) :
    (shareExtents budget extents).length = extents.length := by
  induction extents generalizing budget with
  | nil => rfl
  | cons extent extents ih =>
    rw [shareExtents]
    split <;> simp [ih]

/-- The shares after the budget is used up. -/
theorem shareExtents_of_nonpos (hbudget : budget ≤ 0) :
    shareExtents budget extents = extents.map fun _ => 1 := by
  induction extents with
  | nil => rfl
  | cons extent extents ih => rw [shareExtents, if_neg (not_lt.2 hbudget), ih, List.map_cons]

/-- **The loop over the inputs in closed form.** -/
theorem getD_shareExtents (budget : ℤ) (extents : List ℕ) (i : ℕ) (hi : i < extents.length) :
    (shareExtents budget extents).getD i 0 =
      share budget (extents.take i).sum (extents.getD i 0) := by
  induction extents generalizing budget i with
  | nil => simp at hi
  | cons extent extents ih =>
    rw [shareExtents]
    split
    · next hpos =>
      cases i with
      | zero => simp [share, hpos]
      | succ i =>
        have hi' : i < extents.length := by simpa using hi
        rw [List.getD_cons_succ, ih _ i hi', List.getD_cons_succ, List.take_succ_cons,
          List.sum_cons]
        rcases le_or_gt extent budget.toNat with hle | hlt
        · rw [min_eq_left hle, share, share]
          simp only [Nat.cast_add]
          by_cases h : ((extents.take i).sum : ℤ) < budget - extent
          · rw [if_pos h, if_pos (by linarith)]
            congr 2
            ring
          · rw [if_neg h, if_neg (by linarith)]
        · have hrest : budget - (min extent budget.toNat : ℕ) = 0 := by omega
          rw [hrest, share, share, if_neg (by omega), if_neg (by omega)]
    · next hneg =>
      rw [shareExtents_of_nonpos (not_lt.1 hneg)]
      cases i with
      | zero => simp [share, hneg]
      | succ i =>
        have hi' : i < extents.length := by simpa using hi
        have hused : ¬ (((extent :: extents).take (i + 1)).sum : ℤ) < budget := by omega
        rw [share, if_neg hused]
        simp [hi']

/-- **The shares together**: no more than the budget, and one element for each input but the first.
-/
theorem sum_shareExtents_le (budget : ℤ) (extents : List ℕ) :
    ((shareExtents budget extents).sum : ℤ) ≤
      if 0 < budget then budget + extents.length - 1 else extents.length := by
  induction extents generalizing budget with
  | nil =>
    rw [shareExtents]
    split
    · simp only [List.sum_nil, List.length_nil]
      omega
    · simp
  | cons extent extents ih =>
    rw [shareExtents]
    split
    · next hpos =>
      have hrest := ih (budget - (min extent budget.toNat : ℕ))
      simp only [List.sum_cons, List.length_cons]
      split at hrest <;> omega
    · next hneg =>
      have hrest := ih budget
      rw [if_neg hneg] at hrest
      simp only [List.sum_cons, List.length_cons]
      omega

end Shares

/-! ## The part of a lane -/

section Lanes

variable {lanes : ℕ} {others shape : List ℕ} {last : ℕ}

/-- The last axis is divided over the lanes in use. -/
theorem getNumelPerLane_concat (hlanes : 0 < lanes) (others : List ℕ) (last : ℕ) :
    VectorLaneMapping.getNumelPerLane ⟨lanes, none, (others ++ [last]).length - 1, 1⟩
      (others ++ [last]) = others.prod * (last ⌈/⌉ lanes) := by
  have hlen : (others ++ [last]).length - 1 = others.length := by simp
  have hlast : (others ++ [last]).getD others.length 0 = last := by simp
  have hused : last ⌈/⌉ min (last ⌈/⌉ 1) lanes = last ⌈/⌉ lanes := by
    rw [Nat.ceilDiv_eq_add_pred_div last 1, Nat.div_one, Nat.add_sub_cancel]
    rcases Nat.lt_or_ge lanes last with hlt | hle
    · rw [min_eq_right hlt.le]
    · rw [min_eq_left hle]
      rcases Nat.eq_zero_or_pos last with rfl | hpos
      · simp
      · have hone : last ⌈/⌉ lanes = 1 :=
          le_antisymm ((ceilDiv_le_iff hlanes).2 (by omega)) (ceilDiv_pos hlanes hpos)
        have hself : (1 * last) ⌈/⌉ last = 1 := mul_ceilDiv_self hpos
        rw [one_mul] at hself
        rw [hself, hone]
  rw [hlen, VectorLaneMapping.getNumelPerLane, VectorLaneMapping.getTileSizePerLane,
    VectorLaneMapping.getUsedVlane]
  simp only [hlast, hused]
  rw [List.set_append_right _ _ le_rfl, Nat.sub_self, List.set_cons_zero, List.prod_append,
    List.prod_singleton]

/-- What is missing from a size to a multiple of the number of lanes. -/
def idleLanes (lanes size : ℕ) : ℕ := (lanes - size % lanes) % lanes

theorem ceilDiv_mul_eq (hlanes : 0 < lanes) (size : ℕ) :
    size ⌈/⌉ lanes * lanes = size + idleLanes lanes size := by
  have hmod := Nat.mod_lt size hlanes
  have hsplit := Nat.div_add_mod' size lanes
  rw [Nat.ceilDiv_eq_add_pred_div, idleLanes]
  rcases Nat.eq_zero_or_pos (size % lanes) with hzero | hpos
  · have hdiv : (size + lanes - 1) / lanes = size / lanes := by
      rw [Nat.div_eq_iff hlanes]
      constructor <;> omega
    rw [hdiv, hzero, Nat.sub_zero, Nat.mod_self]
    omega
  · have hdiv : (size + lanes - 1) / lanes = size / lanes + 1 := by
      rw [Nat.div_eq_iff hlanes]
      constructor
      · rw [Nat.add_mul]
        omega
      · rw [Nat.add_mul]
        omega
    rw [hdiv, Nat.mod_eq_of_lt (by omega), Nat.add_mul]
    omega

/-- The places of a buffer in all lanes together that hold no element of the tile. -/
def idlePlaces (lanes : ℕ) (shape : List ℕ) : ℕ :=
  shape.dropLast.prod * idleLanes lanes (shape.getLastD 0)

/-- **A buffer in all lanes together**: the elements of the tile and the places of the idle lanes,
and no less than two places for each lane. -/
theorem bufferSizePerLane_mul (kernel : CatKernel) (hlanes : 0 < kernel.vectorLane)
    (hshape : shape ≠ []) :
    bufferSizePerLane kernel shape * kernel.vectorLane =
      max (shape.prod + idlePlaces kernel.vectorLane shape) (2 * kernel.vectorLane) := by
  obtain ⟨others, last, rfl⟩ : ∃ others last, shape = others ++ [last] :=
    ⟨shape.dropLast, shape.getLast hshape, (List.dropLast_append_getLast hshape).symm⟩
  have hplaces : others.prod * (last ⌈/⌉ kernel.vectorLane) * kernel.vectorLane =
      (others ++ [last]).prod + idlePlaces kernel.vectorLane (others ++ [last]) := by
    rw [mul_assoc, ceilDiv_mul_eq hlanes, idlePlaces, List.dropLast_concat]
    simp [mul_add]
  rw [bufferSizePerLane, getNumelPerLane_concat hlanes, max_mul_of_nonneg _ _ (Nat.zero_le _),
    hplaces]

end Lanes

/-! ## The buffers -/

section Buffers

/-- The inputs that are the first ones with their name. -/
def firstUses (names : List String) : List ℕ :=
  (List.range names.length).filter fun i => ∀ j < i, names.getD j "" ≠ names.getD i ""

/-- The buffers are those of the first uses, each with the tile of its first use. -/
theorem uniqueTileDescs_range (n : ℕ) (tile : ℕ → String × List ℕ) :
    uniqueTileDescs ((List.range n).map tile) =
      ((List.range n).filter fun i => ∀ j < i, (tile j).1 ≠ (tile i).1).map tile := by
  induction n with
  | zero => rfl
  | succ n ih =>
    have hstep : uniqueTileDescs ((List.range (n + 1)).map tile) =
        if (uniqueTileDescs ((List.range n).map tile)).any (fun u => u.1 = (tile n).1) then
          uniqueTileDescs ((List.range n).map tile)
        else uniqueTileDescs ((List.range n).map tile) ++ [tile n] := by
      rw [List.range_succ, List.map_append, uniqueTileDescs, List.foldl_append]
      rfl
    -- a name is there already if an input before has it; take the first of these
    have hseen : (uniqueTileDescs ((List.range n).map tile)).any (fun u => u.1 = (tile n).1) =
        true ↔ ¬ ∀ j < n, (tile j).1 ≠ (tile n).1 := by
      rw [ih]
      simp only [List.any_map, List.any_eq_true, List.mem_filter, List.mem_range,
        Function.comp_apply, decide_eq_true_eq]
      constructor
      · rintro ⟨j, ⟨hj, -⟩, heq⟩ hnone
        exact hnone j hj heq
      · intro hsome
        have hexists : ∃ j, j < n ∧ (tile j).1 = (tile n).1 := by
          push Not at hsome
          exact hsome
        obtain ⟨hlt, heq⟩ := Nat.find_spec hexists
        refine ⟨Nat.find hexists, ⟨hlt, fun j hj hsame => ?_⟩, heq⟩
        exact Nat.find_min hexists hj ⟨hj.trans hlt, hsame.trans heq⟩
    rw [hstep, List.range_succ, List.filter_append, List.map_append, ← ih]
    by_cases hnew : ∀ j < n, (tile j).1 ≠ (tile n).1
    · rw [if_neg (fun h => hseen.1 h hnew), List.filter_cons_of_pos (by simpa using hnew)]
      rfl
    · rw [if_pos (hseen.2 hnew), List.filter_cons_of_neg (by simpa using hnew)]
      simp

end Buffers

/-! ## Excluded axes -/

section Excluded

variable {tileSizes excluded : List ℕ} {idx : ℕ}

/-- Setting axes to 1, one after the other. -/
theorem getD_foldl_set_one (excluded tileSizes : List ℕ) (idx : ℕ) (hidx : idx < tileSizes.length) :
    (excluded.foldl (fun sizes d => sizes.set d 1) tileSizes).getD idx 0 =
      if idx ∈ excluded then 1 else tileSizes.getD idx 0 := by
  induction excluded generalizing tileSizes with
  | nil => simp
  | cons d excluded ih =>
    rw [List.foldl_cons, ih _ (by simpa using hidx)]
    by_cases hmem : idx ∈ excluded
    · rw [if_pos hmem, if_pos (List.mem_cons_of_mem d hmem)]
    · rw [if_neg hmem]
      by_cases hd : idx = d
      · subst hd
        rw [if_pos (List.mem_cons_self ..), List.getD_eq_getElem _ _ (by simpa using hidx)]
        simp
      · rw [if_neg (by simp [hd, hmem]), List.getD_eq_getElem?_getD,
          List.getElem?_set_ne (Ne.symm hd),
          ← List.getD_eq_getElem?_getD]

theorem length_foldl_set_one (excluded tileSizes : List ℕ) :
    (excluded.foldl (fun sizes d => sizes.set d 1) tileSizes).length = tileSizes.length := by
  induction excluded generalizing tileSizes with
  | nil => rfl
  | cons d excluded ih => rw [List.foldl_cons, ih, List.length_set]

/-- An axis set to 1 makes the product of positive sizes no larger. -/
theorem prod_foldl_set_one_le (excluded tileSizes : List ℕ) (hpos : ∀ n ∈ tileSizes, 0 < n) :
    (excluded.foldl (fun sizes d => sizes.set d 1) tileSizes).prod ≤ tileSizes.prod := by
  induction excluded generalizing tileSizes with
  | nil => exact le_rfl
  | cons d excluded ih =>
    have hpos' : ∀ n ∈ tileSizes.set d 1, 0 < n := by
      intro n hn
      rcases List.mem_or_eq_of_mem_set hn with hn | rfl
      · exact hpos n hn
      · exact Nat.one_pos
    refine (ih _ hpos').trans ?_
    apply List.Forall₂.prod_le_prod'
    rw [List.forall₂_iff_get]
    refine ⟨by simp, fun i hi hi' => ?_⟩
    simp only [List.get_eq_getElem, List.getElem_set]
    split
    · exact hpos _ (List.getElem_mem hi')
    · exact le_rfl

theorem length_computeExcludedDims (tileSizes : List ℕ) :
    (computeExcludedDims tileSizes).2.length = tileSizes.length := by
  rw [computeExcludedDims]
  split
  · rfl
  · exact length_foldl_set_one _ _

theorem prod_computeExcludedDims_le (hpos : ∀ n ∈ tileSizes, 0 < n) :
    (computeExcludedDims tileSizes).2.prod ≤ tileSizes.prod := by
  rw [computeExcludedDims]
  split
  · exact le_rfl
  · exact prod_foldl_set_one_le _ _ hpos

/-- An axis that is left out has tiles of size 1. -/
theorem getD_of_excluded (hidx : idx < tileSizes.length)
    (hmem : idx ∈ (computeExcludedDims tileSizes).1) :
    (computeExcludedDims tileSizes).2.getD idx 0 = 1 := by
  rw [computeExcludedDims] at hmem ⊢
  split at hmem
  · simp at hmem
  · next hlong =>
    rw [if_neg hlong]
    rw [getD_foldl_set_one _ _ _ hidx, if_pos hmem]

/-- A product over the entries that are kept, where the others are 1. -/
theorem prod_filterMap_of_one (axes : List ℕ) (kept : ℕ → Option ℕ) (size : ℕ → ℕ)
    (hkept : ∀ d ∈ axes, kept d = some (size d) ∨ kept d = none ∧ size d = 1) :
    (axes.filterMap kept).prod = (axes.map size).prod := by
  induction axes with
  | nil => rfl
  | cons d axes ih =>
    have hrest := ih fun d' hd' => hkept d' (List.mem_cons_of_mem d hd')
    rcases hkept d (List.mem_cons_self ..) with hsome | ⟨hnone, hone⟩
    · rw [List.filterMap_cons_some hsome, List.prod_cons, List.map_cons, List.prod_cons, hrest]
    · rw [List.filterMap_cons_none hnone, List.map_cons, List.prod_cons, hrest, hone, one_mul]

/-- The axes of the output, the concatenated one among the others. -/
theorem map_range_eq_insertIdx {dim tileDim : ℕ} (hdim : dim ≤ tileSizes.length) :
    ((List.range (tileSizes.length + 1)).map fun d =>
      if d = dim then tileDim else tileSizes.getD (tileIdx dim d) 0) =
      tileSizes.insertIdx dim tileDim := by
  apply List.ext_getElem
  · simp [List.length_insertIdx_of_le_length hdim]
  · intro d hd hd'
    have hd'' : d < tileSizes.length + 1 := by simpa using hd
    rw [List.getElem_map, List.getElem_range, List.getElem_insertIdx]
    rcases Nat.lt_trichotomy d dim with hlt | rfl | hgt
    · rw [if_neg hlt.ne, dif_pos hlt, tileIdx, if_pos hlt, List.getD_eq_getElem]
    · rw [if_pos rfl, dif_neg (lt_irrefl d), dif_pos rfl]
    · rw [if_neg hgt.ne', dif_neg hgt.not_gt, dif_neg hgt.ne', tileIdx, if_neg hgt.not_gt,
        List.getD_eq_getElem]

/-- **The elements of a tile**: those of the candidate, times the share. -/
theorem prod_tileShape {dim tileDim : ℕ} (tileInfo : List ℕ) (hdim : dim ≤ tileInfo.length) :
    (tileShape (tileInfo.length + 1) dim (computeExcludedDims tileInfo).1
      (computeExcludedDims tileInfo).2 tileDim).prod =
      (computeExcludedDims tileInfo).2.prod * tileDim := by
  have hlen := length_computeExcludedDims tileInfo
  have hdim' : dim ≤ (computeExcludedDims tileInfo).2.length := hlen ▸ hdim
  rw [tileShape, prod_filterMap_of_one _ _ fun d =>
    if d = dim then tileDim else (computeExcludedDims tileInfo).2.getD (tileIdx dim d) 0]
  · rw [← hlen, map_range_eq_insertIdx hdim', (List.perm_insertIdx _ _ hdim').prod_eq,
      List.prod_cons, mul_comm]
  · intro d hd
    have hd' : d < tileInfo.length + 1 := List.mem_range.1 hd
    by_cases hconcat : d = dim
    · exact Or.inl (by simp [hconcat])
    · have hidx : tileIdx dim d < tileInfo.length := by
        rw [tileIdx]
        split <;> omega
      by_cases hmem : tileIdx dim d ∈ (computeExcludedDims tileInfo).1
      · refine Or.inr ⟨by simp [hconcat, hmem], ?_⟩
        rw [if_neg hconcat, getD_of_excluded hidx hmem]
      · exact Or.inl (by simp [hconcat, hmem])

end Excluded

/-! ## The tiles of a candidate -/

section Tiles

variable {t : CatTemplate} {kernel : CatKernel} {tileInfo : List ℕ}

/-- The share of input `i`, for a candidate. -/
def inputShare (t : CatTemplate) (kernel : CatKernel) (tileInfo : List ℕ) (i : ℕ) : ℕ :=
  share (t.extraConcat kernel (computeExcludedDims tileInfo).2)
    ((t.inputNodes.map t.extent).take i).sum ((t.inputNodes.map t.extent).getD i 0)

/-- The sizes of the tile of input `i`. -/
def inputTileShape (t : CatTemplate) (kernel : CatKernel) (tileInfo : List ℕ) (i : ℕ) : List ℕ :=
  tileShape t.rank t.dim (computeExcludedDims tileInfo).1 (computeExcludedDims tileInfo).2
    (inputShare t kernel tileInfo i)

def inputNames (t : CatTemplate) : List String := t.inputNodes.map CatInput.name

theorem calculateInputTileSizes_eq (t : CatTemplate) (kernel : CatKernel) (tileInfo : List ℕ) :
    t.calculateInputTileSizes kernel (computeExcludedDims tileInfo).2 =
      (List.range t.numInputs).map (inputShare t kernel tileInfo) := by
  have hlen : (t.calculateInputTileSizes kernel (computeExcludedDims tileInfo).2).length =
      t.numInputs := by
    rw [calculateInputTileSizes, length_shareExtents, List.length_map, numInputs]
  apply List.ext_getElem
  · simp [hlen]
  · intro i hi hi'
    have hn : i < t.numInputs := by simpa using hi'
    have hshare : (t.calculateInputTileSizes kernel (computeExcludedDims tileInfo).2).getD i 0 =
        inputShare t kernel tileInfo i :=
      getD_shareExtents _ _ i (by simpa [numInputs] using hn)
    rw [List.getD_eq_getElem _ _ hi] at hshare
    rw [hshare, List.getElem_map, List.getElem_range]

theorem inputTiles_eq (t : CatTemplate) (kernel : CatKernel) (tileInfo : List ℕ) :
    t.inputTiles kernel tileInfo = (List.range t.numInputs).map fun i =>
      ((inputNames t).getD i "", inputTileShape t kernel tileInfo i) := by
  rw [inputTiles]
  simp only
  rw [calculateInputTileSizes_eq]
  apply List.ext_getElem
  · simp [numInputs]
  · intro i hi hi'
    have hn : i < t.inputNodes.length := by simpa [numInputs] using hi'
    have hname : (inputNames t).getD i "" = (t.inputNodes.get ⟨i, hn⟩).name := by
      rw [inputNames, List.getD_eq_getElem _ _ (by simpa using hn)]
      simp
    rw [List.getElem_map, List.getElem_range, hname]
    simp [inputTileShape]

/-- The first uses are inputs. -/
theorem firstUses_inputNames (t : CatTemplate) :
    firstUses (inputNames t) = (List.range t.numInputs).filter
      fun i => ∀ j < i, (inputNames t).getD j "" ≠ (inputNames t).getD i "" := by
  rw [firstUses, inputNames, List.length_map, numInputs]

/-- The concatenated axis is one of every tile. -/
theorem inputTileShape_ne_nil (hdim : t.dim < t.rank) (i : ℕ) :
    inputTileShape t kernel tileInfo i ≠ [] := by
  intro hnil
  have hmem : inputShare t kernel tileInfo i ∈ inputTileShape t kernel tileInfo i := by
    rw [inputTileShape, tileShape, List.mem_filterMap]
    exact ⟨t.dim, List.mem_range.2 hdim, if_pos rfl⟩
  rw [hnil] at hmem
  simp at hmem

/-- The tiles fit: the buffers of a lane are no larger than its scratchpad. -/
def FitsSpad (t : CatTemplate) (kernel : CatKernel) (tileInfo : List ℕ) : Prop :=
  t.spadBytesPerLane kernel tileInfo ≤ kernel.spadSize

/-- The elements of the tiles and the places of the idle lanes, over the distinct inputs, are no
more than the scratchpads of all lanes have room for. -/
def LanesSuffice (t : CatTemplate) (kernel : CatKernel) (tileInfo : List ℕ) : Prop :=
  ((firstUses (inputNames t)).map fun i =>
    max ((inputTileShape t kernel tileInfo i).prod +
      idlePlaces kernel.vectorLane (inputTileShape t kernel tileInfo i))
      (2 * kernel.vectorLane)).sum * t.outputNode.dtype.nbytes ≤
    kernel.spadSize * kernel.vectorLane

/-- **When the tiles fit**: the idle lanes have to find room as well. -/
theorem fitsSpad_iff (hdim : t.dim < t.rank) (hlanes : 0 < kernel.vectorLane) :
    FitsSpad t kernel tileInfo ↔ LanesSuffice t kernel tileInfo := by
  have hsum : ((uniqueTileDescs (t.inputTiles kernel tileInfo)).map fun tile =>
      bufferSizePerLane kernel tile.2).sum * kernel.vectorLane =
      ((firstUses (inputNames t)).map fun i =>
        max ((inputTileShape t kernel tileInfo i).prod +
          idlePlaces kernel.vectorLane (inputTileShape t kernel tileInfo i))
          (2 * kernel.vectorLane)).sum := by
    rw [inputTiles_eq, uniqueTileDescs_range, ← firstUses_inputNames, List.map_map,
      ← List.sum_map_mul_right]
    congr 1
    apply List.map_congr_left
    intro i _
    exact bufferSizePerLane_mul kernel hlanes (inputTileShape_ne_nil hdim i)
  rw [FitsSpad, LanesSuffice, spadBytesPerLane, ← hsum, mul_right_comm]
  exact (Nat.mul_le_mul_right_iff hlanes).symm

end Tiles

/-! ## The budget of the candidates -/

section Budget

variable {t : CatTemplate} {kernel : CatKernel} {tileInfo : List ℕ}

theorem mem_product {ls : List (List ℕ)} {combo : List ℕ} :
    combo ∈ product ls ↔ List.Forall₂ (fun n l => n ∈ l) combo ls := by
  induction ls generalizing combo with
  | nil => simp [product]
  | cons l ls ih =>
    simp only [product, List.mem_flatMap, List.mem_map]
    constructor
    · rintro ⟨n, hn, rest, hrest, rfl⟩
      exact List.Forall₂.cons hn (ih.1 hrest)
    · intro h
      cases h with
      | cons hn hrest => exact ⟨_, hn, _, ih.2 hrest, rfl⟩

/-- A candidate of an axis is positive. -/
theorem pos_of_mem_dimTileCandidates {maxTileTotal dimSize n : ℕ} (hlanes : 0 < kernel.vectorLane)
    (hdim : 0 < dimSize) (hn : n ∈ dimTileCandidates kernel maxTileTotal dimSize) : 0 < n := by
  have hmem := List.mem_of_mem_take hn
  rw [List.mem_insertionSort, List.mem_dedup, List.mem_append, List.mem_filter, List.mem_append,
    List.mem_singleton] at hmem
  rcases hmem with ⟨hmult | hpow, -⟩ | rfl
  · obtain ⟨m, hm, rfl⟩ := List.mem_map.1 hmult
    have hm' : 1 ≤ m := by
      rw [List.mem_range'_1] at hm
      exact hm.1
    exact Nat.mul_pos hm' hlanes
  · split at hpow
    · obtain ⟨e, -, rfl⟩ := List.mem_map.1 hpow
      exact Nat.two_pow_pos e
    · simp at hpow
  · exact hdim

/-- What the candidates that are taken to fit have in common. -/
theorem of_mem_fittingTiles (hlanes : 0 < kernel.vectorLane) (hsizes : ∀ n ∈ t.outputSizes, 0 < n)
    (htile : tileInfo ∈ t.fittingTiles kernel) :
    tileInfo.length = t.outputSizes.length ∧ (∀ n ∈ tileInfo, 0 < n) ∧
      tileInfo.prod * (t.numInputs + 1) * t.outputNode.dtype.nbytes ≤
        kernel.spadSize * kernel.vectorLane := by
  rw [fittingTiles, List.mem_filter, decide_eq_true_eq, mem_product] at htile
  obtain ⟨hcombo, hbudget⟩ := htile
  have hlen := hcombo.length_eq
  rw [List.length_map] at hlen
  refine ⟨hlen, fun n hn => ?_, hbudget⟩
  obtain ⟨i, hi, rfl⟩ := List.mem_iff_getElem.1 hn
  have hmem := hcombo.get hi (by simpa [← hlen] using hi)
  simp only [List.get_eq_getElem, List.getElem_map] at hmem
  exact pos_of_mem_dimTileCandidates hlanes (hsizes _ (List.getElem_mem _)) hmem

/-- **The budget is kept**: the tiles of all inputs have no more elements than the scratchpads of
all lanes. -/
theorem sum_tiles_le (hlanes : 0 < kernel.vectorLane) (hbytes : 0 < t.outputNode.dtype.nbytes)
    (hsizes : ∀ n ∈ t.outputSizes, 0 < n) (htile : tileInfo ∈ t.fittingTiles kernel) :
    (computeExcludedDims tileInfo).2.prod *
      (t.calculateInputTileSizes kernel (computeExcludedDims tileInfo).2).sum *
        t.outputNode.dtype.nbytes ≤ kernel.spadSize * kernel.vectorLane := by
  obtain ⟨-, hpos, hbudget⟩ := of_mem_fittingTiles hlanes hsizes htile
  have hle := prod_computeExcludedDims_le hpos
  have hshares := sum_shareExtents_le
    (t.extraConcat kernel (computeExcludedDims tileInfo).2) (t.inputNodes.map t.extent)
  rw [← calculateInputTileSizes, List.length_map, ← numInputs] at hshares
  generalize (t.calculateInputTileSizes kernel (computeExcludedDims tileInfo).2).sum = sum
    at hshares ⊢
  split at hshares
  · next hextra =>
    rw [extraConcat] at hshares hextra
    generalize (computeExcludedDims tileInfo).2.prod = elements at hshares hextra ⊢
    rcases Nat.eq_zero_or_pos elements with rfl | helements
    · simp
    · have hunit : 0 < elements * t.outputNode.dtype.nbytes := Nat.mul_pos helements hbytes
      have hbelow : ¬ kernel.spadSize * kernel.vectorLane / 2 ≤
          sum * (elements * t.outputNode.dtype.nbytes) := by
        rw [← ceilDiv_le_iff hunit]
        omega
      calc elements * sum * t.outputNode.dtype.nbytes
          = sum * (elements * t.outputNode.dtype.nbytes) := by ring
        _ ≤ kernel.spadSize * kernel.vectorLane / 2 := (not_le.1 hbelow).le
        _ ≤ kernel.spadSize * kernel.vectorLane := Nat.div_le_self _ _
  · have hsum : sum ≤ t.numInputs + 1 := by omega
    exact (Nat.mul_le_mul_right _ (Nat.mul_le_mul hle hsum)).trans hbudget

/-- **Full lanes**: where the last axis of every tile is a multiple of the number of lanes, and each
lane has two elements of it, the tiles of a candidate fit. -/
theorem fitsSpad_of_full_lanes (hdim : t.dim < t.rank) (hlanes : 0 < kernel.vectorLane)
    (hbytes : 0 < t.outputNode.dtype.nbytes) (hsizes : ∀ n ∈ t.outputSizes, 0 < n)
    (htile : tileInfo ∈ t.fittingTiles kernel)
    (hfull : ∀ i < t.numInputs,
      kernel.vectorLane ∣ (inputTileShape t kernel tileInfo i).getLastD 0 ∧
        2 * kernel.vectorLane ≤ (inputTileShape t kernel tileInfo i).prod) :
    FitsSpad t kernel tileInfo := by
  obtain ⟨hlen, -, -⟩ := of_mem_fittingTiles hlanes hsizes htile
  have hrank : t.rank = tileInfo.length + 1 := by
    rw [hlen, outputSizes, List.length_eraseIdx_of_lt hdim, rank]
    have : t.outputNode.sizes.length ≠ 0 := by
      rw [rank] at hdim
      omega
    omega
  have hplaces : ∀ i ∈ firstUses (inputNames t),
      max ((inputTileShape t kernel tileInfo i).prod +
        idlePlaces kernel.vectorLane (inputTileShape t kernel tileInfo i))
        (2 * kernel.vectorLane) =
      (computeExcludedDims tileInfo).2.prod * inputShare t kernel tileInfo i := by
    intro i hi
    have hn : i < t.numInputs := by
      simpa [inputNames, numInputs] using List.mem_range.1 (List.mem_of_mem_filter hi)
    obtain ⟨hdvd, htwo⟩ := hfull i hn
    have hidle : idlePlaces kernel.vectorLane (inputTileShape t kernel tileInfo i) = 0 := by
      rw [idlePlaces, idleLanes, Nat.mod_eq_zero_of_dvd hdvd, Nat.sub_zero, Nat.mod_self, mul_zero]
    rw [hidle, Nat.add_zero, max_eq_left htwo, inputTileShape, hrank]
    exact prod_tileShape tileInfo (by omega)
  rw [fitsSpad_iff hdim hlanes, LanesSuffice, List.map_congr_left hplaces, List.sum_map_mul_left]
  refine (Nat.mul_le_mul_right _ (Nat.mul_le_mul_left _ ?_)).trans
    (sum_tiles_le hlanes hbytes hsizes htile)
  rw [calculateInputTileSizes_eq, firstUses_inputNames]
  apply List.Sublist.sum_le_sum
  · exact List.filter_sublist.map _
  · intro n _
    exact Nat.zero_le n

/-- The tile of ones is returned without a test. -/
def ReturnsFallback (t : CatTemplate) (kernel : CatKernel) : Prop :=
  t.outputSizes = [] ∨ t.fittingTiles kernel = []

/-- A tile that is returned was taken to fit, or is the fallback. -/
theorem mem_fittingTiles_of_candidate {tiles : List (List ℕ)}
    (hcand : t.getTileCandidates kernel = .ok tiles) (htile : tileInfo ∈ tiles)
    (hfallback : ¬ ReturnsFallback t kernel) : tileInfo ∈ t.fittingTiles kernel := by
  obtain ⟨hrank, hfitting⟩ := not_or.1 hfallback
  rw [getTileCandidates] at hcand
  split at hcand
  · cases hcand
  · simp only [if_neg hfitting] at hcand
    cases hcand
    exact (List.mem_insertionSort _).1 (List.mem_of_mem_take htile)

/-- The last axis of each tile is a multiple of the number of lanes, and each lane has two elements
of the tile. -/
def FullLanes (t : CatTemplate) (kernel : CatKernel) (tileInfo : List ℕ) : Prop :=
  ∀ i < t.numInputs, kernel.vectorLane ∣ (inputTileShape t kernel tileInfo i).getLastD 0 ∧
    2 * kernel.vectorLane ≤ (inputTileShape t kernel tileInfo i).prod

/-- **When the tiles of a concatenation fit**: the elements of the tiles and the places of the lanes
that their last axis leaves idle have to find room in the scratchpads of all lanes.  For a candidate
whose tiles leave no lane idle they do. -/
theorem catTiles_fit_iff (hdim : t.dim < t.rank) (hlanes : 0 < kernel.vectorLane)
    (hbytes : 0 < t.outputNode.dtype.nbytes) (hsizes : ∀ n ∈ t.outputSizes, 0 < n) :
    (FitsSpad t kernel tileInfo ↔ LanesSuffice t kernel tileInfo) ∧
      ∀ tiles, t.getTileCandidates kernel = .ok tiles → tileInfo ∈ tiles →
        ¬ ReturnsFallback t kernel → FullLanes t kernel tileInfo →
          FitsSpad t kernel tileInfo := by
  refine ⟨fitsSpad_iff hdim hlanes, fun tiles hcand htile hfallback hfull => ?_⟩
  exact fitsSpad_of_full_lanes hdim hlanes hbytes hsizes
    (mem_fittingTiles_of_candidate hcand htile hfallback) hfull

/-- Two matrices of two columns, one under the other. -/
def twoColumns (rows : ℕ) : CatTemplate where
  inputNodes :=
    [⟨"buf0", ⟨"f32", 4⟩, [rows, 2], [2, 1], 0⟩, ⟨"buf1", ⟨"f32", 4⟩, [rows, 2], [2, 1], 0⟩]
  outputNode := ⟨"buf2", ⟨"f32", 4⟩, [2 * rows, 2], [2, 1], 0⟩
  dim := 0

theorem catTiles_fit_iff_twoColumns :
    (FitsSpad (twoColumns 100) ⟨128, 131072⟩ [2] ↔
      LanesSuffice (twoColumns 100) ⟨128, 131072⟩ [2]) ∧
      ∀ tiles, (twoColumns 100).getTileCandidates ⟨128, 131072⟩ = .ok tiles → [2] ∈ tiles →
        ¬ ReturnsFallback (twoColumns 100) ⟨128, 131072⟩ →
          FullLanes (twoColumns 100) ⟨128, 131072⟩ [2] →
            FitsSpad (twoColumns 100) ⟨128, 131072⟩ [2] :=
  catTiles_fit_iff (by decide) (by decide) (by decide) (by decide)

/-- Two matrices of 20000 rows: a lane holds 160000 bytes of their tiles. -/
theorem twoColumns_not_fit :
    ∃ tiles, (twoColumns 20000).getTileCandidates ⟨128, 131072⟩ = .ok tiles ∧ [2] ∈ tiles ∧
      ¬ ReturnsFallback (twoColumns 20000) ⟨128, 131072⟩ ∧
        ¬ FitsSpad (twoColumns 20000) ⟨128, 131072⟩ [2] := by
  refine ⟨[[2], [1]], ?_, ?_, ?_, ?_⟩
  · decide +kernel
  · decide
  · rw [ReturnsFallback]
    decide +kernel
  · rw [FitsSpad]
    decide +kernel

end Budget

end PyTorchSim.Analysis
