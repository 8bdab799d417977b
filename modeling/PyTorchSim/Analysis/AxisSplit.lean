import Mathlib.Tactic.Ring
import PyTorchSim.Analysis.TileLayout
import PyTorchSim.Library.CeilDiv

/-!
# Splitting an axis of a tile

An axis is split into an outer axis and an inner axis next to it.  The layout is kept by the order
in which the new axis comes right after the split one, and the later axes after it.  The source
sorts the axes by that order and stores the sorted axes, which are the inverse of the order: the
axis that has each place, and not the place that each axis has.
-/

set_option autoImplicit false

namespace PyTorchSim.Analysis

open PyTorchSim.Frontend PyTorchSim.Library

variable {T : MLIRMultiDimTile} {order sizes : List ℕ} {axis divisor i j k : ℕ}

/-! ## The axes after the split -/

/-- The axis of the split tile that an old axis becomes; the split one becomes the outer axis. -/
def shiftAxis (axis i : ℕ) : ℕ := if i ≤ axis then i else i + 1

/-- The sizes after the split. -/
def splitSizes (sizes : List ℕ) (axis divisor : ℕ) : List ℕ :=
  (sizes.set axis (entry sizes axis / divisor)).insertIdx (axis + 1) divisor

/-- The places of the axes in the order that keeps the layout. -/
def splitPlaces (order : List ℕ) (axis : ℕ) : List ℕ :=
  (order.map (shiftAxis (entry order axis))).insertIdx (axis + 1) (entry order axis + 1)

theorem shiftAxis_lt_iff : shiftAxis axis i < shiftAxis axis j ↔ i < j := by
  unfold shiftAxis
  split <;> split <;> omega

theorem shiftAxis_injective (axis : ℕ) : Function.Injective (shiftAxis axis) := by
  intro i j heq
  unfold shiftAxis at heq
  split at heq <;> split at heq <;> omega

theorem shiftAxis_ne (axis i : ℕ) : shiftAxis axis i ≠ axis + 1 := by
  unfold shiftAxis
  split <;> omega

/-- The axes of the split tile are the new inner axis and the old axes. -/
theorem range_split {n : ℕ} (haxis : axis < n) :
    Finset.range (n + 1) = insert (axis + 1) ((Finset.range n).image (shiftAxis axis)) := by
  ext k
  simp only [Finset.mem_range, Finset.mem_insert, Finset.mem_image]
  constructor
  · intro hk
    rcases Nat.lt_trichotomy k (axis + 1) with hlt | heq | hgt
    · exact Or.inr ⟨k, by omega, by simp [shiftAxis, Nat.le_of_lt_succ hlt]⟩
    · exact Or.inl heq
    · refine Or.inr ⟨k - 1, by omega, ?_⟩
      unfold shiftAxis
      split <;> omega
  · rintro (rfl | ⟨j, hj, rfl⟩)
    · omega
    · unfold shiftAxis
      split <;> omega

theorem entry_insertIdx_shift {list : List ℕ} {value : ℕ} :
    entry (list.insertIdx (axis + 1) value) (shiftAxis axis i) = entry list i := by
  unfold shiftAxis entry
  simp only [List.getD_eq_getElem?_getD]
  split
  · rw [List.getElem?_insertIdx_of_lt (by omega)]
  · rw [List.getElem?_insertIdx_of_gt (by omega), Nat.add_sub_cancel]

theorem entry_insertIdx_inner {list : List ℕ} {value : ℕ} (haxis : axis < list.length) :
    entry (list.insertIdx (axis + 1) value) (axis + 1) = value := by
  simp only [entry, List.getD_eq_getElem?_getD]
  rw [List.getElem?_insertIdx_self, if_pos (by omega)]
  rfl

/-! ## The order that keeps the layout -/

/-- What a split of an axis should do: the inner axis has the stride of the split axis, the outer
one that stride times the divisor, and the other axes the strides they had. -/
structure KeepsLayout (T T' : MLIRMultiDimTile) (axis divisor : ℕ) : Prop where
  size_eq : T'.tileSize = splitSizes T.tileSize axis divisor
  inner : entry T'.tileStride (axis + 1) = entry T.tileStride axis
  outer : entry T'.tileStride axis = entry T.tileStride axis * divisor
  other : ∀ i < T.tileSize.length, i ≠ axis →
    entry T'.tileStride (shiftAxis axis i) = entry T.tileStride i

/-- The scratchpad offset of the element with coordinates `c`. -/
def elementOffset (T : MLIRMultiDimTile) (c : ℕ → ℕ) : ℕ :=
  ∑ i ∈ Finset.range T.tileSize.length, c i * entry T.tileStride i

/-- The coordinates of an element after the split. -/
def splitCoordinate (axis divisor : ℕ) (c : ℕ → ℕ) (i : ℕ) : ℕ :=
  if i < axis then c i
  else if i = axis then c axis / divisor
  else if i = axis + 1 then c axis % divisor
  else c (i - 1)

theorem splitCoordinate_shift {c : ℕ → ℕ} (hne : i ≠ axis) :
    splitCoordinate axis divisor c (shiftAxis axis i) = c i := by
  unfold splitCoordinate shiftAxis
  split
  · rw [if_pos (by omega)]
  · rw [if_neg (by omega), if_neg (by omega), if_neg (by omega), Nat.add_sub_cancel]

theorem length_splitSizes (haxis : axis < sizes.length) :
    (splitSizes sizes axis divisor).length = sizes.length + 1 := by
  rw [splitSizes, List.length_insertIdx_of_le_length (by rw [List.length_set]; omega),
    List.length_set]

/-- Where the strides are kept, every element stays at its place. -/
theorem KeepsLayout.elementOffset_eq {T' : MLIRMultiDimTile} (h : KeepsLayout T T' axis divisor)
    (haxis : axis < T.tileSize.length) (c : ℕ → ℕ) :
    elementOffset T' (splitCoordinate axis divisor c) = elementOffset T c := by
  have hmem : axis ∈ Finset.range T.tileSize.length := Finset.mem_range.2 haxis
  have hinner : splitCoordinate axis divisor c (axis + 1) = c axis % divisor := by
    simp [splitCoordinate]
  have houter : splitCoordinate axis divisor c axis = c axis / divisor := by
    simp [splitCoordinate]
  have hself : shiftAxis axis axis = axis := if_pos (Nat.le_refl axis)
  have hrest : ∑ i ∈ (Finset.range T.tileSize.length).erase axis,
      splitCoordinate axis divisor c (shiftAxis axis i) * entry T'.tileStride (shiftAxis axis i) =
      ∑ i ∈ (Finset.range T.tileSize.length).erase axis, c i * entry T.tileStride i := by
    apply Finset.sum_congr rfl
    intro i hi
    have hne : i ≠ axis := Finset.ne_of_mem_erase hi
    rw [splitCoordinate_shift hne,
      h.other i (Finset.mem_range.1 (Finset.mem_of_mem_erase hi)) hne]
  unfold elementOffset
  rw [h.size_eq, length_splitSizes haxis, range_split haxis, Finset.sum_insert,
    Finset.sum_image (shiftAxis_injective axis).injOn, ← Finset.add_sum_erase _ _ hmem, hrest,
    ← Finset.add_sum_erase _ (fun i => c i * entry T.tileStride i) hmem, hself, hinner, houter,
    h.inner, h.outer, ← Nat.add_assoc]
  · congr 1
    calc c axis % divisor * entry T.tileStride axis +
          c axis / divisor * (entry T.tileStride axis * divisor)
        = (c axis % divisor + divisor * (c axis / divisor)) * entry T.tileStride axis := by ring
      _ = c axis * entry T.tileStride axis := by rw [Nat.mod_add_div]
  · simp [shiftAxis_ne]

section Places

variable (hperm : order.Perm (List.range sizes.length)) (haxis : axis < sizes.length)
include hperm haxis

theorem splitPlaces_perm : (splitPlaces order axis).Perm (List.range (sizes.length + 1)) := by
  have hlen : order.length = sizes.length := by simpa using hperm.length_eq
  have hplace : entry order axis < sizes.length := by
    have hmem : entry order axis ∈ order := by
      rw [entry_eq_getElem (by omega)]
      exact List.getElem_mem _
    simpa using (hperm.mem_iff.1 hmem)
  apply (List.perm_insertIdx _ _ (by rw [List.length_map]; omega)).trans
  rw [List.perm_ext_iff_of_nodup]
  · intro place
    simp only [List.mem_cons, List.mem_map, hperm.mem_iff, List.mem_range]
    rw [← Finset.mem_range, range_split hplace]
    simp
  · rw [List.nodup_cons]
    constructor
    · simp [shiftAxis_ne]
    · exact (hperm.nodup_iff.2 List.nodup_range).map (shiftAxis_injective _)
  · exact List.nodup_range

theorem splitPlaces_nodup : (splitPlaces order axis).Nodup :=
  (splitPlaces_perm hperm haxis).nodup_iff.2 List.nodup_range

theorem length_splitPlaces : (splitPlaces order axis).length = sizes.length + 1 := by
  simpa using (splitPlaces_perm hperm haxis).length_eq

omit haxis in
theorem entry_splitPlaces_shift (hi : i < sizes.length) :
    entry (splitPlaces order axis) (shiftAxis axis i) = shiftAxis (entry order axis)
      (entry order i) := by
  have hlen : order.length = sizes.length := by simpa using hperm.length_eq
  rw [splitPlaces, entry_insertIdx_shift, entry_map (by omega)]

theorem entry_splitPlaces_inner :
    entry (splitPlaces order axis) (axis + 1) = entry order axis + 1 := by
  have hlen : order.length = sizes.length := by simpa using hperm.length_eq
  rw [splitPlaces, entry_insertIdx_inner (by rw [List.length_map]; omega)]

theorem splitOrder_splitPlaces :
    SplitOrder (Finset.range sizes.length) (shiftAxis axis) axis (axis + 1) (entry order)
      (entry (splitPlaces order axis)) := by
  refine ⟨?_, ?_, ?_⟩
  · intro i hi j hj
    rw [entry_splitPlaces_shift hperm (Finset.mem_range.1 hi),
      entry_splitPlaces_shift hperm (Finset.mem_range.1 hj), shiftAxis_lt_iff]
  · intro i hi
    rw [entry_splitPlaces_shift hperm (Finset.mem_range.1 hi), entry_splitPlaces_inner hperm haxis]
    unfold shiftAxis
    split <;> omega
  · intro j hj
    rw [entry_splitPlaces_shift hperm (Finset.mem_range.1 hj), entry_splitPlaces_inner hperm haxis]
    unfold shiftAxis
    split <;> omega

end Places

theorem entry_set_self {value : ℕ} (haxis : axis < sizes.length) :
    entry (sizes.set axis value) axis = value := by
  rw [entry_eq_getElem (by rw [List.length_set]; exact haxis), List.getElem_set_self]

theorem entry_set_ne {value : ℕ} (hne : i ≠ axis) :
    entry (sizes.set axis value) i = entry sizes i := by
  simp only [entry, List.getD_eq_getElem?_getD]
  rw [List.getElem?_set_ne (Ne.symm hne)]

theorem splitSize_splitSizes (haxis : axis < sizes.length) (hdvd : divisor ∣ entry sizes axis) :
    SplitSize (Finset.range sizes.length) (shiftAxis axis) axis (axis + 1) (entry sizes)
      (entry (splitSizes sizes axis divisor)) := by
  refine ⟨?_, ?_⟩
  · intro i _ hne
    rw [splitSizes, entry_insertIdx_shift, entry_set_ne hne]
  · have hself : shiftAxis axis axis = axis := if_pos (Nat.le_refl axis)
    rw [splitSizes, entry_insertIdx_inner (by rw [List.length_set]; exact haxis),
      entry_insertIdx_shift, entry_set_self haxis, Nat.div_mul_cancel hdvd]

/-- The strides after the split keep the layout exactly when they are those of the places. -/
theorem keepsLayout_iff {T' : MLIRMultiDimTile} (hlaid : LaidOut T)
    (haxis : axis < T.tileSize.length) (hdvd : divisor ∣ entry T.tileSize axis)
    (hsize : T'.tileSize = splitSizes T.tileSize axis divisor) :
    KeepsLayout T T' axis divisor ↔
      ∀ i ∈ Finset.range (T.tileSize.length + 1), entry T'.tileStride i =
        strideIn (Finset.range (T.tileSize.length + 1)) (entry (splitPlaces T.tileAxisOrder axis))
          (entry T'.tileSize) i := by
  have hperm := hlaid.order_perm
  have hlen : T.tileAxisOrder.length = T.tileSize.length := by simpa using hperm.length_eq
  have hnodup : T.tileAxisOrder.Nodup := hperm.nodup_iff.2 List.nodup_range
  have hold : ∀ i < T.tileSize.length, entry T.tileStride i =
      strideIn (Finset.range T.tileSize.length) (entry T.tileAxisOrder) (entry T.tileSize) i := by
    intro i hi
    rw [hlaid.stride_eq, entry_tileStrides hnodup hlen hi]
  have hshift := (shiftAxis_injective axis).injOn (s := (Finset.range T.tileSize.length : Set ℕ))
  have hb : axis + 1 ∉ (Finset.range T.tileSize.length).image (shiftAxis axis) := by
    simp [shiftAxis_ne]
  have ha : axis ∈ Finset.range T.tileSize.length := Finset.mem_range.2 haxis
  have hord := splitOrder_splitPlaces hperm haxis
  have hsz := splitSize_splitSizes haxis hdvd
  have hself : shiftAxis axis axis = axis := if_pos (Nat.le_refl axis)
  have hdiv : entry (splitSizes T.tileSize axis divisor) (axis + 1) = divisor := by
    rw [splitSizes, entry_insertIdx_inner (by rw [List.length_set]; exact haxis)]
  have hinner := strideIn_split_inner hshift hb hord hsz
  have houter := strideIn_split_outer hshift hb ha hord hsz
  rw [hself, hdiv] at houter
  rw [hsize, range_split haxis]
  constructor
  · intro hkeep i hi
    rcases Finset.mem_insert.1 hi with rfl | hi
    · rw [hkeep.inner, hinner, hold axis haxis]
    · obtain ⟨j, hj, rfl⟩ := Finset.mem_image.1 hi
      by_cases hne : j = axis
      · rw [hne, hself, hkeep.outer, houter, hold axis haxis]
      · rw [hkeep.other j (Finset.mem_range.1 hj) hne, hold j (Finset.mem_range.1 hj),
          strideIn_split_other hshift hb ha hord hsz (entry_injOn hnodup hlen) hj hne]
  · intro hall
    refine ⟨hsize, ?_, ?_, ?_⟩
    · rw [hall _ (Finset.mem_insert_self _ _), hinner, hold axis haxis]
    · have hmem : axis ∈ (Finset.range T.tileSize.length).image (shiftAxis axis) :=
        Finset.mem_image.2 ⟨axis, ha, hself⟩
      rw [hall _ (Finset.mem_insert_of_mem hmem), houter, hold axis haxis]
    · intro i hi hne
      have hmem := Finset.mem_image_of_mem (shiftAxis axis) (Finset.mem_range.2 hi)
      rw [hall _ (Finset.mem_insert_of_mem hmem), hold i hi,
        strideIn_split_other hshift hb ha hord hsz (entry_injOn hnodup hlen)
          (Finset.mem_range.2 hi) hne]

/-! ## The order that the source stores -/

/-- The places in tenths as places. -/
def tenthPlace (old tenths : ℕ) : ℕ := if tenths ≤ 10 * old then tenths / 10 else tenths / 10 + 1

theorem tenthPlace_mono {old x y : ℕ} (h : x ≤ y) : tenthPlace old x ≤ tenthPlace old y := by
  have hdiv : x / 10 ≤ y / 10 := Nat.div_le_div_right h
  unfold tenthPlace
  split <;> split <;> omega

/-- The places in tenths that the source sorts. -/
def splitTenths (order : List ℕ) (axis : ℕ) : List ℕ :=
  (order.map (10 * ·)).insertIdx (axis + 1) (10 * entry order axis + 1)

/-- The places that the source sorts are those that keep the layout. -/
theorem map_tenthPlace (order : List ℕ) (axis : ℕ) :
    (splitTenths order axis).map (tenthPlace (entry order axis)) = splitPlaces order axis := by
  have hinner :
    tenthPlace (entry order axis) (10 * entry order axis + 1) = entry order axis + 1 := by
    unfold tenthPlace
    rw [if_neg (by omega)]
    omega
  have hold : ∀ o, tenthPlace (entry order axis) (10 * o) = shiftAxis (entry order axis) o := by
    intro o
    unfold tenthPlace shiftAxis
    split <;> split <;> omega
  rw [splitTenths, List.map_insertIdx, hinner, List.map_map, splitPlaces]
  congr 1
  apply List.map_congr_left
  intro o _
  exact hold o

section Stored

variable (hperm : order.Perm (List.range sizes.length)) (haxis : axis < sizes.length)
include hperm haxis

/-- The axis stored at a place has that place. -/
theorem splitPlaces_splitAxisOrder :
    (MLIRMultiDimTile.splitAxisOrder order axis).map (entry (splitPlaces order axis)) =
      List.range (sizes.length + 1) := by
  set tenths := splitTenths order axis with htenths
  set pairs := ((List.range tenths.length).zip tenths).insertionSort (fun a b => a.2 ≤ b.2)
    with hpairs
  have hplaces : tenths.map (tenthPlace (entry order axis)) = splitPlaces order axis :=
    map_tenthPlace order axis
  have hpairsPerm : pairs.Perm ((List.range tenths.length).zip tenths) :=
    List.perm_insertionSort _ _
  -- each stored axis has the place of its tenths
  have hentry : (MLIRMultiDimTile.splitAxisOrder order axis).map (entry (splitPlaces order axis)) =
      (pairs.map Prod.snd).map (tenthPlace (entry order axis)) := by
    change (pairs.map Prod.fst).map _ = _
    rw [List.map_map, List.map_map]
    apply List.map_congr_left
    intro pair hpair
    obtain ⟨k, hk, rfl⟩ := List.mem_iff_getElem.1 (hpairsPerm.mem_iff.1 hpair)
    have hlt : k < tenths.length := by simpa using hk
    rw [← hplaces, Function.comp_apply, Function.comp_apply, List.getElem_zip,
      List.getElem_range, entry_map hlt, entry_eq_getElem hlt]
  rw [hentry]
  apply List.Perm.eq_of_pairwise (fun a b _ _ hab hba => Nat.le_antisymm hab hba)
  · rw [List.map_map, List.pairwise_map]
    have hsorted : pairs.Pairwise fun a b => a.2 ≤ b.2 := by
      apply List.pairwise_insertionSort
    exact hsorted.imp fun h => tenthPlace_mono h
  · exact List.pairwise_le_range
  · have hsnd : (pairs.map Prod.snd).Perm tenths := by
      have hzip := hpairsPerm.map Prod.snd
      rwa [List.map_snd_zip (by simp)] at hzip
    exact (hsnd.map _).trans (hplaces ▸ splitPlaces_perm hperm haxis)

theorem splitAxisOrder_perm :
    (MLIRMultiDimTile.splitAxisOrder order axis).Perm (List.range (sizes.length + 1)) := by
  have hlen : order.length = sizes.length := by simpa using hperm.length_eq
  have hlenTenths : (splitTenths order axis).length = sizes.length + 1 := by
    rw [splitTenths, List.length_insertIdx_of_le_length (by rw [List.length_map]; omega),
      List.length_map, hlen]
  have hsort := (List.perm_insertionSort (fun a b : ℕ × ℕ => a.2 ≤ b.2)
    ((List.range (splitTenths order axis).length).zip (splitTenths order axis))).map Prod.fst
  rw [List.map_fst_zip (by simp)] at hsort
  rw [← hlenTenths]
  exact hsort

theorem splitPlaces_le (hk : k ≤ sizes.length) :
    entry (splitPlaces order axis) k ≤ sizes.length := by
  have hlen := length_splitPlaces hperm haxis
  rw [entry_eq_getElem (by omega)]
  exact Nat.le_of_lt_succ
    (List.mem_range.1 ((splitPlaces_perm hperm haxis).mem_iff.1 (List.getElem_mem _)))

theorem splitAxisOrder_le (hk : k ≤ sizes.length) :
    entry (MLIRMultiDimTile.splitAxisOrder order axis) k ≤ sizes.length := by
  have hlen := (splitAxisOrder_perm hperm haxis).length_eq
  rw [List.length_range] at hlen
  rw [entry_eq_getElem (by omega)]
  exact Nat.le_of_lt_succ
    (List.mem_range.1 ((splitAxisOrder_perm hperm haxis).mem_iff.1 (List.getElem_mem _)))

/-- The stored order is the inverse of the order that keeps the layout. -/
theorem entry_splitPlaces_splitAxisOrder (hk : k ≤ sizes.length) :
    entry (splitPlaces order axis) (entry (MLIRMultiDimTile.splitAxisOrder order axis) k) = k := by
  have hlen := (splitAxisOrder_perm hperm haxis).length_eq
  rw [List.length_range] at hlen
  rw [← entry_map (f := entry (splitPlaces order axis)) (by omega),
    splitPlaces_splitAxisOrder hperm haxis, entry_eq_getElem (by rw [List.length_range]; omega),
    List.getElem_range]

theorem entry_splitAxisOrder_splitPlaces (hk : k ≤ sizes.length) :
    entry (MLIRMultiDimTile.splitAxisOrder order axis) (entry (splitPlaces order axis) k) = k := by
  have hlen := length_splitPlaces hperm haxis
  have hplace := splitPlaces_le hperm haxis hk
  have hstored := splitAxisOrder_le hperm haxis hplace
  apply entry_inj (splitPlaces_nodup hperm haxis) (by omega) (by omega)
  exact entry_splitPlaces_splitAxisOrder hperm haxis hplace

end Stored

/-! ## When a split keeps the layout -/

section Split

variable (hlaid : LaidOut T) (hpos : ∀ size ∈ T.tileSize, 0 < size)
  (haxis : axis < T.tileSize.length) (hdiv : 1 < divisor)
  (hdvd : divisor ∣ entry T.tileSize axis)

theorem ceilDiv_eq_div (hdiv : 1 < divisor) (hdvd : divisor ∣ i) : i ⌈/⌉ divisor = i / divisor := by
  obtain ⟨q, rfl⟩ := hdvd
  have hpos : 0 < divisor := Nat.zero_lt_of_lt hdiv
  rw [Nat.mul_comm divisor q, mul_ceilDiv_self hpos, Nat.mul_div_cancel q hpos]

include hdiv hdvd in
/-- The sizes and the strides after the split. -/
theorem applyDivisor_split :
    (T.applyDivisor axis divisor .split).tileSize = splitSizes T.tileSize axis divisor ∧
    (T.applyDivisor axis divisor .split).tileStride =
      tileStrides (MLIRMultiDimTile.splitAxisOrder T.tileAxisOrder axis)
        (splitSizes T.tileSize axis divisor) := by
  unfold MLIRMultiDimTile.applyDivisor splitSizes
  rw [if_neg (Nat.not_le.2 hdiv)]
  simp only [← ceilDiv_eq_div hdiv hdvd]
  split <;> exact ⟨rfl, rfl⟩

include haxis hpos hdiv hdvd in
theorem splitSizes_pos {size : ℕ} (hsize : size ∈ splitSizes T.tileSize axis divisor) :
    0 < size := by
  have hold : entry T.tileSize axis ∈ T.tileSize := by
    rw [entry_eq_getElem haxis]
    exact List.getElem_mem _
  rw [splitSizes, List.mem_insertIdx (by rw [List.length_set]; exact haxis)] at hsize
  rcases hsize with rfl | hsize
  · exact Nat.zero_lt_of_lt hdiv
  · rcases List.mem_or_eq_of_mem_set hsize with hmem | rfl
    · exact hpos size hmem
    · exact Nat.div_pos (Nat.le_of_dvd (hpos _ hold) hdvd) (Nat.zero_lt_of_lt hdiv)

include hlaid hpos haxis hdiv hdvd in
/-- Splitting an axis keeps the layout, and with it the scratchpad offset of every element, exactly
when the order after the split and its inverse agree on each pair of axes of which the second has
more than one element. -/
theorem applyDivisor_split_iff :
    (KeepsLayout T (T.applyDivisor axis divisor .split) axis divisor ∧
      ∀ c, elementOffset (T.applyDivisor axis divisor .split) (splitCoordinate axis divisor c) =
        elementOffset T c) ↔
    ∀ k ≤ T.tileSize.length, ∀ l ≤ T.tileSize.length,
      1 < entry (splitSizes T.tileSize axis divisor) (entry (splitPlaces T.tileAxisOrder axis) l) →
      (entry (splitPlaces T.tileAxisOrder axis) (entry (splitPlaces T.tileAxisOrder axis) k) <
        entry (splitPlaces T.tileAxisOrder axis) (entry (splitPlaces T.tileAxisOrder axis) l) ↔
        k < l) := by
  obtain ⟨hsize, hstride⟩ := applyDivisor_split hdiv hdvd
  have hperm := hlaid.order_perm
  have hlenSize : (splitSizes T.tileSize axis divisor).length = T.tileSize.length + 1 :=
    length_splitSizes haxis
  have hstored := splitAxisOrder_perm hperm haxis
  have hnodup : (MLIRMultiDimTile.splitAxisOrder T.tileAxisOrder axis).Nodup :=
    hstored.nodup_iff.2 List.nodup_range
  have hlenStored : (MLIRMultiDimTile.splitAxisOrder T.tileAxisOrder axis).length =
      (splitSizes T.tileSize axis divisor).length := by
    rw [hlenSize, hstored.length_eq, List.length_range]
  have hposEntry : ∀ i ∈ Finset.range (splitSizes T.tileSize axis divisor).length,
      0 < entry (splitSizes T.tileSize axis divisor) i := by
    intro i hi
    rw [entry_eq_getElem (Finset.mem_range.1 hi)]
    exact splitSizes_pos hpos haxis hdiv hdvd (List.getElem_mem _)
  have hkeep : KeepsLayout T (T.applyDivisor axis divisor .split) axis divisor ↔
      ∀ i ∈ Finset.range (splitSizes T.tileSize axis divisor).length,
        ∀ j ∈ Finset.range (splitSizes T.tileSize axis divisor).length,
          1 < entry (splitSizes T.tileSize axis divisor) j →
          (entry (MLIRMultiDimTile.splitAxisOrder T.tileAxisOrder axis) i <
            entry (MLIRMultiDimTile.splitAxisOrder T.tileAxisOrder axis) j ↔
            entry (splitPlaces T.tileAxisOrder axis) i <
              entry (splitPlaces T.tileAxisOrder axis) j) := by
    rw [keepsLayout_iff hlaid haxis hdvd hsize,
      ← strideIn_eq_iff hposEntry, hstride, hsize, ← hlenSize]
    apply forall₂_congr
    intro i hi
    rw [entry_tileStrides hnodup hlenStored (Finset.mem_range.1 hi)]
  simp only [hlenSize, Finset.mem_range, Nat.lt_succ_iff] at hkeep
  constructor
  · rintro ⟨hlayout, -⟩ k hk l hl hmany
    have hagree := hkeep.1 hlayout _ (splitPlaces_le hperm haxis hk) _
      (splitPlaces_le hperm haxis hl) hmany
    rw [entry_splitAxisOrder_splitPlaces hperm haxis hk,
      entry_splitAxisOrder_splitPlaces hperm haxis hl] at hagree
    exact hagree.symm
  · intro hcond
    have hlayout : KeepsLayout T (T.applyDivisor axis divisor .split) axis divisor := by
      apply hkeep.2
      intro i hi j hj hmany
      have hagree := hcond _ (splitAxisOrder_le hperm haxis hi) _ (splitAxisOrder_le hperm haxis hj)
      rw [entry_splitPlaces_splitAxisOrder hperm haxis hi,
        entry_splitPlaces_splitAxisOrder hperm haxis hj] at hagree
      exact (hagree hmany).symm
    exact ⟨hlayout, hlayout.elementOffset_eq haxis⟩

/-- A tile in the order of its axes, whose rows are split. -/
theorem applyDivisor_split_iff_rows :
    KeepsLayout (MLIRMultiDimTile.make [8, 4] 4 1 1 none)
        ((MLIRMultiDimTile.make [8, 4] 4 1 1 none).applyDivisor 0 2 .split) 0 2 ∧
      ∀ c, elementOffset ((MLIRMultiDimTile.make [8, 4] 4 1 1 none).applyDivisor 0 2 .split)
          (splitCoordinate 0 2 c) = elementOffset (MLIRMultiDimTile.make [8, 4] 4 1 1 none) c :=
  (applyDivisor_split_iff ⟨by decide, rfl⟩ (by decide) (by decide) (by decide) (by decide)).2
    (by decide)

/-- A tile whose second axis lies outside the first, as a reduction loads it: the rows are split by
two, and the strides become those of another layout. -/
theorem applyDivisor_split_columns_first :
    ¬ KeepsLayout ((MLIRMultiDimTile.make [8, 4] 4 1 1 none).setTileSize [8, 4] (some [1, 0]))
      (((MLIRMultiDimTile.make [8, 4] 4 1 1 none).setTileSize [8, 4]
        (some [1, 0])).applyDivisor 0 2 .split) 0 2 := by
  intro h
  have hinner := h.inner
  revert hinner
  decide

end Split

end PyTorchSim.Analysis
