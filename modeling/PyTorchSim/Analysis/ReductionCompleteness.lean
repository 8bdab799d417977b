import PyTorchSim.Analysis.ReductionRows
import PyTorchSim.Analysis.ReductionSlots
import PyTorchSim.Frontend.TileRecompile

/-!
# Complete reductions

A reduction combines in each slot of a lane's result the elements at the places of the slot, and is
complete when they are those of the slot's row.  Where the lanes divide a reduced axis some are in
other lanes; where the reduced axis is the innermost one they are in other slots.
-/

set_option autoImplicit false

namespace PyTorchSim.Analysis

open PyTorchSim.Frontend PyTorchSim.Library

variable {T L O : MLIRMultiDimTile} {n d pad p lane slot axis : ℕ} {place : ℕ → ℕ → ℕ → ℕ → ℕ}

/-- Each slot of each lane's result has the elements of its row, of each round of the reduction
loops, each once. -/
def ReductionComplete (place : ℕ → ℕ → ℕ → ℕ → ℕ) (T : MLIRMultiDimTile) (loop : LoopLevel)
    (L O : MLIRMultiDimTile) (ranges : List ℕ) (d : ℕ) : Prop :=
  ∀ (M : Type) [CommMonoid M] (value : List ℕ → (Fin ranges.length → ℕ) → M),
    ∀ lane < O.getUsedVlane, ∀ slot < O.getNumelPerLane, ∃ result,
      reduction T loop (reductionLoops ranges T d)
        (fun indices p => value indices (loadedAt place L ranges.length lane p)) = .ok result ∧
      result[slot]? = some ((loopPoints (reductionLoops ranges T d)).map fun indices =>
        ∏ c ∈ rowElements place T O ranges.length d lane slot, value indices c).prod

/-- The lanes divide an axis of the output, or only one lane is used; and the loaded tile, which has
the axis that is reduced innermost where the kernel has four dimensions, has one row or one element
a row. -/
def RowsKept (T O : MLIRMultiDimTile) (d : ℕ) : Prop :=
  (T.vmap.vlaneSplitAxis < d ∨ T.getUsedVlane = 1 ∧ O.getUsedVlane = 1) ∧
    (d = 3 → reductionSize T = 1 ∨ entry T.tileSize 3 = 1)

/-! ## Missing elements -/

/-- An element of a row that no place of the slot has is missing in the result. -/
theorem not_reductionComplete {loop : LoopLevel} {ranges : List ℕ} {c : Fin ranges.length → ℕ}
    (hrdim : T.nrRdim ≠ 0) (hred : 0 < T.getReductionNumel) (hsize : 0 < reductionSize T)
    (hloop : loop = ⟨0, T.getNumelPerLane, T.getComputeVecSize⟩)
    (hpoints : loopPoints (reductionLoops ranges T d) ≠ [])
    (hlane : lane < O.getUsedVlane) (hnumel : 0 < O.getNumelPerLane)
    (hc : c ∈ rowElements place T O ranges.length d lane 0)
    (hmissing : ∀ p < T.getNumelPerLane, p % reductionSize T = 0 →
      loadedAt place L ranges.length lane p ≠ c) :
    ¬ ReductionComplete place T loop L O ranges d := by
  intro hcomplete
  obtain ⟨result, hresult, hentry⟩ :=
    hcomplete ℕ (fun _ c' => if c' = c then 0 else 1) lane hlane 0 hnumel
  obtain ⟨result', hresult', hslots⟩ := reduction_slot (reductionLoops ranges T d)
    (fun _ p => if loadedAt place L ranges.length lane p = c then (0 : ℕ) else 1) hrdim hred hsize
  rw [hloop] at hresult
  rw [hresult, Except.ok.injEq] at hresult'
  subst hresult'
  have hone : slotProduct T.getNumelPerLane (reductionSize T) 0
      (fun p => if loadedAt place L ranges.length lane p = c then (0 : ℕ) else 1) = 1 := by
    apply Finset.prod_eq_one
    intro p hp
    rw [Finset.mem_filter, Finset.mem_range] at hp
    exact if_neg (hmissing p hp.1 hp.2)
  have hzero : ∏ c' ∈ rowElements place T O ranges.length d lane 0,
      (if c' = c then (0 : ℕ) else 1) = 0 := Finset.prod_eq_zero hc (if_pos rfl)
  have hboth := (hslots 0 hsize).symm.trans hentry
  rw [hone, hzero, List.map_const', List.map_const', List.prod_replicate, List.prod_replicate,
    one_pow,
    zero_pow (by simpa using hpoints), Option.some.injEq] at hboth
  exact one_ne_zero hboth

section Missing

variable (hplace : DmaPlacement place) (hT : SoundTile T) (hlen : T.tileSize.length = n)
  (hL : ExtendedTile T L pad)
include hplace hT hlen hL

/-- The elements of a row that have, along a reduced split axis, the first coordinate of another
lane are missing. -/
theorem exists_missing_divided {other : ℕ} (hsplit : d ≤ T.vmap.vlaneSplitAxis) (hne : lane ≠ other)
    (hlane : lane < T.vmap.vectorLane) (hother : other < T.vmap.vectorLane)
    (hfirst : other * T.vmap.vlaneStride < splitSize T) :
    ∃ c ∈ rowElements place T O n d lane slot, ∀ p, loadedAt place L n lane p ≠ c := by
  have haxis : T.vmap.vlaneSplitAxis < n := hlen ▸ hT.axis_lt
  refine ⟨fun i => if i.val < d then coordinate place O lane slot i
    else if i.val = T.vmap.vlaneSplitAxis then other * T.vmap.vlaneStride else 0, ?_, ?_⟩
  · rw [rowElements, Fintype.mem_piFinset]
    intro i
    by_cases hi : i.val < d
    · rw [if_pos hi, if_pos hi, Finset.mem_singleton]
    · rw [if_neg hi, if_neg hi, Finset.mem_range]
      split
      · rename_i heq
        rw [heq]
        exact hfirst
      · rw [entry_eq_getElem (by omega)]
        exact hT.size_pos _ (List.getElem_mem _)
  · intro p heq
    have hcoord := congrFun heq ⟨T.vmap.vlaneSplitAxis, haxis⟩
    rw [loadedAt_apply hlen hL, coordinate, if_pos hL.axis_eq.symm, hL.lane_eq,
      hL.stride_eq] at hcoord
    simp only [if_neg (Nat.not_lt.2 hsplit), if_true] at hcoord
    have hzero := hplace.one_round T.vmap.vectorLane T.vmap.vlaneStride other 0 hT.stride_pos
    rw [Nat.add_zero] at hzero
    rw [← hzero] at hcoord
    exact hne (hplace.injective _ _ _ _ _ _ hT.stride_pos hlane hother hcoord).1

/-- With the reduced axis innermost the second element of the first row is in the slot of another
row. -/
theorem exists_missing_inner (hn : n = 4) (hpad : pad = 0) (horder : L.tileAxisOrder = [0, 1, 2, 3])
    (hO : StoredTile T O 3)
    (hkept : T.vmap.vlaneSplitAxis < 3 ∨ T.getUsedVlane = 1 ∧ O.getUsedVlane = 1)
    (hlane : 0 < O.getUsedVlane) (hmany : 1 < rowCount T 3) (hinner : 1 < entry T.tileSize 3) :
    ∃ c ∈ rowElements place T O n 3 0 0, ∀ p < T.getNumelPerLane, p % rowCount T 3 = 0 →
      loadedAt place L n 0 p ≠ c := by
  subst hn hpad
  have hd : 3 ≤ T.tileSize.length := by omega
  have hLlen : L.tileSize.length = 4 := by
    rw [hL.length_eq, hlen]
  refine ⟨fun i => if i.val < 3 then coordinate place O 0 0 i else 1, ?_, ?_⟩
  · rw [rowElements, Fintype.mem_piFinset]
    intro i
    by_cases hi : i.val < 3
    · rw [if_pos hi, if_pos hi, Finset.mem_singleton]
    · have hthree : i.val = 3 := by omega
      rw [if_neg hi, if_neg hi, Finset.mem_range, hthree]
      exact hinner
  · intro p hp hslot heq
    -- the digits are those of the second element
    have hrow : ∀ i < 3, laneDigit L p i = 0 := by
      intro i hi
      have hdigit : laneDigit O 0 i = 0 := by
        unfold laneDigit digitIn
        rw [Nat.zero_div, Nat.zero_mod]
      have hcoord := congrFun heq ⟨i, by omega⟩
      rw [loadedAt_apply hlen hL, Nat.add_zero] at hcoord
      simp only [if_pos hi] at hcoord
      rcases hkept with hsplit | ⟨hused, hone⟩
      · have haxis : i = L.vmap.vlaneSplitAxis ↔ i = O.vmap.vlaneSplitAxis := by
          rw [hL.axis_eq, hO.axis_eq, if_pos hsplit, Nat.add_zero]
        unfold coordinate at hcoord
        by_cases hi' : i = L.vmap.vlaneSplitAxis
        · rw [if_pos hi', if_pos (haxis.1 hi'), hdigit, hL.lane_eq, hL.stride_eq, hO.lane_eq,
            hO.stride_eq] at hcoord
          exact (hplace.injective _ _ _ _ _ _ hT.stride_pos hT.lane_pos hT.lane_pos hcoord).2
        · rw [if_neg hi', if_neg (fun h => hi' (haxis.2 h)), hdigit] at hcoord
          exact hcoord
      · rw [coordinate_one_lane hplace (hL.sound hT) (hL.getUsedVlane_eq.trans hused) (by omega),
          coordinate_one_lane hplace (hO.sound hT (by omega) hd) hone
            (by rw [hO.length_eq hd]; exact hi), hdigit] at hcoord
        exact hcoord
    have hreduced : laneDigit L p 3 = 1 := by
      have hcoord := congrFun heq ⟨3, by omega⟩
      rw [loadedAt_apply hlen hL, Nat.add_zero] at hcoord
      simp only [if_neg (lt_irrefl 3)] at hcoord
      rw [← hcoord]
      exact (coordinate_reduced hplace hT hlen hL hkept hlane le_rfl (by omega)).symm
    have hstride :
      strideIn (Finset.range 4) (entry L.tileAxisOrder) (entry L.getTileSizePerLane) 3 = 1 := by
      rw [horder]
      rfl
    have hplaceEq : p = 1 := by
      have hp' : p < ∏ i ∈ Finset.range L.tileSize.length, entry L.getTileSizePerLane i := by
        rw [← getNumelPerLane_eq, hL.getNumelPerLane_eq]
        exact hp
      have hoffset := offsetIn_digitIn hL.order_injOn hp'
      rw [hLlen] at hoffset
      unfold laneDigit at hrow hreduced
      rw [hLlen] at hrow hreduced
      rw [← hoffset, offsetIn, Finset.sum_range_succ, hreduced, hstride,
        Finset.sum_eq_zero fun i hi => by rw [hrow i (Finset.mem_range.1 hi), Nat.zero_mul]]
    rw [hplaceEq, Nat.mod_eq_of_lt hmany] at hslot
    exact one_ne_zero hslot

end Missing

/-! ## When reductions are complete -/

/-- The axes of the output lie inside where the rows are kept. -/
theorem RowsKept.rowsInnermost (h : RowsKept T O d) (hT : SoundTile T)
    (hlen : T.tileSize.length = n)
    (hd : d < n) (hrdim : T.nrRdim = n - d) (hL : ExtendedTile T L pad)
    (hcases : d < 3 ∧ RowsInside L.tileAxisOrder d pad ∨
      d = 3 ∧ n = 4 ∧ pad = 0 ∧ L.tileAxisOrder = [0, 1, 2, 3]) : RowsInnermost T L d pad := by
  rcases hcases with ⟨-, hinside⟩ | ⟨rfl, rfl, rfl, horder⟩
  · exact hinside.rowsInnermost hL
  · have htogether : RowsTogether T 3 := h.1.imp_right And.left
    refine ⟨?_, ?_⟩
    · rw [horder]
      decide
    · intro i hi hmany j hj hout _
      rw [hL.length_eq, hlen] at hj
      have hthree : j = 3 + 0 := by omega
      rw [hthree, hL.entry_perLane, entry_perLane_reduced hT htogether le_rfl]
      rcases h.2 rfl with hone | hone
      · rw [reductionSize_eq hT (by omega) (by rw [hlen, hrdim]) htogether] at hone
        have hfactor := Finset.prod_eq_one_iff.1 hone i (Finset.mem_range.2 hi)
        omega
      · exact hone

theorem loopPoints_ne_nil {levels : List LoopLevel} (h : ∀ level ∈ levels, level.indices ≠ []) :
    loopPoints levels ≠ [] := by
  induction levels with
  | nil => simp [loopPoints]
  | cons level levels ih =>
    obtain ⟨i, hi⟩ := List.exists_mem_of_ne_nil _ (h level List.mem_cons_self)
    have hinner := ih fun level' hlevel' => h level' (List.mem_cons_of_mem _ hlevel')
    obtain ⟨indices, hindices⟩ := List.exists_mem_of_ne_nil _ hinner
    apply List.ne_nil_of_mem (a := i :: indices)
    rw [loopPoints, List.mem_flatMap]
    exact ⟨i, hi, List.mem_map_of_mem hindices⟩

/-- The loops over the reduced dimensions have rounds. -/
theorem reductionLoops_points {ranges : List ℕ} (hranges : ∀ size ∈ ranges, 0 < size)
    (hT : SoundTile T) :
    loopPoints (reductionLoops ranges T d) ≠ [] := by
  apply loopPoints_ne_nil
  intro level hlevel
  obtain ⟨⟨size, step⟩, hpair, rfl⟩ := List.mem_map.1 hlevel
  obtain ⟨hsize, hstep⟩ := List.of_mem_zip (List.mem_of_mem_drop hpair)
  have hcount : 0 < (size - 0) ⌈/⌉ step := ceilDiv_pos (hT.size_pos step hstep) (hranges size hsize)
  intro hnil
  unfold LoopLevel.indices at hnil
  rw [List.range'_eq_nil_iff] at hnil
  exact hcount.ne' hnil

/-- The compute loop is that of the prepared tile. -/
theorem prepareComputeLoop_loop {vlen : ℕ} {bufferTypes : List Dtype} {T' : MLIRMultiDimTile}
    {loop : LoopLevel} (h : prepareComputeLoop vlen bufferTypes T = .ok (T', loop)) :
    loop = ⟨0, T'.getNumelPerLane, T'.getComputeVecSize⟩ := by
  unfold prepareComputeLoop at h
  simp only at h
  split at h
  · cases h
  · cases h
    rfl

theorem getReductionNumel_pos (hT : SoundTile T) : 0 < T.getReductionNumel := by
  unfold MLIRMultiDimTile.getReductionNumel
  apply List.prod_pos
  split
  · exact hT.size_pos
  · intro size hsize
    exact hT.size_pos size (List.mem_of_mem_drop hsize)

/-- The output's tile is sound, also where all dimensions are reduced. -/
theorem sound_storeTile (hT : SoundTile T) (hd : d ≤ 3) (hlen : d ≤ T.tileSize.length)
    (hstore : storeTile T n d = .ok O) : SoundTile O ∧ O.vmap.vectorLane = T.vmap.vectorLane := by
  rcases Nat.eq_zero_or_pos d with rfl | hpos
  · obtain ⟨hsize, haxis, hlanes, hstride⟩ := storeTile_zero n hstore
    refine ⟨⟨?_, ?_, ?_, ?_⟩, hlanes⟩
    · simp [hsize]
    · simp [hsize, haxis]
    · rw [hlanes]
      exact hT.lane_pos
    · rw [hstride]
      exact Nat.one_pos
  · have hO := storedTile_of_storeTile hpos hd hlen hstore
    exact ⟨hO.sound hT hpos hlen, hO.lane_eq⟩

/-- A lane of the output has the rows of a lane. -/
theorem getNumelPerLane_storeTile (hT : SoundTile T) (hd : d ≤ 3) (hlen : d ≤ T.tileSize.length)
    (hstore : storeTile T n d = .ok O)
    (hkept : T.vmap.vlaneSplitAxis < d ∨ T.getUsedVlane = 1 ∧ O.getUsedVlane = 1) :
    O.getNumelPerLane = rowCount T d := by
  rcases Nat.eq_zero_or_pos d with rfl | hpos
  · obtain ⟨hsize, -, -, -⟩ := storeTile_zero n hstore
    have hone := getTileSizePerLane_one_lane (sound_storeTile hT hd hlen hstore).1
      (hkept.resolve_left (Nat.not_lt_zero _)).2
    change O.getTileSizePerLane.prod = _
    rw [hone, hsize]
    rfl
  · exact (storedTile_of_storeTile hpos hd hlen hstore).getNumelPerLane_eq hT hpos hlen hkept

/-- A kernel that reduces its dimensions behind the first `d`, and the tiles of its loads and of its
store. -/
structure ReductionKernel (T L O : MLIRMultiDimTile) (ranges : List ℕ) (d : ℕ) : Prop where
  sound : SoundTile T
  length_eq : T.tileSize.length = ranges.length
  ranges_pos : ∀ size ∈ ranges, 0 < size
  depth_lt : d < ranges.length
  depth_le : ranges.length ≤ d + 2
  nrRdim_eq : T.nrRdim = ranges.length - d
  load_eq : loadTile T ranges.length d = .ok L
  store_eq : storeTile T ranges.length d = .ok O
  size_pos : 0 < reductionSize T

namespace ReductionKernel

variable {ranges : List ℕ} {loop : LoopLevel} (h : ReductionKernel T L O ranges d)
include h

theorem axis_lt : T.vmap.vlaneSplitAxis < ranges.length := h.length_eq ▸ h.sound.axis_lt

theorem nrRdim_ne_zero : T.nrRdim ≠ 0 := by
  have heq := h.nrRdim_eq
  have hlt := h.depth_lt
  omega

theorem depth_le_length : d ≤ T.tileSize.length := by
  rw [h.length_eq]
  exact h.depth_lt.le

/-- Loads of more than four dimensions are not implemented. -/
theorem depth_le_three : d ≤ 3 := by
  by_contra hnot
  have hlt := h.depth_lt
  have hload := h.load_eq
  rw [loadTile_many h.length_eq h.axis_lt (by omega)] at hload
  cases hload

theorem sound_store : SoundTile O ∧ O.vmap.vectorLane = T.vmap.vectorLane :=
  sound_storeTile h.sound h.depth_le_three h.depth_le_length h.store_eq

theorem storedTile (hpos : 0 < d) : StoredTile T O d :=
  storedTile_of_storeTile hpos h.depth_le_three h.depth_le_length h.store_eq

theorem reductionSize_eq (htogether : RowsTogether T d) : reductionSize T = rowCount T d :=
  PyTorchSim.Analysis.reductionSize_eq h.sound (by rw [h.length_eq]; exact h.depth_lt)
    (by rw [h.nrRdim_eq, h.length_eq]) htogether

/-- Where the rows are kept, each slot has those of its row. -/
theorem complete (hplace : DmaPlacement place) (hkept : RowsKept T O d)
    (hloop : loop = ⟨0, T.getNumelPerLane, T.getComputeVecSize⟩) :
    ReductionComplete place T loop L O ranges d := by
  intro M _ value lane hlane slot hslot
  obtain ⟨pad, hL, hcases⟩ :=
    loadTile_cases h.length_eq h.axis_lt h.depth_lt h.depth_le h.load_eq
  have hrows := hkept.rowsInnermost h.sound h.length_eq h.depth_lt h.nrRdim_eq hL hcases
  have hcount := h.reductionSize_eq (hkept.1.imp_right And.left)
  rw [getNumelPerLane_storeTile h.sound h.depth_le_three h.depth_le_length h.store_eq hkept.1] at hslot
  obtain ⟨result, hresult, hslots⟩ := reduction_slot (reductionLoops ranges T d)
    (fun indices p => value indices (loadedAt place L ranges.length lane p)) h.nrRdim_ne_zero
    (getReductionNumel_pos h.sound) h.size_pos
  refine ⟨result, ?_, ?_⟩
  · rw [hloop]
    exact hresult
  · rw [hslots slot (by rw [hcount]; exact hslot), hcount]
    congr 2
    apply List.map_congr_left
    intro indices _
    exact slotProduct_rows hplace h.sound h.length_eq h.depth_lt hL h.storedTile hkept.1 hlane hrows
      hslot (value indices)

/-- Where the rows are not kept, an element is missing in the first slot of a lane. -/
theorem exists_missing (hplace : DmaPlacement place) (hnot : ¬ RowsKept T O d) :
    ∃ lane < O.getUsedVlane, ∃ c ∈ rowElements place T O ranges.length d lane 0,
      ∀ p < T.getNumelPerLane, p % reductionSize T = 0 →
        loadedAt place L ranges.length lane p ≠ c := by
  obtain ⟨pad, hL, hcases⟩ :=
    loadTile_cases h.length_eq h.axis_lt h.depth_lt h.depth_le h.load_eq
  obtain ⟨hO, hlanes⟩ := h.sound_store
  by_cases hkept : T.vmap.vlaneSplitAxis < d ∨ T.getUsedVlane = 1 ∧ O.getUsedVlane = 1
  · -- the reduced axis lies inside the rows
    have hfour : d = 3 ∧ ¬ (reductionSize T = 1 ∨ entry T.tileSize 3 = 1) := by
      unfold RowsKept at hnot
      rw [not_and, Classical.not_imp] at hnot
      exact hnot hkept
    obtain ⟨rfl, hmany⟩ := hfour
    rw [not_or] at hmany
    rcases hcases with ⟨hlt, -⟩ | ⟨-, hn, hpad, horder⟩
    · exact absurd hlt (lt_irrefl 3)
    have hcount := h.reductionSize_eq (hkept.imp_right And.left)
    have hsize := h.size_pos
    rw [hcount] at hmany hsize ⊢
    have hinner : 0 < entry T.tileSize 3 := by
      have hlt := h.depth_lt
      rw [← h.length_eq] at hlt
      rw [entry_eq_getElem hlt]
      exact h.sound.size_pos _ (List.getElem_mem hlt)
    obtain ⟨c, hc, hmissing⟩ := exists_missing_inner hplace h.sound h.length_eq hL hn hpad horder
      (h.storedTile (by omega)) hkept hO.getUsedVlane_pos (by omega) (by omega)
    exact ⟨0, hO.getUsedVlane_pos, c, hc, hmissing⟩
  · -- the lanes divide a reduced axis of the load, or an axis of the output only
    rw [not_or, not_and] at hkept
    obtain ⟨hnotlt, hused⟩ := hkept
    have hlanesO := getUsedVlane_le O
    have hlanesT := getUsedVlane_le T
    have hposO := hO.getUsedVlane_pos
    have hposT := h.sound.getUsedVlane_pos
    have hmissing : ∀ lane other, lane ≠ other → lane < O.getUsedVlane → other < T.vmap.vectorLane →
        other * T.vmap.vlaneStride < splitSize T →
        ∃ c ∈ rowElements place T O ranges.length d lane 0,
          ∀ p, loadedAt place L ranges.length lane p ≠ c := by
      intro lane other hne hlane hother hfirst
      exact exists_missing_divided hplace h.sound h.length_eq hL (Nat.le_of_not_lt hnotlt) hne
        (by omega) hother hfirst
    by_cases hone : T.getUsedVlane = 1
    · have hmany := hused hone
      obtain ⟨c, hc, hnone⟩ := hmissing 1 0 Nat.one_ne_zero (by omega) (by omega)
        (by rw [Nat.zero_mul]; exact h.sound.splitSize_pos)
      exact ⟨1, by omega, c, hc, fun p _ _ => hnone p⟩
    · have hfirst : 1 * T.vmap.vlaneStride < splitSize T := by
        by_contra hle
        have hround : splitSize T ⌈/⌉ T.vmap.vlaneStride ≤ 1 := by
          rw [ceilDiv_le_iff_le_mul h.sound.stride_pos]
          omega
        have hmin : T.getUsedVlane ≤ splitSize T ⌈/⌉ T.vmap.vlaneStride := Nat.min_le_left _ _
        omega
      obtain ⟨c, hc, hnone⟩ := hmissing 0 1 Nat.zero_ne_one hposO (by omega) hfirst
      exact ⟨0, hposO, c, hc, fun p _ _ => hnone p⟩

theorem not_complete (hplace : DmaPlacement place)
    (hloop : loop = ⟨0, T.getNumelPerLane, T.getComputeVecSize⟩) (hnot : ¬ RowsKept T O d) :
    ¬ ReductionComplete place T loop L O ranges d := by
  obtain ⟨lane, hlane, c, hc, hmissing⟩ := h.exists_missing hplace hnot
  exact not_reductionComplete h.nrRdim_ne_zero (getReductionNumel_pos h.sound) h.size_pos hloop
    (reductionLoops_points h.ranges_pos h.sound) hlane h.sound_store.1.getNumelPerLane_pos hc hmissing

end ReductionKernel

/-- A reduction of one or two dimensions is complete exactly when the lanes divide an axis of the
output, or only one is used, and, with four dimensions, there is one row in a lane or one element of
a row in the tile. -/
theorem reduction_complete_iff {vlen : ℕ} {bufferTypes : List Dtype} {T' : MLIRMultiDimTile}
    {loop : LoopLevel} {ranges : List ℕ} (hplace : DmaPlacement place)
    (hprepare : prepareComputeLoop vlen bufferTypes T = .ok (T', loop))
    (hkernel : ReductionKernel T' L O ranges d) :
    ReductionComplete place T' loop L O ranges d ↔ RowsKept T' O d := by
  have hloop := prepareComputeLoop_loop hprepare
  constructor
  · intro hcomplete
    by_contra hnot
    exact hkernel.not_complete hplace hloop hnot hcomplete
  · intro hkept
    exact hkernel.complete hplace hkept hloop

/-- The tile of a kernel that sums the rows of a matrix, on two lanes. -/
def rowSumTile (sizes : List ℕ) (vlaneSplitAxis : ℕ) (forcedVecSize : Option ℕ) :
    MLIRMultiDimTile :=
  { MLIRMultiDimTile.make sizes 2 vlaneSplitAxis 2 forcedVecSize with nrRdim := 1 }

/-- A matrix of sixteen rows that is divided along its rows. -/
theorem reduction_complete_rows :
    ReductionComplete dealStrides (rowSumTile [4, 4] 0 (some 8)) ⟨0, 8, 8⟩
      (localTile (rowSumTile [4, 4] 0 (some 8)) [4, 4] (some [1, 0]) 0)
      (localTile (rowSumTile [4, 4] 0 (some 8)) [4] none 0) [16, 8] 1 := by
  have hprepare : prepareComputeLoop 256 [.float32] (rowSumTile [4, 4] 0 none) =
      .ok (rowSumTile [4, 4] 0 (some 8), ⟨0, 8, 8⟩) := by decide
  apply (reduction_complete_iff dmaPlacement_dealStrides hprepare ?_).2
  · exact ⟨Or.inl (by decide), by decide⟩
  · exact ⟨⟨by decide, by decide, by decide, by decide⟩, rfl, by decide, by decide, by decide, rfl,
      by decide,
      by decide, by decide⟩

/-- The same kernel with a second operand whose index has the row divided by eight: the tile gets
sixteen rows, and the lanes divide the columns. -/
theorem reduction_incomplete_floorDiv :
    ∃ first second loop loop' signals T L O,
      prepareComputeLoop 256 [.float32] (rowSumTile [4, 4] 0 none) = .ok (first, loop) ∧
      compileNodes [] [16, 8] [.floorDiv 0 8] maxRetryCompile first = .ok ⟨signals, some second⟩ ∧
      prepareComputeLoop 256 [.float32] second = .ok (T, loop') ∧
      loadTile T 2 1 = .ok L ∧ storeTile T 2 1 = .ok O ∧ DmaPlacement dealStrides ∧
      ¬ ReductionComplete dealStrides T loop' L O [16, 8] 1 := by
  let first := rowSumTile [4, 4] 0 (some 8)
  let second :=
    { rowSumTile [16, 4] 1 (some 8) with
      tileConstraint := [{ multipleOf := 2, fixed := true }, {}] }
  have hkernel : ReductionKernel second (localTile second [16, 4] (some [1, 0]) 1)
      (localTile second [16] none 0) [16, 8] 1 :=
    ⟨⟨by decide, by decide, by decide, by decide⟩, rfl, by decide, by decide, by decide, rfl, by decide,
      by decide, by decide⟩
  have hnot : ¬ RowsKept second (localTile second [16] none 0) 1 := by
    intro hkept
    exact absurd hkept.1 (by decide)
  have hprepare : prepareComputeLoop 256 [.float32] second = .ok (second, ⟨0, 32, 8⟩) := by decide
  exact ⟨first, second, ⟨0, 8, 8⟩, ⟨0, 32, 8⟩, [⟨.divisor, second⟩], second, _, _, by decide,
    by decide +kernel, hprepare, hkernel.load_eq, hkernel.store_eq, dmaPlacement_dealStrides,
    hkernel.not_complete dmaPlacement_dealStrides (prepareComputeLoop_loop hprepare) hnot⟩

end PyTorchSim.Analysis
