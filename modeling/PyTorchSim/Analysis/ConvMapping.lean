import PyTorchSim.Frontend.TileMapping

/-!
# Convolution mappings

A search collects every tile that fits and keeps a maximum beside the list, by which it decides
whether to return the list.  The maximum is raised by the first fitting tile that the side condition
accepts, so the list is lost where the side condition accepts none.
-/

set_option autoImplicit false

namespace PyTorchSim.Analysis

open PyTorchSim.Frontend

variable {hw : SpadHardware} {p : ConvProblem} {m n k : ℕ}

/-! ## The search -/

section Search

variable {σ : Type} {use : ConvTile → SpadUse} {accepts : σ → ConvTile → Bool}
    {record : ConvTile → σ}
  {init : σ} {space : List ConvTile}

/-- The tiles of the search space that fit. -/
def fitting (hw : SpadHardware) (use : ConvTile → SpadUse) (space : List ConvTile) :
    List ConvTile :=
  space.filter fun t => checkSpadSize hw (use t)

theorem mem_fitting {t : ConvTile} :
    t ∈ fitting hw use space ↔ t ∈ space ∧ checkSpadSize hw (use t) = true :=
  List.mem_filter

theorem searchStep_candidates (s : SearchState σ) (t : ConvTile) :
    (searchStep hw use accepts record s t).candidates =
      s.candidates ++ (fitting hw use [t]).map fun t => ((use t).total, t) := by
  unfold searchStep fitting
  by_cases hfits : checkSpadSize hw (use t) = true
  · have hone : [t].filter (fun t => checkSpadSize hw (use t)) = [t] := by simp [hfits]
    rw [if_pos hfits, hone]
    simp only
    split <;> rfl
  · have hnone : [t].filter (fun t => checkSpadSize hw (use t)) = [] := by simp [hfits]
    rw [if_neg hfits, hnone]
    exact (List.append_nil _).symm

/-- The candidates are the tiles that fit, in the order of the loops. -/
theorem foldl_searchStep_candidates (hw : SpadHardware) (use : ConvTile → SpadUse)
    (accepts : σ → ConvTile → Bool) (record : ConvTile → σ) (s : SearchState σ)
    (space : List ConvTile) :
    (space.foldl (searchStep hw use accepts record) s).candidates =
      s.candidates ++ (fitting hw use space).map fun t => ((use t).total, t) := by
  induction space generalizing s with
  | nil => exact (List.append_nil _).symm
  | cons t space ih =>
    rw [List.foldl_cons, ih, searchStep_candidates, List.append_assoc, ← List.map_append]
    congr 2
    exact (List.filter_append [t] space).symm

theorem searchStep_maxUsed_pos {s : SearchState σ} (hpos : 0 < s.maxUsed) (t : ConvTile) :
    0 < (searchStep hw use accepts record s t).maxUsed := by
  unfold searchStep
  split
  · simp only
    split
    · rename_i hlt
      rw [Bool.and_eq_true, decide_eq_true_eq] at hlt
      exact Nat.lt_trans hpos hlt.1
    · exact hpos
  · exact hpos

theorem foldl_maxUsed_pos (hw : SpadHardware) (use : ConvTile → SpadUse)
    (accepts : σ → ConvTile → Bool) (record : ConvTile → σ) {s : SearchState σ}
    (hpos : 0 < s.maxUsed)
    (space : List ConvTile) :
    0 < (space.foldl (searchStep hw use accepts record) s).maxUsed := by
  induction space generalizing s with
  | nil => exact hpos
  | cons t space ih => exact ih (searchStep_maxUsed_pos hpos t)

/-- As long as nothing was accepted, a tile raises the maximum where the side condition accepts it.
-/
theorem searchStep_of_zero (hw : SpadHardware) (accepts : σ → ConvTile → Bool)
    (record : ConvTile → σ) {s : SearchState σ} (hzero : s.maxUsed = 0) (hbest : s.best = init)
    {t : ConvTile} (hpos : 0 < (use t).total) :
    if checkSpadSize hw (use t) = true ∧ accepts init t = true then
      0 < (searchStep hw use accepts record s t).maxUsed
    else (searchStep hw use accepts record s t).maxUsed = 0 ∧
      (searchStep hw use accepts record s t).best = init := by
  unfold searchStep
  rw [hzero, hbest]
  by_cases hfits : checkSpadSize hw (use t) = true
  · rw [if_pos hfits]
    by_cases haccepts : accepts init t = true
    · simp [hfits, haccepts, hpos]
    · simp [haccepts]
  · simp [hfits, hzero, hbest]

/-- The maximum stays zero exactly where no tile that fits is accepted at the start. -/
theorem foldl_maxUsed_eq_zero (hw : SpadHardware) (accepts : σ → ConvTile → Bool)
    (record : ConvTile → σ) {s : SearchState σ} (hzero : s.maxUsed = 0) (hbest : s.best = init)
    (hpos : ∀ t ∈ space, 0 < (use t).total) :
    (space.foldl (searchStep hw use accepts record) s).maxUsed = 0 ↔
      ∀ t ∈ fitting hw use space, accepts init t = false := by
  induction space generalizing s with
  | nil => simp [hzero, fitting]
  | cons t space ih =>
    have hstep := searchStep_of_zero hw accepts record hzero hbest (hpos t List.mem_cons_self)
    rw [List.foldl_cons]
    split at hstep
    · rename_i haccepted
      have hraised := foldl_maxUsed_pos hw use accepts record hstep space
      constructor
      · intro h
        omega
      · intro h
        have hfalse := h t (mem_fitting.2 ⟨List.mem_cons_self, haccepted.1⟩)
        rw [haccepted.2] at hfalse
        cases hfalse
    · rename_i hnot
      rw [ih hstep.1 hstep.2 fun other hother => hpos other (List.mem_cons_of_mem t hother)]
      constructor
      · intro h other hother
        rw [mem_fitting] at hother
        rcases List.mem_cons.1 hother.1 with rfl | hmem
        · by_contra haccepts
          exact hnot ⟨hother.2, by simpa using haccepts⟩
        · exact h other (mem_fitting.2 ⟨hmem, hother.2⟩)
      · intro h other hother
        rw [mem_fitting] at hother
        exact h other (mem_fitting.2 ⟨List.mem_cons_of_mem t hother.1, hother.2⟩)

/-! ## Complete searches -/

/-- The result is the list of exactly the tiles that fit, by decreasing use, and an error only where
there is none. -/
def MappingComplete (hw : SpadHardware) (use : ConvTile → SpadUse) (space : List ConvTile)
    (result : Except String (List ConvTile)) : Prop :=
  match result with
  | .ok tiles => tiles ≠ [] ∧ tiles.Perm (fitting hw use space) ∧
      tiles.Pairwise fun t t' => (use t').total ≤ (use t).total
  | .error message => message = "Cannot find a valid mapping" ∧ fitting hw use space = []

/-- The candidates are sorted by the use of their tiles. -/
theorem sortByUse_map (use : ConvTile → SpadUse) (tiles : List ConvTile) :
    sortByUse (tiles.map fun t => ((use t).total, t)) =
      tiles.insertionSort fun t t' => (use t').total ≤ (use t).total := by
  unfold sortByUse
  rw [← List.map_insertionSort (fun t t' : ConvTile => (use t').total ≤ (use t).total),
    List.map_map]
  · exact List.map_id _
  · intro t _ t' _
    rfl

/-- A search is complete exactly where nothing fits or a tile that fits is accepted at the start. -/
theorem convSearch_complete_iff (hw : SpadHardware) (accepts : σ → ConvTile → Bool)
    (record : ConvTile → σ) (init : σ) (hpos : ∀ t ∈ space, 0 < (use t).total) :
    MappingComplete hw use space (convSearch hw use accepts record init space) ↔
      fitting hw use space = [] ∨ ∃ t ∈ fitting hw use space, accepts init t = true := by
  have hcandidates := foldl_searchStep_candidates hw use accepts record ⟨0, init, []⟩ space
  have hmax := foldl_maxUsed_eq_zero hw accepts record
    (show (⟨0, init, []⟩ : SearchState σ).maxUsed = 0 from rfl) rfl hpos
  unfold convSearch
  simp only
  by_cases hzero : (space.foldl (searchStep hw use accepts record) ⟨0, init, []⟩).maxUsed = 0
  · rw [if_pos hzero]
    have hnone := hmax.1 hzero
    constructor
    · exact fun h => Or.inl h.2
    · rintro (hempty | ⟨t, ht, haccepts⟩)
      · exact ⟨rfl, hempty⟩
      · rw [hnone t ht] at haccepts
        cases haccepts
  · rw [if_neg hzero, hcandidates, List.nil_append]
    have hsome : ∃ t ∈ fitting hw use space, accepts init t = true := by
      by_contra hnot
      apply hzero
      rw [hmax]
      intro t ht
      by_contra haccepts
      exact hnot ⟨t, ht, by simpa using haccepts⟩
    apply iff_of_true _ (Or.inr hsome)
    rw [sortByUse_map]
    have hperm := List.perm_insertionSort (fun t t' : ConvTile => (use t').total ≤ (use t).total)
      (fitting hw use space)
    obtain ⟨t, ht, _⟩ := hsome
    refine ⟨?_, hperm, ?_⟩
    · intro hnil
      have hmem := hperm.mem_iff.2 ht
      rw [hnil] at hmem
      cases hmem
    · have htotal : Std.Total fun t t' : ConvTile => (use t').total ≤ (use t).total :=
        ⟨fun t t' => Nat.le_total _ _⟩
      have htrans : IsTrans ConvTile fun t t' : ConvTile => (use t').total ≤ (use t).total :=
        ⟨fun _ _ _ h h' => Nat.le_trans h' h⟩
      exact List.pairwise_insertionSort _ _

/-- A search whose side condition accepts every tile at the start is complete. -/
theorem convSearch_complete (hpos : ∀ t ∈ space, 0 < (use t).total)
    (haccepts : ∀ t ∈ space, accepts init t = true) :
    MappingComplete hw use space (convSearch hw use accepts record init space) := by
  rw [convSearch_complete_iff hw accepts record init hpos]
  rcases List.eq_nil_or_concat (fitting hw use space) with hnil | ⟨tiles, t, hlast⟩
  · exact Or.inl hnil
  · have ht : t ∈ fitting hw use space := by
      rw [hlast, List.concat_eq_append]
      exact List.mem_append_right _ (List.mem_singleton_self t)
    exact Or.inr ⟨t, ht, haccepts t (mem_fitting.1 ht).1⟩

end Search

/-! ## The sizes of the candidates -/

theorem pos_of_mem_divisors {d n : ℕ} (h : d ∈ divisors n) : 0 < d := by
  unfold divisors at h
  have hmem := (List.mem_filter.1 h).1
  rw [List.mem_range'_1] at hmem
  omega

theorem padTo_pos {size factor : ℕ} (hsize : 0 < size) (hfactor : 0 < factor) :
    0 < padTo size factor := by
  apply Nat.mul_pos _ hfactor
  apply Nat.div_pos _ hfactor
  omega

theorem padFactor_pos {size small : ℕ} (hsmall : 0 < small) : 0 < padFactor hw size small := by
  unfold padFactor
  split
  · exact hw.lane_pos
  · exact hsmall

theorem pos_of_mem_tileRange {size padded d : ℕ} (hpadded : 0 < padded)
    (h : d ∈ tileRange hw size padded) : 0 < d := by
  unfold tileRange at h
  split at h
  · obtain ⟨i, hi, rfl⟩ := List.mem_map.1 h
    exact Nat.mul_pos (pos_of_mem_divisors hi) hw.lane_pos
  · rw [List.mem_singleton] at h
    rw [h]
    exact hpadded

/-- The tiles of a matrix multiplication are not empty. -/
theorem gemmCombinationMapping_pos {M N K nExtraNode precisionBytes : ℕ} (hN : 0 < N)
    (hmem : (m, n, k) ∈ gemmCombinationMapping hw M N K nExtraNode precisionBytes) :
    0 < n ∧ 0 < k := by
  unfold gemmCombinationMapping sortByUse at hmem
  rw [List.mem_map] at hmem
  obtain ⟨candidate, hcandidate, htile⟩ := hmem
  rw [List.mem_insertionSort, List.mem_flatMap] at hcandidate
  obtain ⟨tileK, hK, hcandidate⟩ := hcandidate
  rw [List.mem_flatMap] at hcandidate
  obtain ⟨tileM, _, hcandidate⟩ := hcandidate
  rw [List.mem_filterMap] at hcandidate
  obtain ⟨tileN, hN', hcandidate⟩ := hcandidate
  have hK8 : 0 < max K 8 := Nat.lt_of_lt_of_le (by decide) (Nat.le_max_right K 8)
  have hnpos := pos_of_mem_tileRange (padTo_pos hN (padFactor_pos (by decide))) hN'
  have hkpos := pos_of_mem_tileRange (padTo_pos hK8 (padFactor_pos (by decide))) hK
  simp only [Option.ite_none_right_eq_some, Option.some.injEq] at hcandidate
  rw [← hcandidate.2] at htile
  cases htile
  exact ⟨hnpos, hkpos⟩

/-! ## The three mappings -/

theorem combinationSpace_pos (hn : 0 < n) (hk : 0 < k) :
    ∀ t ∈ combinationSpace p m n k, 0 < (combinationUse hw p t).total := by
  intro t ht
  simp only [combinationSpace, List.mem_flatMap, List.mem_map] at ht
  obtain ⟨oH, _, oW, _, kH, hkH, kW, hkW, rfl⟩ := ht
  have hweight : 0 < kW * kH * k * n :=
    Nat.mul_pos
      (Nat.mul_pos (Nat.mul_pos (pos_of_mem_divisors hkW) (pos_of_mem_divisors hkH)) hk) hn
  apply Nat.mul_pos _ p.precision_pos
  simp only
  omega

theorem combinationSpace_accepts :
    ∀ t ∈ combinationSpace p m n k,
      (decide (1 ≤ t.kH * t.kW) && decide (1 ≤ t.oH * t.oW)) = true := by
  intro t ht
  simp only [combinationSpace, List.mem_flatMap, List.mem_map] at ht
  obtain ⟨oH, hoH, oW, hoW, kH, hkH, kW, hkW, rfl⟩ := ht
  have hkernel := Nat.mul_pos (pos_of_mem_divisors hkH) (pos_of_mem_divisors hkW)
  have houtput := Nat.mul_pos (pos_of_mem_divisors hoH) (pos_of_mem_divisors hoW)
  rw [Bool.and_eq_true, decide_eq_true_eq, decide_eq_true_eq]
  exact ⟨hkernel, houtput⟩

theorem multiTileSpace_pos (hn : 0 < n) (hk : 0 < k) :
    ∀ t ∈ multiTileSpace p m n k, 0 < (multiTileUse hw p t).total := by
  intro t ht
  simp only [multiTileSpace, List.mem_flatMap, List.mem_map] at ht
  obtain ⟨oH, _, oW, _, kH, hkH, rfl⟩ := ht
  have hweight : 0 < 1 * kH * k * n :=
    Nat.mul_pos (Nat.mul_pos (Nat.mul_pos Nat.one_pos (pos_of_mem_divisors hkH)) hk) hn
  apply Nat.mul_pos _ p.precision_pos
  simp only
  omega

theorem singleBatchSpace_pos (hn : 0 < n) (hk : 0 < k) :
    ∀ t ∈ singleBatchSpace p m n k, 0 < (singleBatchUse hw p t).total := by
  intro t ht
  simp only [singleBatchSpace, List.mem_flatMap, List.mem_map] at ht
  obtain ⟨oH, _, kH, hkH, kW, hkW, rfl⟩ := ht
  have hweight : 0 < kW * kH * k * n :=
    Nat.mul_pos
      (Nat.mul_pos (Nat.mul_pos (pos_of_mem_divisors hkW) (pos_of_mem_divisors hkH)) hk) hn
  apply Nat.mul_pos _ p.precision_pos
  simp only
  omega

theorem singleBatchSpace_accepts :
    ∀ t ∈ singleBatchSpace p m n k, decide (1 ≤ t.kH * t.kW) = true := by
  intro t ht
  simp only [singleBatchSpace, List.mem_flatMap, List.mem_map] at ht
  obtain ⟨oH, _, kH, hkH, kW, hkW, rfl⟩ := ht
  rw [decide_eq_true_eq]
  exact Nat.mul_pos (pos_of_mem_divisors hkH) (pos_of_mem_divisors hkW)

/-- The mapping of `conv_combination_mapping` is complete. -/
theorem convCombinationMapping_complete {rest : List (ℕ × ℕ × ℕ)}
    (hgemm : gemmCombinationMapping hw p.M p.N p.K p.nExtraNode p.precisionBytes = (m, n, k) :: rest) :
    MappingComplete hw (combinationUse hw p) (combinationSpace p m n (min k hw.vectorLane))
      (convCombinationMapping hw p) := by
  have hmem : (m, n, k) ∈ gemmCombinationMapping hw p.M p.N p.K p.nExtraNode p.precisionBytes := by
    rw [hgemm]
    exact List.mem_cons_self
  obtain ⟨hn, hk⟩ := gemmCombinationMapping_pos p.n_pos hmem
  have hk' : 0 < min k hw.vectorLane := Nat.lt_min.2 ⟨hk, hw.lane_pos⟩
  unfold convCombinationMapping
  rw [hgemm]
  exact convSearch_complete (combinationSpace_pos hn hk') combinationSpace_accepts

/-- The mapping of `conv_single_batch_mapping` is complete. -/
theorem convSingleBatchMapping_complete {rest : List (ℕ × ℕ × ℕ)}
    (hgemm : gemmCombinationMapping hw p.outputW p.N p.K p.nExtraNode p.precisionBytes =
      (m, n, k) :: rest) :
    MappingComplete hw (singleBatchUse hw p) (singleBatchSpace p m n k)
      (convSingleBatchMapping hw p) := by
  have hmem : (m, n, k) ∈
      gemmCombinationMapping hw p.outputW p.N p.K p.nExtraNode p.precisionBytes := by
    rw [hgemm]
    exact List.mem_cons_self
  obtain ⟨hn, hk⟩ := gemmCombinationMapping_pos p.n_pos hmem
  unfold convSingleBatchMapping
  rw [hgemm]
  exact convSearch_complete (singleBatchSpace_pos hn hk) singleBatchSpace_accepts

/-- The mapping of `conv_multi_tile_mapping` is complete exactly where nothing fits or a tile that
fits is at least as high as the kernel is wide. -/
theorem convMultiTileMapping_complete_iff {rest : List (ℕ × ℕ × ℕ)}
    (hgemm : gemmCombinationMapping hw p.M p.N (p.K * p.kernelW) p.nExtraNode p.precisionBytes =
      (m, n, k) :: rest) :
    MappingComplete hw (multiTileUse hw p) (multiTileSpace p m n k) (convMultiTileMapping hw p) ↔
      fitting hw (multiTileUse hw p) (multiTileSpace p m n k) = [] ∨
        ∃ t ∈ fitting hw (multiTileUse hw p) (multiTileSpace p m n k), p.kernelW ≤ t.kH := by
  have hmem : (m, n, k) ∈
      gemmCombinationMapping hw p.M p.N (p.K * p.kernelW) p.nExtraNode p.precisionBytes := by
    rw [hgemm]
    exact List.mem_cons_self
  obtain ⟨hn, hk⟩ := gemmCombinationMapping_pos p.n_pos hmem
  unfold convMultiTileMapping
  rw [hgemm]
  have hpos : ∀ t ∈ multiTileSpace p m n k, 0 < (multiTileUse hw p t).total :=
    multiTileSpace_pos hn hk
  have hiff :=
    convSearch_complete_iff hw (fun best t => decide (best ≤ t.kH)) ConvTile.kH p.kernelW hpos
  simp only [decide_eq_true_eq] at hiff
  exact hiff

/-- Two of the mappings are complete, and the third where its side condition lets it. -/
theorem conv_mappings_complete_iff (hw : SpadHardware) (p : ConvProblem) :
    (∀ m n k rest, gemmCombinationMapping hw p.M p.N p.K p.nExtraNode p.precisionBytes =
        (m, n, k) :: rest →
      MappingComplete hw (combinationUse hw p) (combinationSpace p m n (min k hw.vectorLane))
        (convCombinationMapping hw p)) ∧
    (∀ m n k rest, gemmCombinationMapping hw p.outputW p.N p.K p.nExtraNode p.precisionBytes =
        (m, n, k) :: rest →
      MappingComplete hw (singleBatchUse hw p) (singleBatchSpace p m n k)
        (convSingleBatchMapping hw p)) ∧
    (∀ m n k rest, gemmCombinationMapping hw p.M p.N (p.K * p.kernelW) p.nExtraNode
        p.precisionBytes = (m, n, k) :: rest →
      (MappingComplete hw (multiTileUse hw p) (multiTileSpace p m n k) (convMultiTileMapping hw p) ↔
        fitting hw (multiTileUse hw p) (multiTileSpace p m n k) = [] ∨
          ∃ t ∈ fitting hw (multiTileUse hw p) (multiTileSpace p m n k), p.kernelW ≤ t.kH)) :=
  ⟨fun _ _ _ _ => convCombinationMapping_complete, fun _ _ _ _ => convSingleBatchMapping_complete,
    fun _ _ _ _ => convMultiTileMapping_complete_iff⟩

/-- 128 lanes with 128 kilobytes each. -/
def spadHardware128 : SpadHardware := ⟨128, 131072, by decide⟩

/-- A kernel that is three times as wide as it is high. -/
def wideKernel : ConvProblem where
  M := 1
  N := 8
  K := 3
  kernelH := 1
  kernelW := 3
  outputH := 1
  outputW := 1
  stride := (1, 1)
  dilation := (1, 1)
  nExtraNode := 0
  precisionBytes := 4
  n_pos := Nat.succ_pos 7
  precision_pos := by decide

theorem conv_mappings_complete_wide :
    MappingComplete spadHardware128 (multiTileUse spadHardware128 wideKernel)
        (multiTileSpace wideKernel 8 8 9) (convMultiTileMapping spadHardware128 wideKernel) ↔
      fitting spadHardware128 (multiTileUse spadHardware128 wideKernel)
          (multiTileSpace wideKernel 8 8 9) = [] ∨
        ∃ t ∈ fitting spadHardware128 (multiTileUse spadHardware128 wideKernel)
          (multiTileSpace wideKernel 8 8 9), wideKernel.kernelW ≤ t.kH :=
  (conv_mappings_complete_iff spadHardware128 wideKernel).2.2 8 8 9 [] (by decide +kernel)

/-- The only tile of the wide kernel fits, and the search ends with the error. -/
theorem wide_kernel_mapping_lost :
    gemmCombinationMapping spadHardware128 wideKernel.M wideKernel.N
        (wideKernel.K * wideKernel.kernelW) wideKernel.nExtraNode wideKernel.precisionBytes =
        [(8, 8, 9)] ∧
      fitting spadHardware128 (multiTileUse spadHardware128 wideKernel)
        (multiTileSpace wideKernel 8 8 9) = [⟨1, 3, 1, 1, 8, 8, 9⟩] ∧
      convMultiTileMapping spadHardware128 wideKernel = .error "Cannot find a valid mapping" := by
  refine ⟨by decide +kernel, by decide +kernel, ?_⟩
  decide +kernel

end PyTorchSim.Analysis
