import Mathlib.Algebra.BigOperators.Ring.Finset
import Mathlib.Algebra.Order.BigOperators.Group.List
import Mathlib.Tactic.Ring
import PyTorchSim.Model.DmaInfo
import PyTorchSim.Library.Runs

/-!
# DMA descriptors realise the index expression

A descriptor is right when it has a stride for each axis of its tile, and the address variable
plus the strides times the coordinates of an element is the index expression with each loop
symbol increased by the coordinate along its axis.  It is enough that the strides are the
coefficients of the loops of the axes.  Where the strides of a sum are built from another list
of loops than the axes, the two differ in length.
-/

set_option autoImplicit false

namespace PyTorchSim.Analysis

open PyTorchSim.Model PyTorchSim.Library

section

variable {n : ℕ}

/-! ## Index expressions -/

@[simp] theorem mem_freeSymbols {e : IndexExpr n} {i : Fin n} :
    i ∈ e.freeSymbols ↔ e.coeff i ≠ 0 := by
  simp [IndexExpr.freeSymbols]

theorem freeSymbols_nodup (e : IndexExpr n) : e.freeSymbols.Nodup :=
  (List.nodup_finRange n).filter _

theorem coeff_of_isNumber {e : IndexExpr n} (h : e.isNumber = true) (i : Fin n) :
    e.coeff i = 0 := by
  by_contra hi
  have hmem : i ∈ e.freeSymbols := mem_freeSymbols.mpr hi
  rw [List.isEmpty_iff.mp h] at hmem
  exact List.not_mem_nil hmem

theorem freeSymbols_of_asSymbol {e : IndexExpr n} {dim : Fin n} (h : e.asSymbol = some dim) :
    e.freeSymbols = [dim] ∧ e.const = 0 ∧ e.coeff dim = 1 := by
  unfold IndexExpr.asSymbol at h
  split at h
  · next i hi =>
    split at h
    · next hc =>
      cases h
      exact ⟨hi, hc⟩
    · cases h
  · cases h

/-- A symbol has coefficient 1 and the other loops coefficient 0. -/
theorem coeff_of_asSymbol {e : IndexExpr n} {dim : Fin n} (h : e.asSymbol = some dim)
    (i : Fin n) : e.coeff i = if i = dim then 1 else 0 := by
  obtain ⟨hsym, -, hone⟩ := freeSymbols_of_asSymbol h
  by_cases hi : i = dim
  · rw [if_pos hi, hi, hone]
  · rw [if_neg hi]
    by_contra hc
    have hmem : i ∈ e.freeSymbols := mem_freeSymbols.mpr hc
    rw [hsym] at hmem
    exact hi (List.mem_singleton.mp hmem)

/-- A sum over the symbols that occur is the sum over all. -/
theorem sum_freeSymbols (e : IndexExpr n) (v : Fin n → ℤ) :
    (e.freeSymbols.map fun i => e.coeff i * v i).sum = ∑ i, e.coeff i * v i := by
  rw [← List.sum_toFinset _ (freeSymbols_nodup e)]
  apply Finset.sum_subset (Finset.subset_univ _)
  intro i _ hi
  have hzero : e.coeff i = 0 := by
    by_contra hc
    exact hi (List.mem_toFinset.mpr (mem_freeSymbols.mpr hc))
  rw [hzero, zero_mul]

/-- The address variable holds the value of the index expression. -/
theorem eval_parseIndices (e : IndexExpr n) (v : Fin n → ℤ) :
    (parseIndices e).eval v = e.eval v := by
  unfold parseIndices
  by_cases hnum : e.isNumber = true
  · rw [if_pos hnum]
    have hsum : ∑ i, e.coeff i * v i = 0 :=
      Finset.sum_eq_zero fun i _ => by rw [coeff_of_isNumber hnum, zero_mul]
    rw [IndexVar.eval, IndexExpr.eval, hsum, add_zero]
  · rw [if_neg hnum]
    cases hsym : e.asSymbol with
    | some dim =>
      obtain ⟨hfree, hconst, hone⟩ := freeSymbols_of_asSymbol hsym
      have hsum := sum_freeSymbols e v
      rw [hfree] at hsum
      simp only [IndexVar.eval, IndexExpr.eval, hconst, ← hsum]
      simp [hone]
    | none =>
      simp only [IndexVar.eval, IndexExpr.eval, List.map_map, Function.comp_def]
      rw [((List.perm_insertionSort _ e.freeSymbols).map _).sum_eq, sum_freeSymbols]

end

/-! ## The axes of a tile -/

/-- The coefficient of the loop of an axis. -/
def axisCoeff {n : ℕ} (e : IndexExpr n) : Option (Fin n) → ℤ
  | some dim => e.coeff dim
  | none => 0

/-- The coordinate of an element along the axis of a loop, 0 where the tile has none. -/
def axisCoord {n : ℕ} (axes : List (Option (Fin n))) (x : List ℕ) (i : Fin n) : ℤ :=
  ((axes.zip x).map fun p => if p.1 = some i then (p.2 : ℤ) else 0).sum

/-- The strides times the coordinates of an element. -/
def strideOffset (stride : List ℤ) (x : List ℕ) : ℤ :=
  (List.zipWith (fun s c => s * (c : ℤ)) stride x).sum

/-- Strides that are the coefficients of the axes move an address as the loops do. -/
theorem strideOffset_axisCoeff {n : ℕ} (e : IndexExpr n) (axes : List (Option (Fin n)))
    (x : List ℕ) :
    strideOffset (axes.map (axisCoeff e)) x = ∑ i, e.coeff i * axisCoord axes x i := by
  induction axes generalizing x with
  | nil => simp [strideOffset, axisCoord]
  | cons a axes ih =>
    cases x with
    | nil => simp [strideOffset, axisCoord]
    | cons c x =>
      have hhead : axisCoeff e a * (c : ℤ) =
          ∑ i, e.coeff i * (if a = some i then (c : ℤ) else 0) := by
        cases a with
        | none => simp [axisCoeff]
        | some dim => simp [axisCoeff]
      calc strideOffset ((a :: axes).map (axisCoeff e)) (c :: x)
          = axisCoeff e a * (c : ℤ) + strideOffset (axes.map (axisCoeff e)) x := by
            simp [strideOffset]
        _ = ∑ i, e.coeff i * (if a = some i then (c : ℤ) else 0) +
              ∑ i, e.coeff i * axisCoord axes x i := by rw [hhead, ih]
        _ = ∑ i, e.coeff i * axisCoord (a :: axes) (c :: x) i := by
            rw [← Finset.sum_add_distrib]
            apply Finset.sum_congr rfl
            intro i _
            simp [axisCoord, mul_add]

/-- The loop of each axis of the local tile of an access with axes for the loops `dims`.  A
tile of no loop is broadcast, and a kernel without outer loops has a dummy axis in front. -/
def tileAxes (k : MLIRKernel) (dims : List (Fin k.nrLoops)) : List (Option (Fin k.nrLoops)) :=
  match dims with
  | [] => [none]
  | [dim] => if 1 ≤ k.reductionDepth then [some dim] else [none, some dim]
  | dims => dims.map some

/-- The loops that the tile of an access has axes for. -/
def accessDims (k : MLIRKernel) (access : DmaAccess) (index : IndexExpr k.nrLoops) :
    List (Fin k.nrLoops) :=
  k.localDims index (access != .storeReduction)

/-- The descriptor addresses the elements of the index expression. -/
structure Realises (k : MLIRKernel) (access : DmaAccess) (index : IndexExpr k.nrLoops)
    (info : k.DmaInfo) : Prop where
  /-- One stride for each axis of the tile. -/
  rank : info.dramStride.length = info.localTileDesc.tileSize.length
  /-- For all loop values and all coordinates in the tile. -/
  addr : ∀ (v : Fin k.nrLoops → ℤ) (x : List ℕ),
    List.Forall₂ (· < ·) x info.localTileDesc.tileSize →
      info.indexVar.eval v + strideOffset info.dramStride x =
        index.eval fun i => v i + axisCoord (tileAxes k (accessDims k access index)) x i

section

variable {k : MLIRKernel} {index : IndexExpr k.nrLoops} {dims : List (Fin k.nrLoops)}

/-! ## The local tile -/

theorem localDims_broadcast : k.localDims index true = List.finRange k.nrLoops := by
  unfold MLIRKernel.localDims
  dsimp only
  split
  · rfl
  · next h =>
    by_contra hne
    exact h ⟨rfl, .inl fun heq => hne heq.symm⟩

theorem localDims_reduced : k.localDims index false = index.freeSymbols := by
  simp [MLIRKernel.localDims]

/-- The axes of an access are loops of the kernel in their order. -/
theorem localDims_sublist (broadcast : Bool) :
    List.Sublist (k.localDims index broadcast) (List.finRange k.nrLoops) := by
  cases broadcast with
  | false =>
    rw [localDims_reduced]
    exact List.filter_sublist
  | true => rw [localDims_broadcast]

/-- The local tile has an axis for each entry of `tileAxes`, at most four of loops, and the
size of the axis of a loop is that of the tile of the kernel group. -/
theorem localTile_axes {storeReduction : Bool} {t : MLIRMultiDimTile}
    (h : k.localTile storeReduction dims = .ok t) :
    t.tileSize.length = (tileAxes k dims).length ∧ dims.length ≤ 4 ∧
      ∀ (j : ℕ) (dim : Fin k.nrLoops), (tileAxes k dims)[j]? = some (some dim) →
        t.tileSize[j]? = some (k.getDimSize dim) := by
  unfold MLIRKernel.localTile at h
  dsimp only at h
  split at h
  · -- a scalar
    have hnone (j : ℕ) (dim : Fin k.nrLoops) : ([none] : List (Option (Fin k.nrLoops)))[j]? ≠
        some (some dim) := by
      cases j <;> simp
    split at h <;> cases h <;> exact ⟨rfl, by simp, fun j dim hj => absurd hj (hnone j dim)⟩
  · next dim =>
    split at h
    · next hd =>
      cases h
      simp only [tileAxes, if_pos hd, MLIRMultiDimTile.ofSize]
      refine ⟨rfl, by simp, fun j e hj => ?_⟩
      cases j with
      | zero => cases hj; rfl
      | succ j => cases hj
    · next hd =>
      cases h
      simp only [tileAxes, if_neg hd, MLIRMultiDimTile.ofSize]
      refine ⟨rfl, by simp, fun j e hj => ?_⟩
      match j, hj with
      | 1, hj => cases hj; rfl
  all_goals first | cases h | skip
  all_goals
    split at h <;> first
    | cases h
      refine ⟨by simp [tileAxes, MLIRMultiDimTile.ofSize], by simp, fun j e hj => ?_⟩
      simp only [tileAxes, List.getElem?_map, Option.map_eq_some_iff] at hj
      obtain ⟨e', hget, he⟩ := hj
      cases he
      simp only [MLIRMultiDimTile.ofSize, List.getElem?_map, hget, Option.map_some]
    | cases h

/-! ## The strides of a sum -/

/-- A loop has a stride in a sum when it occurs in the index expression or is one of the loops
that are added. -/
def HasStride (k : MLIRKernel) (index : IndexExpr k.nrLoops) (storeReduction : Bool)
    (i : Fin k.nrLoops) : Prop :=
  index.coeff i ≠ 0 ∨ i.val < if storeReduction then k.nrLoops - 1 else k.nrLoops

/-- The dictionary has one coefficient for each loop with a stride. -/
theorem dramDict_eq (k : MLIRKernel) (index : IndexExpr k.nrLoops) (storeReduction : Bool) :
    ∃ keys : List (Fin k.nrLoops), keys.Nodup ∧
      (∀ i, i ∈ keys ↔ HasStride k index storeReduction i) ∧
      k.dramDict index storeReduction = keys.map fun i => (i, [index.coeff i]) := by
  have hmax : (if !storeReduction then k.nrLoops else k.nrLoops - 1) =
      if storeReduction then k.nrLoops - 1 else k.nrLoops := by cases storeReduction <;> rfl
  unfold MLIRKernel.dramDict
  dsimp only
  rw [hmax]
  generalize hm : (List.finRange k.nrLoops).filter _ = missing
  have hmissing (i : Fin k.nrLoops) : i ∈ missing ↔
      (i.val < if storeReduction then k.nrLoops - 1 else k.nrLoops) ∧ index.coeff i = 0 := by
    simp [← hm]
  refine ⟨index.freeSymbols ++ missing, ?_, ?_, ?_⟩
  · apply List.Nodup.append (freeSymbols_nodup index)
    · rw [← hm]
      exact (List.nodup_finRange _).filter _
    · intro i hi hi'
      exact mem_freeSymbols.mp hi ((hmissing i).mp hi').2
  · intro i
    rw [List.mem_append, mem_freeSymbols, hmissing, HasStride]
    tauto
  · rw [List.map_append]
    congr 1
    apply List.map_congr_left
    intro i hi
    rw [((hmissing i).mp hi).2]

/-- Below ten the names of the loop symbols are in the order of the loops. -/
theorem symbolName_le_iff {i j : ℕ} (hi : i < 10) (hj : j < 10) :
    symbolName i ≤ symbolName j ↔ i ≤ j := by
  have hall : ∀ i j : Fin 10, symbolName i ≤ symbolName j ↔ i.val ≤ j.val := by decide
  exact hall ⟨i, hi⟩ ⟨j, hj⟩

theorem sumStride_length (k : MLIRKernel) (index : IndexExpr k.nrLoops)
    (storeReduction : Bool) :
    ∃ keys : List (Fin k.nrLoops), keys.Nodup ∧
      (∀ i, i ∈ keys ↔ HasStride k index storeReduction i) ∧
      (k.sumStride index storeReduction).length = keys.length := by
  obtain ⟨keys, hnodup, hmem, heq⟩ := dramDict_eq k index storeReduction
  refine ⟨keys, hnodup, hmem, ?_⟩
  have hperm := List.perm_insertionSort (fun p q : Fin k.nrLoops × List ℤ =>
    symbolName p.1 ≤ symbolName q.1) (k.dramDict index storeReduction)
  have hflat := (hperm.flatMap_right Prod.snd).length_eq
  rw [MLIRKernel.sumStride, hflat, heq, List.flatMap_map]
  simp

/-- The strides of a sum are the coefficients of the axes where the loops with a stride are
those of the axes. -/
theorem sumStride_eq {storeReduction : Bool}
    (hsorted : List.Sublist dims (List.finRange k.nrLoops)) (hlt : ∀ i ∈ dims, i.val < 10)
    (hmem : ∀ i, i ∈ dims ↔ HasStride k index storeReduction i) :
    k.sumStride index storeReduction = dims.map index.coeff := by
  obtain ⟨keys, hnodup, hkeys, heq⟩ := dramDict_eq k index storeReduction
  have hperm : keys.Perm dims :=
    (List.perm_ext_iff_of_nodup hnodup (hsorted.nodup (List.nodup_finRange _))).mpr
      fun i => (hkeys i).trans (hmem i).symm
  let r : Fin k.nrLoops × List ℤ → Fin k.nrLoops × List ℤ → Prop :=
    fun p q => symbolName p.1 ≤ symbolName q.1
  have htotal : Std.Total r := ⟨fun p q => le_total (symbolName p.1) (symbolName q.1)⟩
  have htrans : IsTrans _ r := ⟨fun _ _ _ => le_trans⟩
  let entry (i : Fin k.nrLoops) : Fin k.nrLoops × List ℤ := (i, [index.coeff i])
  have hanti (p q : Fin k.nrLoops × List ℤ)
      (hp : p ∈ (k.dramDict index storeReduction).insertionSort r) (hq : q ∈ dims.map entry)
      (hpq : r p q) (hqp : r q p) : p = q := by
    rw [heq, List.mem_insertionSort, List.mem_map] at hp
    rw [List.mem_map] at hq
    obtain ⟨i, hi, rfl⟩ := hp
    obtain ⟨j, hj, rfl⟩ := hq
    have hi' := hlt i (hperm.mem_iff.mp hi)
    have hj' := hlt j hj
    have hij : i = j := Fin.ext (le_antisymm ((symbolName_le_iff hi' hj').mp hpq)
      ((symbolName_le_iff hj' hi').mp hqp))
    rw [hij]
  have hsortedNames : (dims.map entry).Pairwise r := by
    rw [List.pairwise_map]
    have hpair : dims.Pairwise (· ≤ ·) := (List.pairwise_le_finRange k.nrLoops).sublist hsorted
    exact hpair.imp_of_mem fun hi hj hij => (symbolName_le_iff (hlt _ hi) (hlt _ hj)).mpr hij
  have hpermEntry : ((k.dramDict index storeReduction).insertionSort r).Perm (dims.map entry) := by
    rw [heq]
    exact (List.perm_insertionSort r _).trans (hperm.map entry)
  have hsort : (k.dramDict index storeReduction).insertionSort r = dims.map entry :=
    List.Perm.eq_of_pairwise hanti (List.pairwise_insertionSort r _) hsortedNames hpermEntry
  show ((k.dramDict index storeReduction).insertionSort r).flatMap Prod.snd = _
  rw [hsort, List.flatMap_map, ← List.flatMap_pure_eq_map]
  rfl

/-! ## The descriptor -/

/-- What `get_dma_info` returns, by its parts. -/
theorem getDmaInfo_ok {broadcast storeReduction : Bool} {info : k.DmaInfo}
    (h : k.getDmaInfo index broadcast storeReduction = .ok info) :
    k.localTile storeReduction (k.localDims index broadcast) = .ok info.localTileDesc ∧
      info.indexVar = parseIndices index ∧
      info.dramStride =
        let stride := k.alignedStride index storeReduction (k.localDims index broadcast)
          info.localTileDesc.tileSize.length
        if k.nrLoops = 1 ∧ k.reductionDepth = 0 then 0 :: stride.dropLast else stride := by
  obtain ⟨t, ht, hinfo⟩ := bind_eq_ok.mp h
  cases hinfo
  exact ⟨ht, rfl, rfl⟩

/-- Strides that are the coefficients of the axes realise the index expression. -/
theorem realises_of_axisCoeff {access : DmaAccess} {info : k.DmaInfo}
    (hvar : info.indexVar = parseIndices index)
    (hrank : info.localTileDesc.tileSize.length =
      (tileAxes k (accessDims k access index)).length)
    (hstride : info.dramStride =
      (tileAxes k (accessDims k access index)).map (axisCoeff index)) :
    Realises k access index info := by
  constructor
  · rw [hstride, List.length_map, hrank]
  · intro v x _
    rw [hvar, eval_parseIndices, hstride, strideOffset_axisCoeff]
    simp only [IndexExpr.eval, mul_add, Finset.sum_add_distrib]
    ring

/-- The strides of a number. -/
theorem alignedStride_number {storeReduction : Bool} (hnum : index.isNumber = true)
    (axes : List (Option (Fin k.nrLoops))) :
    k.alignedStride index storeReduction dims axes.length = axes.map (axisCoeff index) := by
  have hsym : index.asSymbol = none := by
    rw [IndexExpr.asSymbol, List.isEmpty_iff.mp hnum]
  have hzero : axisCoeff index = fun _ => 0 := by
    funext a
    cases a with
    | none => rfl
    | some dim => exact coeff_of_isNumber hnum dim
  rw [MLIRKernel.alignedStride, hsym, hzero, List.map_const']
  exact if_pos hnum

/-- The strides of a symbol with an axis. -/
theorem alignedStride_symbol {storeReduction : Bool} {dim : Fin k.nrLoops}
    (hsym : index.asSymbol = some dim) (hnodup : dims.Nodup) (hdim : dim ∈ dims) :
    k.alignedStride index storeReduction dims dims.length = dims.map index.coeff := by
  rw [MLIRKernel.alignedStride, hsym]
  dsimp only
  rw [if_pos hdim]
  apply List.ext_getElem (by simp)
  intro j hj hj'
  have hjd : j < dims.length := by simpa using hj'
  rw [List.getElem_set, List.getElem_map, List.getElem_replicate, coeff_of_asSymbol hsym]
  have hiff : dims.idxOf dim = j ↔ dims[j] = dim := by
    constructor
    · intro h
      simp only [← h, List.getElem_idxOf]
    · intro h
      rw [← h, hnodup.idxOf_getElem]
  by_cases h : dims.idxOf dim = j
  · rw [if_pos h, if_pos (hiff.mp h)]
  · rw [if_neg h, if_neg fun h' => h (hiff.mpr h')]

theorem tileAxes_ne_nil (k : MLIRKernel) (dims : List (Fin k.nrLoops)) :
    tileAxes k dims ≠ [] := by
  unfold tileAxes
  split
  · exact List.cons_ne_nil _ _
  · split <;> exact List.cons_ne_nil _ _
  · next hne _ => exact fun h => hne (List.map_eq_nil_iff.mp h)

/-- Every axis is that of a loop where the tile is no scalar and there is an outer loop. -/
theorem tileAxes_eq (hne : dims ≠ []) (h : dims.length ≠ 1 ∨ 1 ≤ k.reductionDepth) :
    tileAxes k dims = dims.map some := by
  unfold tileAxes
  split
  · exact absurd rfl hne
  · rw [if_pos (h.resolve_left fun h' => h' rfl)]
    rfl
  · rfl

/-- The index expression of a reduced value has no reduced loop in it. -/
structure ReducedIndex (k : MLIRKernel) (index : IndexExpr k.nrLoops) : Prop where
  /-- There is a reduced loop. -/
  depth_lt : k.reductionDepth < k.nrLoops
  coeff_eq : ∀ i : Fin k.nrLoops, k.reductionDepth ≤ i.val → index.coeff i = 0

/-- When the strides fit the axes of the tile. -/
def StrideFits (k : MLIRKernel) (access : DmaAccess) (index : IndexExpr k.nrLoops) : Prop :=
  index.isNumber = true ∨ index.asSymbol.isSome = true ∨
    if access = .storeReduction then
      k.nrLoops = k.reductionDepth + 1 ∧
        ∀ i : Fin k.nrLoops, i.val < k.reductionDepth → index.coeff i ≠ 0
    else ¬(k.nrLoops = 1 ∧ k.reductionDepth = 0)

/-- The access of an operation, by the flags of `get_dma_info`. -/
theorem dmaInfo_eq (access : DmaAccess) : k.dmaInfo access index =
    k.getDmaInfo index (access != .storeReduction) (access == .storeReduction) := by
  cases access <;> rfl

section

variable {access : DmaAccess} {info : k.DmaInfo}

theorem accessDims_of_ne (h : access ≠ .storeReduction) :
    accessDims k access index = List.finRange k.nrLoops := by
  rw [accessDims, bne_iff_ne.mpr h, localDims_broadcast]

theorem accessDims_storeReduction :
    accessDims k .storeReduction index = index.freeSymbols := by
  rw [accessDims]
  exact localDims_reduced

/-- A loop that occurs in the index expression has an axis. -/
theorem mem_accessDims {i : Fin k.nrLoops} (hi : index.coeff i ≠ 0) :
    i ∈ accessDims k access index := by
  by_cases h : access = .storeReduction
  · rw [h, accessDims_storeReduction]
    exact mem_freeSymbols.mpr hi
  · rw [accessDims_of_ne h]
    exact List.mem_finRange i

theorem accessDims_nodup : (accessDims k access index).Nodup :=
  (localDims_sublist _).nodup (List.nodup_finRange _)

/-- The parts of the descriptor of an access. -/
theorem dmaInfo_ok (h : k.dmaInfo access index = .ok info) :
    info.localTileDesc.tileSize.length = (tileAxes k (accessDims k access index)).length ∧
      (accessDims k access index).length ≤ 4 ∧ info.indexVar = parseIndices index ∧
      info.dramStride =
        let stride := k.alignedStride index (access == .storeReduction)
          (accessDims k access index) info.localTileDesc.tileSize.length
        if k.nrLoops = 1 ∧ k.reductionDepth = 0 then 0 :: stride.dropLast else stride := by
  rw [dmaInfo_eq] at h
  obtain ⟨htile, hvar, hstride⟩ := getDmaInfo_ok h
  obtain ⟨hrank, hfour, -⟩ := localTile_axes htile
  exact ⟨hrank, hfour, hvar, hstride⟩

/-- A loop that occurs in a reduced value is an outer loop. -/
theorem depth_pos_of_coeff (hindex : access = .storeReduction → ReducedIndex k index)
    (haccess : access = .storeReduction) {i : Fin k.nrLoops} (hi : index.coeff i ≠ 0) :
    i.val < k.reductionDepth := by
  by_contra hge
  exact hi ((hindex haccess).coeff_eq i (Nat.le_of_not_lt hge))

/-- Outside the kernels of a single reduction loop each axis is that of a loop. -/
theorem accessAxes_eq (hindex : access = .storeReduction → ReducedIndex k index)
    (hnum : index.isNumber = false) (hloop : ¬(k.nrLoops = 1 ∧ k.reductionDepth = 0)) :
    tileAxes k (accessDims k access index) = (accessDims k access index).map some := by
  obtain ⟨i, hi⟩ : ∃ i, index.coeff i ≠ 0 := by
    by_contra hall
    push Not at hall
    have hnil : index.freeSymbols = [] := by
      apply List.eq_nil_iff_forall_not_mem.mpr
      intro i hi
      exact mem_freeSymbols.mp hi (hall i)
    rw [IndexExpr.isNumber, hnil] at hnum
    cases hnum
  apply tileAxes_eq (List.ne_nil_of_mem (mem_accessDims hi))
  by_cases haccess : access = .storeReduction
  · right
    have := depth_pos_of_coeff hindex haccess hi
    omega
  · rw [accessDims_of_ne haccess, List.length_finRange]
    omega

/-- The descriptor of a constant address. -/
theorem realises_number (h : k.dmaInfo access index = .ok info) (hnum : index.isNumber = true) :
    Realises k access index info := by
  obtain ⟨hrank, -, hvar, hstride⟩ := dmaInfo_ok h
  apply realises_of_axisCoeff hvar hrank
  dsimp only at hstride
  rw [hrank, alignedStride_number hnum] at hstride
  rw [hstride]
  split
  · -- all strides are 0, and the shift moves zeros
    have hzero : axisCoeff index = fun _ => 0 := by
      funext a
      cases a with
      | none => rfl
      | some dim => exact coeff_of_isNumber hnum dim
    have hpos := List.length_pos_iff.mpr (tileAxes_ne_nil k (accessDims k access index))
    rw [hzero, List.map_const', List.dropLast_replicate, ← List.replicate_succ]
    congr 1
    omega
  · rfl

/-- The descriptor of an address that is a loop variable. -/
theorem realises_symbol (hindex : access = .storeReduction → ReducedIndex k index)
    (h : k.dmaInfo access index = .ok info) {dim : Fin k.nrLoops}
    (hsym : index.asSymbol = some dim) : Realises k access index info := by
  obtain ⟨hrank, -, hvar, hstride⟩ := dmaInfo_ok h
  apply realises_of_axisCoeff hvar hrank
  dsimp only at hstride
  have hcoeff : index.coeff dim ≠ 0 := by
    rw [coeff_of_asSymbol hsym, if_pos rfl]
    exact one_ne_zero
  have hmem : dim ∈ accessDims k access index := mem_accessDims hcoeff
  have hnum : index.isNumber = false := by
    rw [IndexExpr.isNumber, (freeSymbols_of_asSymbol hsym).1]
    rfl
  by_cases hloop : k.nrLoops = 1 ∧ k.reductionDepth = 0
  · have haccess : access ≠ .storeReduction := by
      intro haccess
      have := depth_pos_of_coeff hindex haccess hcoeff
      omega
    have hdims : accessDims k access index = [dim] := by
      have hlen : (accessDims k access index).length = 1 := by
        rw [accessDims_of_ne haccess, List.length_finRange, hloop.1]
      obtain ⟨a, ha⟩ := List.length_eq_one_iff.mp hlen
      rw [ha] at hmem ⊢
      rw [List.mem_singleton.mp hmem]
    have haxes : tileAxes k [dim] = [none, some dim] := by
      rw [tileAxes, if_neg (by omega)]
    rw [hdims, haxes] at hrank
    rw [if_pos hloop, hrank, hdims, MLIRKernel.alignedStride, hsym] at hstride
    rw [hstride, hdims, haxes]
    simp [axisCoeff, coeff_of_asSymbol hsym]
  · have haxes := accessAxes_eq hindex hnum hloop
    rw [if_neg hloop, hrank, haxes, List.length_map,
      alignedStride_symbol hsym accessDims_nodup hmem] at hstride
    rw [hstride, haxes, List.map_map]
    rfl

/-- The strides of a sum, when it is neither a number nor a symbol. -/
theorem alignedStride_sum {storeReduction : Bool} {nrDim : ℕ} (hnum : index.isNumber = false)
    (hsym : index.asSymbol = none) :
    k.alignedStride index storeReduction dims nrDim = k.sumStride index storeReduction := by
  rw [MLIRKernel.alignedStride, hsym]
  dsimp only
  rw [hnum]
  rfl

/-- Where the loops with a stride are those of the axes, the descriptor of a sum is right. -/
theorem realises_sum (hindex : access = .storeReduction → ReducedIndex k index)
    (h : k.dmaInfo access index = .ok info) (hnum : index.isNumber = false)
    (hsym : index.asSymbol = none) (hloop : ¬(k.nrLoops = 1 ∧ k.reductionDepth = 0))
    (hlt : ∀ i ∈ accessDims k access index, i.val < 10)
    (hmem : ∀ i, i ∈ accessDims k access index ↔
      HasStride k index (access == .storeReduction) i) :
    Realises k access index info := by
  obtain ⟨hrank, -, hvar, hstride⟩ := dmaInfo_ok h
  apply realises_of_axisCoeff hvar hrank
  dsimp only at hstride
  rw [if_neg hloop, alignedStride_sum hnum hsym,
    sumStride_eq (localDims_sublist _) hlt hmem] at hstride
  rw [hstride, accessAxes_eq hindex hnum hloop, List.map_map]
  rfl

/-- A load or store with a sum: the descriptor is right unless the strides are shifted. -/
theorem realises_broadcast_iff (haccess : access ≠ .storeReduction)
    (h : k.dmaInfo access index = .ok info) (hnum : index.isNumber = false)
    (hsym : index.asSymbol = none) :
    Realises k access index info ↔ ¬(k.nrLoops = 1 ∧ k.reductionDepth = 0) := by
  have hindex : access = .storeReduction → ReducedIndex k index := fun h' => absurd h' haccess
  have hbeq : (access == DmaAccess.storeReduction) = false := beq_eq_false_iff_ne.mpr haccess
  have hdims : accessDims k access index = List.finRange k.nrLoops := accessDims_of_ne haccess
  obtain ⟨hrank, hfour, -, hstride⟩ := dmaInfo_ok h
  rw [hdims, List.length_finRange] at hfour
  have hstrideAll (i : Fin k.nrLoops) : HasStride k index false i := .inr i.isLt
  constructor
  · -- the shifted list has one entry, the tile two axes
    rintro ⟨hlen, -⟩ hloop
    obtain ⟨keys, hnodup, hkeys, hsum⟩ := sumStride_length k index false
    have hkeysLen : keys.length ≤ k.nrLoops := by
      have hsub := (hnodup.subperm fun i _ => List.mem_finRange i).length_le
      rwa [List.length_finRange] at hsub
    have haxes : (tileAxes k (accessDims k access index)).length = 2 := by
      rw [hdims]
      obtain ⟨a, ha⟩ := List.length_eq_one_iff.mp
        ((List.length_finRange (n := k.nrLoops)).trans hloop.1)
      rw [ha, tileAxes, if_neg (by omega)]
      rfl
    dsimp only at hstride
    rw [if_pos hloop, hbeq, alignedStride_sum hnum hsym] at hstride
    rw [hrank, haxes, hstride, List.length_cons, List.length_dropLast, hsum] at hlen
    omega
  · intro hloop
    apply realises_sum hindex h hnum hsym hloop
    · intro i _
      have := i.isLt
      omega
    · intro i
      rw [hdims, hbeq]
      exact ⟨fun _ => hstrideAll i, fun _ => List.mem_finRange i⟩

/-- A reduced value with a sum: the descriptor is right when the outer loops are all loops but
one, and all of them occur in the index expression. -/
theorem realises_reduced_iff (hindex : ReducedIndex k index)
    (h : k.dmaInfo .storeReduction index = .ok info) (hnum : index.isNumber = false)
    (hsym : index.asSymbol = none) :
    Realises k .storeReduction index info ↔ k.nrLoops = k.reductionDepth + 1 ∧
      ∀ i : Fin k.nrLoops, i.val < k.reductionDepth → index.coeff i ≠ 0 := by
  have hdims : accessDims k .storeReduction index = index.freeSymbols :=
    accessDims_storeReduction
  have hmemDims (i : Fin k.nrLoops) :
      i ∈ accessDims k .storeReduction index ↔ index.coeff i ≠ 0 := by
    rw [hdims, mem_freeSymbols]
  have hlt (i : Fin k.nrLoops) (hi : index.coeff i ≠ 0) : i.val < k.reductionDepth :=
    depth_pos_of_coeff (fun _ => hindex) rfl hi
  have hdepth := hindex.depth_lt
  have hloop : ¬(k.nrLoops = 1 ∧ k.reductionDepth = 0) := by
    rintro ⟨-, hzero⟩
    have hnil : index.freeSymbols = [] := by
      apply List.eq_nil_iff_forall_not_mem.mpr
      intro i hi
      have := hlt i (mem_freeSymbols.mp hi)
      omega
    rw [IndexExpr.isNumber, hnil] at hnum
    cases hnum
  obtain ⟨hrank, hfour, -, hstride⟩ := dmaInfo_ok h
  constructor
  · rintro ⟨hlen, -⟩
    obtain ⟨keys, hnodup, hkeys, hsum⟩ := sumStride_length k index true
    dsimp only at hstride
    rw [if_neg hloop, beq_self_eq_true, alignedStride_sum hnum hsym] at hstride
    rw [hrank, accessAxes_eq (fun _ => hindex) hnum hloop, List.length_map, hstride, hsum] at hlen
    have hsub : (accessDims k .storeReduction index).Subperm keys :=
      accessDims_nodup.subperm fun i hi => (hkeys i).mpr (.inl ((hmemDims i).mp hi))
    have hperm := hsub.perm_of_length_le hlen.le
    -- every loop but the last occurs
    have hall (i : Fin k.nrLoops) (hi : i.val < k.nrLoops - 1) : index.coeff i ≠ 0 :=
      (hmemDims i).mp (hperm.mem_iff.mpr ((hkeys i).mpr (.inr hi)))
    have hnr : k.nrLoops = k.reductionDepth + 1 := by
      by_contra hne
      have hlast := hlt ⟨k.nrLoops - 2, by omega⟩ (hall _ (by dsimp only; omega))
      dsimp only at hlast
      omega
    exact ⟨hnr, fun i hi => hall i (by omega)⟩
  · rintro ⟨hnr, hall⟩
    apply realises_sum (fun _ => hindex) h hnum hsym hloop
    · intro i hi
      -- the outer loops are at most four
      have hsub : ((List.finRange k.reductionDepth).map (Fin.castLE hdepth.le)).Subperm
          (accessDims k .storeReduction index) := by
        apply List.Nodup.subperm
        · exact (List.nodup_finRange _).map (Fin.castLE_injective _)
        · intro j hj
          obtain ⟨j', -, rfl⟩ := List.mem_map.mp hj
          exact (hmemDims _).mpr (hall _ j'.isLt)
      have hle := hsub.length_le
      rw [List.length_map, List.length_finRange] at hle
      have := hlt i ((hmemDims i).mp hi)
      omega
    · intro i
      rw [hmemDims, beq_self_eq_true, HasStride, if_pos rfl]
      constructor
      · exact .inl
      · rintro (hi | hi)
        · exact hi
        · exact hall i (by omega)

end

end

/-- The descriptor of an access realises the index expression when the strides fit the axes of
the tile, and only then. -/
theorem realises_iff_strideFits (k : MLIRKernel) (access : DmaAccess)
    (index : IndexExpr k.nrLoops) (hindex : access = .storeReduction → ReducedIndex k index)
    (info : k.DmaInfo) (h : k.dmaInfo access index = .ok info) :
    Realises k access index info ↔ StrideFits k access index := by
  by_cases hnum : index.isNumber = true
  · exact ⟨fun _ => .inl hnum, fun _ => realises_number h hnum⟩
  cases hsym : index.asSymbol with
  | some dim =>
    exact ⟨fun _ => .inr (.inl (by rw [hsym]; rfl)), fun _ => realises_symbol hindex h hsym⟩
  | none =>
    have hfits : StrideFits k access index ↔ if access = .storeReduction then
        k.nrLoops = k.reductionDepth + 1 ∧
          ∀ i : Fin k.nrLoops, i.val < k.reductionDepth → index.coeff i ≠ 0
        else ¬(k.nrLoops = 1 ∧ k.reductionDepth = 0) := by
      simp only [StrideFits, hnum, hsym, Option.isSome_none, Bool.false_eq_true, false_or]
    rw [hfits]
    have hnum' : index.isNumber = false := by simpa using hnum
    by_cases haccess : access = .storeReduction
    · subst haccess
      rw [if_pos rfl]
      exact realises_reduced_iff (hindex rfl) h hnum' hsym
    · rw [if_neg haccess]
      exact realises_broadcast_iff haccess h hnum' hsym

/-- A kernel with one reduced loop and no outer loop. -/
def reductionOnly : MLIRKernel where
  nrLoops := 1
  reductionDepth := 0
  vectorLane := 4
  tileSize := [8]
  vlaneSplitAxis := 0
  vlaneStride := 8
  depth_le := by decide
  rank_eq := rfl
  split_lt := by decide
  stride_pos := by decide

/-- A load of every second element in a kernel with one reduced loop. -/
theorem realises_iff_strideFits_reductionOnly :
    ∃ info, reductionOnly.dmaInfo .load ⟨0, fun _ => 2⟩ = .ok info ∧
      (Realises reductionOnly .load ⟨0, fun _ => 2⟩ info ↔
        StrideFits reductionOnly .load ⟨0, fun _ => 2⟩) :=
  ⟨_, rfl, realises_iff_strideFits reductionOnly .load ⟨0, fun _ => 2⟩ nofun _ rfl⟩

/-- The strides of a load of every second element have one entry for a tile of two axes. -/
theorem reductionOnly_not_realises :
    ¬∀ (k : MLIRKernel) (access : DmaAccess) (index : IndexExpr k.nrLoops),
      (access = .storeReduction → ReducedIndex k index) →
      ∀ info, k.dmaInfo access index = .ok info → Realises k access index info := by
  intro hall
  have h := hall reductionOnly .load ⟨0, fun _ => 2⟩ nofun _ rfl
  have hrank := h.rank
  revert hrank
  decide +kernel

end PyTorchSim.Analysis
