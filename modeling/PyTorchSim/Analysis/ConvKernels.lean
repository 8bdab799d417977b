import PyTorchSim.Analysis.ConvBatch
import PyTorchSim.Analysis.ConvMapping

/-!
# The kernels of convolutions for batches

The two templates leave the dilation out of the places that they read, and without a bias they set
only the first row of the places of a tile to zero.  Otherwise the kernel, called by its wrapper,
leaves `aten.convolution` in the output, and nothing but it.

The template for few channels goes through the columns of the kernel and the channels of the input
with one loop.  The order that the wrapper gives the input puts the places of a row that a column of
the kernel meets next to each other, so that the loop reads them as channels.
-/

set_option autoImplicit false

namespace PyTorchSim.Analysis

open Finset Frontend Frontend.CatProgram Library

/-! ## The tiles of the searches -/

section Searches

variable {hw : SpadHardware}

/-- The candidates of a search are tiles of its space. -/
theorem mem_space_of_convSearch {σ : Type} {use : ConvTile → SpadUse}
    {accepts : σ → ConvTile → Bool} {record : ConvTile → σ} {init : σ} {space tiles : List ConvTile}
    (h : convSearch hw use accepts record init space = .ok tiles) {tile : ConvTile}
    (htile : tile ∈ tiles) : tile ∈ space := by
  unfold convSearch at h
  dsimp only at h
  split_ifs at h
  rw [foldl_searchStep_candidates, List.nil_append, sortByUse_map] at h
  rw [← Except.ok.inj h, List.mem_insertionSort] at htile
  exact (mem_fitting.mp htile).1

/-- Rounding up to groups of 8 stays below the number of lanes. -/
theorem padTo_eight {size lanes : ℕ} (hlanes : 8 ∣ lanes) (hsize : 0 < size) (hle : size ≤ lanes) :
    8 ≤ padTo size 8 ∧ padTo size 8 ≤ lanes := by
  obtain ⟨q, rfl⟩ := hlanes
  unfold padTo
  omega

/-- The lanes share the columns of a tile that is a group of lanes. -/
theorem laneShaped_of_mem_tileRange {size padded d : ℕ} (hlanes : 8 ∣ hw.vectorLane)
    (hsmall : size ≤ hw.vectorLane → 8 ≤ padded ∧ padded ≤ hw.vectorLane)
    (hd : d ∈ tileRange hw size padded) : LaneShaped hw.vectorLane d ∧ 8 ≤ d := by
  have hpos := hw.lane_pos
  unfold tileRange at hd
  split_ifs at hd with hlarge
  · obtain ⟨q, hq, rfl⟩ := List.mem_map.mp hd
    have hqpos := pos_of_mem_divisors hq
    refine ⟨⟨hpos, Nat.mul_pos hqpos hpos, Or.inr (Nat.dvd_mul_left ..)⟩, ?_⟩
    calc
      8 ≤ hw.vectorLane := Nat.le_of_dvd hpos hlanes
      _ ≤ q * hw.vectorLane := Nat.le_mul_of_pos_left _ hqpos
  · rw [List.mem_singleton] at hd
    obtain ⟨hle, hlanes⟩ := hsmall (by omega)
    rw [hd]
    exact ⟨⟨hpos, by omega, Or.inl hlanes⟩, hle⟩

/-- **The sizes of the matrices**: the lanes share their columns, and there are at least 8 rows and
columns. -/
theorem shaped_of_mem_gemmCombinationMapping (hlanes : 8 ∣ hw.vectorLane)
    {M N K nExtraNode precisionBytes m n k : ℕ} (hM : 0 < M) (hN : 0 < N)
    (hmem : (m, n, k) ∈ gemmCombinationMapping hw M N K nExtraNode precisionBytes) :
    8 ≤ m ∧ LaneShaped hw.vectorLane n ∧ LaneShaped hw.vectorLane k ∧ 8 ≤ k := by
  simp only [gemmCombinationMapping, sortByUse, List.mem_map, List.mem_insertionSort,
    List.mem_flatMap, List.mem_filterMap, Option.ite_none_right_eq_some, Option.some.injEq] at hmem
  obtain ⟨_, ⟨tileK, hK, tileM, hMtile, tileN, hNtile, -, rfl⟩, htile⟩ := hmem
  obtain ⟨rfl, rfl, rfl⟩ : tileM = m ∧ tileN = n ∧ tileK = k := by simpa using htile
  have hgroups : ∀ {size}, 0 < size → size ≤ hw.vectorLane →
      8 ≤ padTo size (padFactor hw size 8) ∧ padTo size (padFactor hw size 8) ≤ hw.vectorLane := by
    intro size hsize hle
    rw [padFactor, if_neg (by omega)]
    exact padTo_eight hlanes hsize hle
  refine ⟨(laneShaped_of_mem_tileRange hlanes (hgroups hM) hMtile).2,
    (laneShaped_of_mem_tileRange hlanes (hgroups hN) hNtile).1, ?_⟩
  apply laneShaped_of_mem_tileRange hlanes _ hK
  intro hle
  rw [padFactor, if_neg (by omega), padTo]
  simp only [Nat.add_sub_cancel, Nat.div_one, Nat.mul_one]
  omega

theorem le_of_mem_divisors {d n : ℕ} (h : d ∈ divisors n) : d ≤ n := by
  have hmem := (List.mem_filter.mp h).1
  rw [List.mem_range'_1] at hmem
  omega

end Searches

/-- The search for the template chooses tiles for batches. -/
theorem batchTile_of_mem {hw : SpadHardware} {t : ConvTemplate} (hlanes : 8 ∣ hw.vectorLane)
    (hbatch : 0 < t.batch) {precisionBytes : ℕ} {hprecision : 0 < precisionBytes}
    {tiles : List ConvTile}
    (h : convCombinationMapping hw (t.problem t.kW precisionBytes hprecision) = .ok tiles) :
    ∀ tile ∈ tiles, BatchTile hw t tile := by
  intro tile htile
  have hlanes8 : 8 ≤ hw.vectorLane := Nat.le_of_dvd hw.lane_pos hlanes
  unfold convCombinationMapping at h
  cases hgemm : gemmCombinationMapping hw (t.problem t.kW precisionBytes hprecision).M
      (t.problem t.kW precisionBytes hprecision).N (t.problem t.kW precisionBytes hprecision).K
      (t.problem t.kW precisionBytes hprecision).nExtraNode
      (t.problem t.kW precisionBytes hprecision).precisionBytes with
  | nil => simp [hgemm] at h
  | cons sizes rest =>
      obtain ⟨m, n, k⟩ := sizes
      rw [hgemm] at h
      have hmem := mem_space_of_convSearch h htile
      obtain ⟨hm, hn, hk, hk8⟩ := shaped_of_mem_gemmCombinationMapping hlanes hbatch t.oC_pos
        (hgemm ▸ List.mem_cons_self)
      simp only [combinationSpace, List.mem_flatMap, List.mem_map] at hmem
      obtain ⟨oH, hoH, oW, hoW, kH, hkH, kW, hkW, rfl⟩ := hmem
      exact {
        rows := by dsimp only; omega
        depth := by dsimp only; omega
        columns := hn
        channels := ⟨hw.lane_pos, by dsimp only; omega, Or.inl (Nat.min_le_right ..)⟩
        kH_pos := pos_of_mem_divisors hkH
        kW_pos := pos_of_mem_divisors hkW
        oH_pos := pos_of_mem_divisors hoH
        oW_pos := pos_of_mem_divisors hoW
        oH_le := le_of_mem_divisors hoH
        oW_le := le_of_mem_divisors hoW }

/-- The address of an element of the padded input, in the order (I_H, I_W, BATCH, I_C). -/
def convPlace (t : ConvTemplate) (b c i j : ℕ) : ℕ :=
  ravel [t.paddedH, t.paddedW, t.batch, t.iC] [i, j, b, c]

section Conv

variable {hw : SpadHardware} {t : ConvTemplate} {tile : ConvTile}

theorem conv_batchProgram : BatchProgram hw t tile (t.renderConv hw tile) where
  vectorLane := rfl
  outerLoops := rfl
  bound_c0 := rfl
  y := rfl
  bias := rfl
  zeroSize := rfl
  tileM := rfl
  tileN := rfl
  tileOH := rfl
  tileOW := rfl
  offsetY := rfl

section Loads

variable (htile : BatchTile hw t tile)
include htile

variable {R : Type} [Semiring R] (mem : ConvMemory R) (point : ConvIndex)

/-- What the view of the input holds. -/
theorem conv_load_x (buffer : ℕ × ℕ → R) {a b kh kw i k : ℕ} (ha : a < tile.oH)
    (hb : b < tile.oW) (hkh : kh < tile.kH) (hkw : kw < tile.kW) (hi : i < tile.m)
    (hk : k < tile.k) :
    (t.renderConv hw tile).load (t.renderConv hw tile).x mem.x
        ((t.renderConv hw tile).applyMaps point) buffer
        (viewPlace hw.vectorLane tile.m ((t.renderConv hw tile).viewX a b kh kw) i k) =
      if point .tileM + i < t.batch ∧ point .tileK + k < t.iC then
        mem.x (ravel [t.paddedH, t.paddedW, t.batch, t.iC]
          [(point .oH + a) * t.stride.1 + (point .kH + kh),
            (point .oW + b) * t.stride.2 + (point .kW + kw), point .tileM + i, point .tileK + k])
      else 0 := by
  have hrow : a * t.stride.1 + kh < t.tileIH tile := by
    rw [Nat.mul_comm]
    exact lt_inputExtent t.dilation_pos.1 ha hkh
  have hcol : t.stride.2 * b + 1 * kw < t.tileIW tile := by
    rw [Nat.one_mul]
    exact lt_inputExtent t.dilation_pos.2 hb hkw
  have hview := viewPlace_eq htile.channels htile.rows (Nat.zero_lt_of_lt hcol)
    (a * t.stride.1 + kh) (t.stride.2 * b + 1 * kw) i k
  refine (congrArg _ hview).trans ?_
  refine (load_matrices rfl htile.channels _ _ _ _ _ hrow hcol hi hk).trans ?_
  simp [ConvProgram.inBounds, ConvProgram.bound, ConvProgram.applyMaps, ConvTemplate.renderConv,
    ConvDma.address, ConvTerm.value, ConvTerm.dramStride, ravel]
  congr 2
  ring

end Loads

theorem conv_windowProgram : WindowProgram hw t tile (t.renderConv hw tile) where
  vectorLane := rfl
  accumulationLoops := rfl
  bound_kH := rfl
  bound_kW := rfl
  bound_tileK := rfl
  bound_tileN := rfl
  keeps := by simp [ConvProgram.applyMaps, ConvTemplate.renderConv]
  w := rfl
  tileN := rfl
  tileK := rfl
  tileKH := rfl
  tileKW := rfl
  offsetW := rfl

/-- **An element of a finished tile** is what it started from, and the whole sum. -/
theorem conv_sums (R : Type) [Semiring R] (htile : BatchTile hw t tile) :
    BatchSums R hw t tile (convPlace t) (t.renderConv hw tile) where
  sum := by
    intro mem point s _ a ha b hb i hi j hj hrow hcol _
    rw [← conv_batchProgram.cell_eq htile]
    unfold ConvTemplate.memorySum
    apply conv_windowProgram.outputTile_cell htile.columns htile.depth htile.kW_pos htile.kH_pos mem
      point (conv_batchProgram.cellsDistinct htile) ha hb hi hj s hcol
    intro q hq buffer kh hkh kw hkw k hk _ _ hchannel
    refine (conv_load_x htile mem q buffer ha hb hkh hkw hi hk).trans ?_
    rw [hq .tileM (by simp), hq .oH (by simp), hq .oW (by simp), if_pos ⟨hrow, hchannel⟩]
    rfl
  zero := by
    intro point s a ha b hb i hi j hj
    rw [← conv_batchProgram.cell_eq htile]
    exact conv_windowProgram.outputTile_zero htile.columns htile.depth htile.kW_pos point
      (conv_batchProgram.cellsDistinct htile) ha hb hi hj s _ _

/-- The input as the wrapper turns it for the kernel. -/
theorem conv_operands_x {α : Type} [Field α] (x w bias : Tensor α) : ∀ b < t.batch, ∀ c < t.iC,
    ∀ i < t.paddedH, ∀ j < t.paddedW, (t.operands [2, 3, 0, 1] x w bias).x (convPlace t b c i j) =
      (t.padInput x).get [b, c, i, j] := by
  intro b hb c hc i hi j hj
  have hin : InShape [t.paddedH, t.paddedW, t.batch, t.iC] [i, j, b, c] :=
    .cons hi (.cons hj (.cons hb (.cons hc .nil)))
  exact ConvTemplate.operands_x t [2, 3, 0, 1] x w bias hin

end Conv

/-- **The template for batches computes the convolution** exactly if the batch is empty, or the
positions of the kernel meet the same pixels whether the dilation is counted or not and there is a
bias or the tiles of the output have one column.  The search chooses such tiles, and nothing but the
output is written. -/
theorem conv_computes_iff (α : Type) [Field α] (hw : SpadHardware) (t : ConvTemplate) :
    (8 ∣ hw.vectorLane → 0 < t.batch → ∀ precisionBytes hprecision tiles,
      convCombinationMapping hw (t.problem t.kW precisionBytes hprecision) = .ok tiles →
        ∀ tile ∈ tiles, BatchTile hw t tile) ∧
    ∀ tile, BatchTile hw t tile →
      (ConvTemplate.Computes α t [2, 3, 0, 1] (t.renderConv hw tile) ↔
        (0 < t.batch → (0 < t.iC → ConvTemplate.SamePixels t (fun i kh => i * t.stride.1 + kh)
          (ConvTemplate.dilatedRow t) (fun j kw => j * t.stride.2 + kw)
          (ConvTemplate.dilatedCol t)) ∧ (t.biasOffset.isSome ∨ tile.oW = 1))) ∧
      ∀ (mem : ConvMemory α) (s : ConvState α) (a : ℕ),
        (∀ g, InShape (ConvTemplate.outputShape t) g →
          ravel (ConvTemplate.outputShape t) g ≠ a) →
        ((t.renderConv hw tile).run mem s).y a = s.y a := by
  constructor
  · intro hlanes hbatch precisionBytes hprecision tiles
    exact batchTile_of_mem hlanes hbatch
  · intro tile htile
    constructor
    · exact batch_computes conv_batchProgram htile (conv_sums α htile) conv_operands_x
    · intro mem s a ha
      exact ConvProgram.run_frame mem s (conv_batchProgram.stores htile) a ha

/-- Two rows of a kernel over a column, with a bias. -/
def columnConv : ConvTemplate where
  batch := 2
  iC := 1
  iH := 5
  iW := 1
  oC := 1
  kH := 2
  kW := 1
  stride := (1, 1)
  padding := (0, 0)
  dilation := (1, 1)
  biasOffset := some 0
  oC_pos := by decide
  kernel_pos := by decide
  stride_pos := by decide
  dilation_pos := by decide
  rows_fit := by decide
  cols_fit := by decide

/-- The same with a dilation. -/
def dilatedColumnConv : ConvTemplate :=
  { columnConv with
    dilation := (2, 1)
    dilation_pos := by decide
    rows_fit := by decide
    cols_fit := by decide }

/-- A kernel of one place over a row of two, without a bias. -/
def rowConv : ConvTemplate where
  batch := 2
  iC := 1
  iH := 1
  iW := 2
  oC := 1
  kH := 1
  kW := 1
  stride := (1, 1)
  padding := (0, 0)
  dilation := (1, 1)
  biasOffset := none
  oC_pos := by decide
  kernel_pos := by decide
  stride_pos := by decide
  dilation_pos := by decide
  rows_fit := by decide
  cols_fit := by decide

/-- A kernel of one place over a row of four, with strides over the rows and the columns. -/
def singleConv (stride : ℕ × ℕ) (hstride : 0 < stride.1 ∧ 0 < stride.2) : ConvTemplate where
  batch := 1
  iC := 1
  iH := 1
  iW := 4
  oC := 1
  kH := 1
  kW := 1
  stride := stride
  padding := (0, 0)
  dilation := (1, 1)
  biasOffset := none
  oC_pos := by decide
  kernel_pos := by decide
  stride_pos := hstride
  dilation_pos := by decide
  rows_fit := by decide
  cols_fit := by decide

theorem laneShaped_eight : LaneShaped spadHardware128.vectorLane 8 :=
  ⟨by decide, by decide, Or.inl (by decide)⟩

theorem columnConv_batchTile : BatchTile spadHardware128 columnConv ⟨2, 1, 4, 1, 8, 8, 8⟩ :=
  ⟨by decide, by decide, laneShaped_eight, laneShaped_eight, by decide, by decide, by decide,
    by decide, by decide, by decide⟩

theorem dilatedColumnConv_batchTile :
    BatchTile spadHardware128 dilatedColumnConv ⟨2, 1, 3, 1, 8, 8, 8⟩ :=
  ⟨by decide, by decide, laneShaped_eight, laneShaped_eight, by decide, by decide, by decide,
    by decide, by decide, by decide⟩

theorem rowConv_batchTile : BatchTile spadHardware128 rowConv ⟨1, 1, 1, 2, 8, 8, 8⟩ :=
  ⟨by decide, by decide, laneShaped_eight, laneShaped_eight, by decide, by decide, by decide,
    by decide, by decide, by decide⟩

/-- The template computes the convolution with a bias, not with a dilation, and not without a bias
in tiles of two columns. -/
theorem conv_computes_iff_small :
    ConvTemplate.Computes ℚ columnConv [2, 3, 0, 1]
        (columnConv.renderConv spadHardware128 ⟨2, 1, 4, 1, 8, 8, 8⟩) ∧
      ¬ ConvTemplate.Computes ℚ dilatedColumnConv [2, 3, 0, 1]
        (dilatedColumnConv.renderConv spadHardware128 ⟨2, 1, 3, 1, 8, 8, 8⟩) ∧
      ¬ ConvTemplate.Computes ℚ rowConv [2, 3, 0, 1]
        (rowConv.renderConv spadHardware128 ⟨1, 1, 1, 2, 8, 8, 8⟩) := by
  rw [((conv_computes_iff ℚ spadHardware128 columnConv).2 _ columnConv_batchTile).1,
    ((conv_computes_iff ℚ spadHardware128 dilatedColumnConv).2 _ dilatedColumnConv_batchTile).1,
    ((conv_computes_iff ℚ spadHardware128 rowConv).2 _ rowConv_batchTile).1]
  decide +kernel

/-! ## The template for few channels -/

/-- The search for the template chooses tiles for batches. -/
theorem batchTile_of_mem_multiTile {hw : SpadHardware} {t : ConvTemplate}
    (hlanes : 8 ∣ hw.vectorLane) (hbatch : 0 < t.batch) {precisionBytes : ℕ}
    {hprecision : 0 < precisionBytes} {tiles : List ConvTile}
    (h : convMultiTileMapping hw (t.problem t.kW precisionBytes hprecision) = .ok tiles) :
    ∀ tile ∈ tiles, BatchTile hw t tile := by
  intro tile htile
  unfold convMultiTileMapping at h
  cases hgemm : gemmCombinationMapping hw (t.problem t.kW precisionBytes hprecision).M
      (t.problem t.kW precisionBytes hprecision).N
      ((t.problem t.kW precisionBytes hprecision).K *
        (t.problem t.kW precisionBytes hprecision).kernelW)
      (t.problem t.kW precisionBytes hprecision).nExtraNode
      (t.problem t.kW precisionBytes hprecision).precisionBytes with
  | nil => simp [hgemm] at h
  | cons sizes rest =>
      obtain ⟨m, n, k⟩ := sizes
      rw [hgemm] at h
      have hmem := mem_space_of_convSearch h htile
      obtain ⟨hm, hn, hk, hk8⟩ := shaped_of_mem_gemmCombinationMapping hlanes hbatch t.oC_pos
        (hgemm ▸ List.mem_cons_self)
      simp only [multiTileSpace, List.mem_flatMap, List.mem_map] at hmem
      obtain ⟨oH, hoH, oW, hoW, kH, hkH, rfl⟩ := hmem
      exact {
        rows := by dsimp only; omega
        depth := by dsimp only; omega
        columns := hn
        channels := hk
        kH_pos := pos_of_mem_divisors hkH
        kW_pos := t.kernel_pos.2
        oH_pos := pos_of_mem_divisors hoH
        oW_pos := pos_of_mem_divisors hoW
        oH_le := le_of_mem_divisors hoH
        oW_le := le_of_mem_divisors hoW }

/-- The address of an element of the padded input, in the order (I_H, BATCH, I_W, I_C). -/
def multiTilePlace (t : ConvTemplate) (b c i j : ℕ) : ℕ :=
  ravel [t.paddedH, t.batch, t.paddedW, t.iC] [i, b, j, c]

section MultiTile

variable {hw : SpadHardware} {t : ConvTemplate} {tile : ConvTile}

theorem multiTile_batchProgram : BatchProgram hw t tile (t.renderMultiTile hw tile) where
  vectorLane := rfl
  outerLoops := rfl
  bound_c0 := rfl
  y := rfl
  bias := rfl
  zeroSize := rfl
  tileM := rfl
  tileN := rfl
  tileOH := rfl
  tileOW := rfl
  offsetY := rfl

section Loads

variable (htile : BatchTile hw t tile)
include htile

variable {R : Type} [Semiring R] (mem : ConvMemory R) (point : ConvIndex)

/-- What the view of the input holds: `k` counts the places of a row from the one that the output
column meets first. -/
theorem multiTile_load_x (buffer : ℕ × ℕ → R) {a b kh i k : ℕ} (ha : a < tile.oH)
    (hb : b < tile.oW) (hkh : kh < tile.kH) (hi : i < tile.m) (hk : k < tile.k) (kw : ℕ) :
    (t.renderMultiTile hw tile).load (t.renderMultiTile hw tile).x mem.x
        ((t.renderMultiTile hw tile).applyMaps point) buffer
        (viewPlace hw.vectorLane tile.m ((t.renderMultiTile hw tile).viewX a b kh kw) i k) =
      if point .oW + b < t.oW ∧ point .tileM + i < t.batch ∧ point .tileK + k < t.iC * t.kW then
        mem.x (ravel [t.paddedH, t.batch, t.paddedW, t.iC]
          [(point .oH + a) * t.stride.1 + (point .kH + kh), point .tileM + i,
            (point .oW + b) * t.stride.2, point .tileK + k])
      else 0 := by
  have hrow : a * t.stride.1 + kh < t.tileIH tile := by
    rw [Nat.mul_comm]
    exact lt_inputExtent t.dilation_pos.1 ha hkh
  have hview := viewPlace_eq htile.channels htile.rows htile.oW_pos (a * t.stride.1 + kh)
    (1 * b + 0 * kw) i k
  rw [Nat.zero_mul, Nat.add_zero, Nat.one_mul] at hview
  have hoffset : (t.renderMultiTile hw tile).viewX a b kh kw =
      Model.getSpadSizePerLane hw.vectorLane (tile.oW * tile.m) tile.k * (a * t.stride.1 + kh) +
        Model.getSpadSizePerLane hw.vectorLane tile.m tile.k * b := by
    simp [ConvProgram.viewX, ConvTemplate.renderMultiTile]
  rw [hoffset, hview]
  refine (load_matrices rfl htile.channels _ _ _ _ _ hrow hb hi hk).trans ?_
  simp [ConvProgram.inBounds, ConvProgram.bound, ConvProgram.applyMaps,
    ConvTemplate.renderMultiTile, ConvDma.address, ConvTerm.value, ConvTerm.dramStride, ravel]
  congr 2
  ring

/-- What the view of the weight holds: `k` counts the places of a row of the kernel. -/
theorem multiTile_load_w (hc0 : point .c0 = 0) (buffer : ℕ × ℕ → R) {kh k j : ℕ}
    (hkh : kh < tile.kH) (hk : k < tile.k) (hj : j < tile.n) :
    (t.renderMultiTile hw tile).load (t.renderMultiTile hw tile).w mem.w
        ((t.renderMultiTile hw tile).applyMaps point) buffer
        (viewPlace hw.vectorLane tile.k ((t.renderMultiTile hw tile).viewW kh 0) k j) =
      if point .kH + kh < t.kH ∧ point .tileK + k < t.iC * t.kW ∧ point .tileN + j < t.oC then
        mem.w (ravel [t.kH, t.kW, t.iC, t.oC]
          [point .kH + kh, 0, point .tileK + k, point .tileN + j])
      else 0 := by
  have hweight : (t.renderMultiTile hw tile).w =
      ⟨[tile.kH, 1, tile.k, tile.n], [1 * tile.k * tile.n, tile.k * tile.n, 1, tile.k], 3,
        (t.renderMultiTile hw tile).w.indexList, 0⟩ := by
    simp [ConvTemplate.renderMultiTile]
  rw [hweight]
  refine (congrArg _ (viewPlace_eq htile.columns htile.depth Nat.one_pos kh 0 k j)).trans ?_
  refine (load_matrices rfl htile.columns _ _ _ _ _ hkh Nat.one_pos hk hj).trans ?_
  simp [ConvProgram.inBounds, ConvProgram.bound, ConvProgram.applyMaps,
    ConvTemplate.renderMultiTile, ConvDma.address, ConvTerm.value, ConvTerm.dramStride, ravel,
    hc0]
  congr 2
  ring

end Loads

/-- The places of a row of the kernel are its columns and the channels of the input. -/
theorem memorySum_multiTile {R : Type} [Semiring R] (mem : ConvMemory R) (row : ℕ → ℕ) (j b n : ℕ) :
    ConvTemplate.memorySum t (multiTilePlace t) mem row (fun kw => j * t.stride.2 + kw) b n =
      ∑ kh ∈ range t.kH, ∑ k ∈ range (t.iC * t.kW),
        mem.x (ravel [t.paddedH, t.batch, t.paddedW, t.iC] [row kh, b, j * t.stride.2, k]) *
          mem.w (ravel [t.kH, t.kW, t.iC, t.oC] [kh, 0, k, n]) := by
  unfold ConvTemplate.memorySum multiTilePlace
  apply sum_congr rfl
  intro kh _
  rw [Nat.mul_comm t.iC, sum_range_rows]
  apply sum_congr rfl
  intro kw _
  apply sum_congr rfl
  intro c _
  congr 2 <;>
    · simp only [ravel, List.prod_cons, List.prod_nil]
      ring

/-- **An element of a finished tile** is what it started from, and the whole sum. -/
theorem multiTile_sums (R : Type) [Semiring R] (htile : BatchTile hw t tile) :
    BatchSums R hw t tile (multiTilePlace t) (t.renderMultiTile hw tile) where
  sum := by
    intro mem point s hc0 a ha b hb i hi j hj hrow hcol hwidth
    have hdepth : 0 < tile.k := by
      have := htile.depth
      omega
    rw [← multiTile_batchProgram.cell_eq htile]
    refine (ConvProgram.outputTile_cell (t.renderMultiTile hw tile) mem point s
      (multiTile_batchProgram.cellsDistinct htile) ha hb hi hj (fun q kh _ k =>
        (if q .oW + b < t.oW ∧ q .tileM + i < t.batch ∧ q .tileK + k < t.iC * t.kW then
          mem.x (ravel [t.paddedH, t.batch, t.paddedW, t.iC]
            [(q .oH + a) * t.stride.1 + (q .kH + kh), q .tileM + i, (q .oW + b) * t.stride.2,
              q .tileK + k]) else 0) *
        (if q .kH + kh < t.kH ∧ q .tileK + k < t.iC * t.kW ∧ q .tileN + j < t.oC then
          mem.w (ravel [t.kH, t.kW, t.iC, t.oC] [q .kH + kh, 0, q .tileK + k, q .tileN + j])
          else 0)) ?_).trans ?_
    · intro q hq xBuffer wBuffer kh hkh kw hkw k hk
      obtain rfl : kw = 0 := Nat.lt_one_iff.mp hkw
      have hqc0 : q .c0 = 0 :=
        (apply_of_mem_nestPoints (by simp [ConvTemplate.renderMultiTile]) hq).trans hc0
      exact congrArg₂ (· * ·) (multiTile_load_x htile mem q xBuffer ha hb hkh hi hk 0)
        (multiTile_load_w htile mem q hqc0 wBuffer hkh hk hj)
    · congr 1
      rw [memorySum_multiTile]
      have htiles := sum_masked_tiles_triple (fun kh _ k =>
        mem.x (ravel [t.paddedH, t.batch, t.paddedW, t.iC]
          [(point .oH + a) * t.stride.1 + kh, point .tileM + i, (point .oW + b) * t.stride.2, k]) *
          mem.w (ravel [t.kH, t.kW, t.iC, t.oC] [kh, 0, k, point .tileN + j]))
        (le_ceilDiv_mul (a := t.kH) htile.kH_pos) (by decide : 1 ≤ 1 * 1)
        (le_ceilDiv_mul (a := t.iC * t.kW) hdepth)
      simp only [sum_range_one, Nat.zero_mul, Nat.add_zero, Nat.one_pos, true_and] at htiles
      rw [← htiles]
      simp only [ConvTemplate.renderMultiTile, nestSum]
      apply sum_congr rfl
      intro qh _
      apply sum_congr rfl
      intro qk _
      apply sum_congr rfl
      intro kh _
      rw [sum_range_one]
      apply sum_congr rfl
      intro k _
      by_cases hin : qh * tile.kH + kh < t.kH ∧ qk * tile.k + k < t.iC * t.kW
      · simp [hin, hrow, hcol, hwidth]
      · have hweight : ¬ (qh * tile.kH + kh < t.kH ∧ qk * tile.k + k < t.iC * t.kW ∧
            point .tileN + j < t.oC) := by
          tauto
        simp [hin, hweight]
  zero := by
    intro point s a ha b hb i hi j hj
    rw [← multiTile_batchProgram.cell_eq htile]
    refine (ConvProgram.outputTile_cell (t.renderMultiTile hw tile) _ point s
      (multiTile_batchProgram.cellsDistinct htile) ha hb hi hj (fun _ _ _ _ => 0) ?_).trans ?_
    · intro q _ xBuffer wBuffer kh hkh kw hkw k hk
      refine (congrArg (· * _) (multiTile_load_x htile _ q xBuffer ha hb hkh hi hk kw)).trans ?_
      simp
    · simp [nestSum_zero]

/-- The input as the wrapper turns it for the kernel. -/
theorem multiTile_operands_x {α : Type} [Field α] (x w bias : Tensor α) : ∀ b < t.batch,
    ∀ c < t.iC, ∀ i < t.paddedH, ∀ j < t.paddedW,
      (t.operands [2, 0, 3, 1] x w bias).x (multiTilePlace t b c i j) =
        (t.padInput x).get [b, c, i, j] := by
  intro b hb c hc i hi j hj
  have hin : InShape [t.paddedH, t.batch, t.paddedW, t.iC] [i, b, j, c] :=
    .cons hi (.cons hb (.cons hj (.cons hc .nil)))
  exact ConvTemplate.operands_x t [2, 0, 3, 1] x w bias hin

end MultiTile

/-- **The template for few channels computes the convolution** under the same condition as the
template for batches: the batch is empty, or the positions of the kernel meet the same pixels
whether the dilation is counted or not and there is a bias or the tiles of the output have one
column.  The search chooses such tiles, and nothing but the output is written. -/
theorem multiTile_computes_iff (α : Type) [Field α] (hw : SpadHardware) (t : ConvTemplate) :
    (8 ∣ hw.vectorLane → 0 < t.batch → ∀ precisionBytes hprecision tiles,
      convMultiTileMapping hw (t.problem t.kW precisionBytes hprecision) = .ok tiles →
        ∀ tile ∈ tiles, BatchTile hw t tile) ∧
    ∀ tile, BatchTile hw t tile →
      (ConvTemplate.Computes α t [2, 0, 3, 1] (t.renderMultiTile hw tile) ↔
        (0 < t.batch → (0 < t.iC → ConvTemplate.SamePixels t (fun i kh => i * t.stride.1 + kh)
          (ConvTemplate.dilatedRow t) (fun j kw => j * t.stride.2 + kw)
          (ConvTemplate.dilatedCol t)) ∧ (t.biasOffset.isSome ∨ tile.oW = 1))) ∧
      ∀ (mem : ConvMemory α) (s : ConvState α) (a : ℕ),
        (∀ g, InShape (ConvTemplate.outputShape t) g →
          ravel (ConvTemplate.outputShape t) g ≠ a) →
        ((t.renderMultiTile hw tile).run mem s).y a = s.y a := by
  constructor
  · intro hlanes hbatch precisionBytes hprecision tiles
    exact batchTile_of_mem_multiTile hlanes hbatch
  · intro tile htile
    constructor
    · exact batch_computes multiTile_batchProgram htile (multiTile_sums α htile)
        multiTile_operands_x
    · intro mem s a ha
      exact ConvProgram.run_frame mem s (multiTile_batchProgram.stores htile) a ha

/-- The template computes the convolution with a bias, not with a dilation, and not without a bias
in tiles of two columns. -/
theorem multiTile_computes_iff_small :
    ConvTemplate.Computes ℚ columnConv [2, 0, 3, 1]
        (columnConv.renderMultiTile spadHardware128 ⟨2, 1, 4, 1, 8, 8, 8⟩) ∧
      ¬ ConvTemplate.Computes ℚ dilatedColumnConv [2, 0, 3, 1]
        (dilatedColumnConv.renderMultiTile spadHardware128 ⟨2, 1, 3, 1, 8, 8, 8⟩) ∧
      ¬ ConvTemplate.Computes ℚ rowConv [2, 0, 3, 1]
        (rowConv.renderMultiTile spadHardware128 ⟨1, 1, 1, 2, 8, 8, 8⟩) := by
  rw [((multiTile_computes_iff ℚ spadHardware128 columnConv).2 _ columnConv_batchTile).1,
    ((multiTile_computes_iff ℚ spadHardware128 dilatedColumnConv).2 _
      dilatedColumnConv_batchTile).1,
    ((multiTile_computes_iff ℚ spadHardware128 rowConv).2 _ rowConv_batchTile).1]
  decide +kernel

end PyTorchSim.Analysis
