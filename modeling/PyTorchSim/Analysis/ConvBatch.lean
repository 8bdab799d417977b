import PyTorchSim.Analysis.CatKernel
import PyTorchSim.Analysis.ConvOperands
import PyTorchSim.Analysis.ConvTiles

/-!
# The templates of convolutions for batches

Three of the four templates go through the places of the kernel and the channels of the input, and
add the products of a window of the input with the weight.

Two templates go through the output by batch, channel, row and column, and start a tile from the
bias or set as many places of each lane to zero as the rows of the tile have.  A tile with several
columns then keeps what its last places held.
-/

set_option autoImplicit false

namespace PyTorchSim.Analysis

open Finset Frontend Frontend.CatProgram Library
open PyTorchSim.Model (getSpadSizePerLane)

/-! ## Loads of stacks of matrices -/

theorem mem_coordinates {n₀ n₁ n₂ n₃ : ℕ} {strides : List ℕ} {axis : ℕ} {indexList : List ConvTerm}
    {offset : ℕ} {c : List ℕ} :
    c ∈ (ConvDma.mk [n₀, n₁, n₂, n₃] strides axis indexList offset).coordinates ↔
      ∃ i₀ < n₀, ∃ i₁ < n₁, ∃ i₂ < n₂, ∃ i₃ < n₃, c = [i₀, i₁, i₂, i₃] := by
  simp [ConvDma.coordinates, product, eq_comm, and_assoc]

section Loads

variable {R : Type} [Semiring R] {p : ConvProgram} {vectorLane rows size height width : ℕ}
  {a b i j : ℕ}

/-- A load of a stack of matrices. -/
theorem load_matrices (hp : p.vectorLane = vectorLane) (h : LaneShaped vectorLane size)
    (indexList : List ConvTerm) (offset : ℕ) (dram : ℕ → R) (index : ConvIndex)
    (buffer : ℕ × ℕ → R) (ha : a < height) (hb : b < width) (hi : i < rows) (hj : j < size) :
    p.load ⟨[height, width, rows, size], [width * rows * size, rows * size, 1, rows], 3, indexList,
        offset⟩ dram index buffer (planePlace vectorLane rows size width a b i j) =
      if p.inBounds ⟨[height, width, rows, size], [width * rows * size, rows * size, 1, rows], 3,
          indexList, offset⟩ index [a, b, i, j] then
        dram (ConvDma.address ⟨[height, width, rows, size],
          [width * rows * size, rows * size, 1, rows], 3, indexList, offset⟩ index [a, b, i, j])
      else 0 := by
  have hrows : 0 < rows := by omega
  have hcell : ConvDma.place ⟨[height, width, rows, size],
      [width * rows * size, rows * size, 1, rows], 3, indexList, offset⟩ vectorLane [a, b, i, j] =
      planePlace vectorLane rows size width a b i j := place_matrices h hrows _ _ a b i j
  rw [← hcell, ← hp]
  apply ConvProgram.load_place
  · exact mem_coordinates.mpr ⟨a, ha, b, hb, i, hi, j, hj, rfl⟩
  · intro c hc hplace
    obtain ⟨a', ha', b', hb', i', hi', j', hj', rfl⟩ := mem_coordinates.mp hc
    rw [hp, place_matrices h hrows, place_matrices h hrows] at hplace
    obtain ⟨rfl, rfl, rfl, rfl⟩ := planePlace_inj h hb' hi' hj' hb hi hj hplace
    rfl

/-- A load of a tile like that of the output. -/
theorem load_output (hp : p.vectorLane = vectorLane) (h : LaneShaped vectorLane size)
    (indexList : List ConvTerm) (offset : ℕ) (dram : ℕ → R) (index : ConvIndex)
    (buffer : ℕ × ℕ → R) (ha : a < height) (hb : b < width) (hi : i < rows) (hj : j < size) :
    p.load ⟨[rows, size, height, width], [1, rows, width * rows * size, rows * size], 1, indexList,
        offset⟩ dram index buffer (planePlace vectorLane rows size width a b i j) =
      if p.inBounds ⟨[rows, size, height, width], [1, rows, width * rows * size, rows * size], 1,
          indexList, offset⟩ index [i, j, a, b] then
        dram (ConvDma.address ⟨[rows, size, height, width],
          [1, rows, width * rows * size, rows * size], 1, indexList, offset⟩ index [i, j, a, b])
      else 0 := by
  have hrows : 0 < rows := by omega
  have hcell : ConvDma.place ⟨[rows, size, height, width],
      [1, rows, width * rows * size, rows * size], 1, indexList, offset⟩ vectorLane [i, j, a, b] =
      planePlace vectorLane rows size width a b i j := place_output h hrows _ _ a b i j
  rw [← hcell, ← hp]
  apply ConvProgram.load_place
  · exact mem_coordinates.mpr ⟨i, hi, j, hj, a, ha, b, hb, rfl⟩
  · intro c hc hplace
    obtain ⟨i', hi', j', hj', a', ha', b', hb', rfl⟩ := mem_coordinates.mp hc
    rw [hp, place_output h hrows, place_output h hrows] at hplace
    obtain ⟨rfl, rfl, rfl, rfl⟩ := planePlace_inj h hb' hi' hj' hb hi hj hplace
    rfl

end Loads

/-! ## Windows -/

/-- A part of the output reads no place behind the tile of the input. -/
theorem lt_inputExtent {output kernel stride dilation a k : ℕ} (hdilation : 0 < dilation)
    (ha : a < output) (hk : k < kernel) :
    stride * a + k < inputExtent output kernel stride dilation := by
  have houtput : stride * a ≤ (output - 1) * stride := by
    rw [Nat.mul_comm]
    exact Nat.mul_le_mul_right _ (by omega)
  have hkernel : k ≤ (kernel - 1) * dilation := by
    calc
      k ≤ kernel - 1 := by omega
      _ ≤ (kernel - 1) * dilation := Nat.le_mul_of_pos_right _ hdilation
  unfold inputExtent
  omega

/-- What the programs that go through the places of the kernel and the channels of the input have in
common. -/
structure WindowProgram (hw : SpadHardware) (t : ConvTemplate) (tile : ConvTile)
    (p : ConvProgram) : Prop where
  vectorLane : p.vectorLane = hw.vectorLane
  accumulationLoops : p.accumulationLoops =
    [⟨.kH, t.kH, tile.kH⟩, ⟨.kW, t.kW, tile.kW⟩, ⟨.tileK, t.iC, tile.k⟩]
  bound_kH : p.bound .kH = some t.kH
  bound_kW : p.bound .kW = some t.kW
  bound_tileK : p.bound .tileK = some t.iC
  bound_tileN : p.bound .tileN = some t.oC
  keeps : ∀ var ∈ [ConvVar.kH, .kW, .tileK, .tileN], ∀ index, p.applyMaps index var = index var
  w : p.w = t.weightDma tile
  tileN : p.tileN = tile.n
  tileK : p.tileK = tile.k
  tileKH : p.tileKH = tile.kH
  tileKW : p.tileKW = tile.kW
  offsetW : p.offsetW = (getSpadSizePerLane hw.vectorLane (tile.kW * tile.k) tile.n,
    getSpadSizePerLane hw.vectorLane tile.k tile.n)

namespace WindowProgram

variable {hw : SpadHardware} {t : ConvTemplate} {tile : ConvTile} {p : ConvProgram}
  (hp : WindowProgram hw t tile p) (hcolumns : LaneShaped hw.vectorLane tile.n)
  (hdepth : 2 ≤ tile.k) (hkW : 0 < tile.kW) (hkH : 0 < tile.kH) {R : Type} [Semiring R]
  (mem : ConvMemory R) (point : ConvIndex)
include hp hcolumns hdepth hkW

/-- What the view of the weight holds. -/
theorem load_w (buffer : ℕ × ℕ → R) {kh kw k j : ℕ} (hkh : kh < tile.kH) (hkw : kw < tile.kW)
    (hk : k < tile.k) (hj : j < tile.n) :
    p.load p.w mem.w (p.applyMaps point) buffer
        (viewPlace p.vectorLane p.tileK (p.viewW kh kw) k j) =
      if point .kH + kh < t.kH ∧ point .kW + kw < t.kW ∧ point .tileK + k < t.iC ∧
          point .tileN + j < t.oC then
        mem.w (ravel [t.kH, t.kW, t.iC, t.oC]
          [point .kH + kh, point .kW + kw, point .tileK + k, point .tileN + j])
      else 0 := by
  have hview : viewPlace p.vectorLane p.tileK (p.viewW kh kw) k j =
      planePlace hw.vectorLane tile.k tile.n tile.kW kh kw k j := by
    rw [ConvProgram.viewW, hp.vectorLane, hp.tileK, hp.offsetW]
    exact viewPlace_eq hcolumns hdepth hkW kh kw k j
  rw [hview, hp.w]
  refine (load_matrices hp.vectorLane hcolumns _ _ _ _ _ hkh hkw hk hj).trans ?_
  simp [ConvProgram.inBounds, ConvDma.address, ConvTerm.value, ConvTerm.dramStride, ravel,
    hp.bound_kH, hp.bound_kW, hp.bound_tileK, hp.bound_tileN, hp.keeps]
  congr 2
  ring

variable {a b i j : ℕ} (hcells : ConvProgram.CellsDistinct p) (ha : a < p.tileOH)
  (hb : b < p.tileOW) (hi : i < p.tileM) (hj : j < p.tileN) (s : ConvState R)
include hcells ha hb hi hj

include hkH in
/-- **The accumulation loops add the sum over the window**, where the views of the input hold what
`x` says. -/
theorem outputTile_cell (hcol : point .tileN + j < t.oC)
    (x : ℕ → ℕ → ℕ → R)
    (hx : ∀ q : ConvIndex, (∀ var ∉ [ConvVar.kH, .kW, .tileK], q var = point var) →
      ∀ buffer, ∀ kh < tile.kH, ∀ kw < tile.kW, ∀ k < tile.k, q .kH + kh < t.kH →
        q .kW + kw < t.kW → q .tileK + k < t.iC →
          p.load p.x mem.x (p.applyMaps q) buffer
              (viewPlace p.vectorLane p.tileM (p.viewX a b kh kw) i k) =
            x (q .kH + kh) (q .kW + kw) (q .tileK + k)) :
    (p.outputTile mem point s).yBuffer (ConvProgram.cell p a b i j) =
      p.start mem point s.yBuffer (ConvProgram.cell p a b i j) +
        ∑ kh ∈ range t.kH, ∑ kw ∈ range t.kW, ∑ c ∈ range t.iC, x kh kw c *
          mem.w (ravel [t.kH, t.kW, t.iC, t.oC] [kh, kw, c, point .tileN + j]) := by
  refine (ConvProgram.outputTile_cell p mem point s hcells ha hb hi hj (fun q kh kw k =>
    if q .kH + kh < t.kH ∧ q .kW + kw < t.kW ∧ q .tileK + k < t.iC then
      x (q .kH + kh) (q .kW + kw) (q .tileK + k) * mem.w (ravel [t.kH, t.kW, t.iC, t.oC]
        [q .kH + kh, q .kW + kw, q .tileK + k, point .tileN + j])
    else 0) ?_).trans ?_
  · intro q hq xBuffer wBuffer kh hkh kw hkw k hk
    rw [hp.tileKH] at hkh
    rw [hp.tileKW] at hkw
    rw [hp.tileK] at hk
    rw [hp.tileN] at hj
    have hsame : ∀ var ∉ [ConvVar.kH, .kW, .tileK], q var = point var := by
      intro var hvar
      rw [hp.accumulationLoops] at hq
      exact apply_of_mem_nestPoints (by simpa using hvar) hq
    rw [hp.load_w hcolumns hdepth hkW mem q wBuffer hkh hkw hk hj, hsame .tileN (by simp)]
    by_cases hin : q .kH + kh < t.kH ∧ q .kW + kw < t.kW ∧ q .tileK + k < t.iC
    · rw [hx q hsame xBuffer kh hkh kw hkw k hk hin.1 hin.2.1 hin.2.2, if_pos hin,
        if_pos ⟨hin.1, hin.2.1, hin.2.2, hcol⟩]
    · rw [if_neg hin, if_neg fun h => hin ⟨h.1, h.2.1, h.2.2.1⟩, mul_zero]
  · congr 1
    have hdepth : 0 < tile.k := by omega
    rw [hp.accumulationLoops, hp.tileKH, hp.tileKW, hp.tileK]
    rw [← sum_masked_tiles_triple _ (le_ceilDiv_mul hkH) (le_ceilDiv_mul hkW)
      (le_ceilDiv_mul hdepth)]
    simp [nestSum]

/-- The accumulation loops add nothing for a weight of zeros. -/
theorem outputTile_zero (x bias : ℕ → R) :
    (p.outputTile ⟨x, fun _ => 0, bias⟩ point s).yBuffer (ConvProgram.cell p a b i j) =
      p.start ⟨x, fun _ => 0, bias⟩ point s.yBuffer (ConvProgram.cell p a b i j) := by
  refine (ConvProgram.outputTile_cell p _ point s hcells ha hb hi hj (fun _ _ _ _ => 0) ?_).trans ?_
  · intro q _ xBuffer wBuffer kh hkh kw hkw k hk
    rw [hp.tileKH] at hkh
    rw [hp.tileKW] at hkw
    rw [hp.tileK] at hk
    rw [hp.tileN] at hj
    rw [hp.load_w hcolumns hdepth hkW _ q wBuffer hkh hkw hk hj]
    simp
  · simp [nestSum_zero]

end WindowProgram

/-! ## Tiles -/

/-- What the tiles of the searches have in common. -/
structure BatchTile (hw : SpadHardware) (t : ConvTemplate) (tile : ConvTile) : Prop where
  rows : 2 ≤ tile.m
  depth : 2 ≤ tile.k
  columns : LaneShaped hw.vectorLane tile.n
  channels : LaneShaped hw.vectorLane tile.k
  kH_pos : 0 < tile.kH
  kW_pos : 0 < tile.kW
  oH_pos : 0 < tile.oH
  oW_pos : 0 < tile.oW
  oH_le : tile.oH ≤ t.oH
  oW_le : tile.oW ≤ t.oW

/-- The element that a place of a tile of a batch belongs to. -/
def batchElement (index : ConvIndex) : List ℕ → List ℕ
  | [i, j, a, b] => [index .tileM + i, index .tileN + j, index .oH + a, index .oW + b]
  | _ => []

/-! ## Programs -/

/-- What the programs of the two templates have in common. -/
structure BatchProgram (hw : SpadHardware) (t : ConvTemplate) (tile : ConvTile)
    (p : ConvProgram) : Prop where
  vectorLane : p.vectorLane = hw.vectorLane
  outerLoops : p.outerLoops = [⟨.tileM, t.batch, tile.m⟩, ⟨.tileN, t.oC, tile.n⟩,
    ⟨.oH, t.oH, tile.oH⟩, ⟨.oW, t.oW, tile.oW⟩]
  bound_c0 : p.bound .c0 = none
  y : p.y = t.outputDma tile
  bias : p.bias = t.biasOffset.map (ConvTemplate.biasDma (t.outputDma tile))
  zeroSize : p.zeroSize = getSpadSizePerLane hw.vectorLane (tile.oH * tile.m) tile.n
  tileM : p.tileM = tile.m
  tileN : p.tileN = tile.n
  tileOH : p.tileOH = tile.oH
  tileOW : p.tileOW = tile.oW
  offsetY : p.offsetY = (getSpadSizePerLane hw.vectorLane (tile.oW * tile.m) tile.n,
    getSpadSizePerLane hw.vectorLane tile.m tile.n)

section Batch

variable {hw : SpadHardware} {t : ConvTemplate} {tile : ConvTile} {p : ConvProgram}
  (hp : BatchProgram hw t tile p) (point : ConvIndex)

namespace BatchProgram
include hp

theorem bound_tileM : p.bound .tileM = some t.batch := by
  simp [ConvProgram.bound, hp.outerLoops]

theorem bound_tileN : p.bound .tileN = some t.oC := by
  simp [ConvProgram.bound, hp.outerLoops]

theorem bound_oH : p.bound .oH = some t.oH := by
  simp [ConvProgram.bound, hp.outerLoops]

theorem bound_oW : p.bound .oW = some t.oW := by
  simp [ConvProgram.bound, hp.outerLoops]

/-- The elements that a tile stores. -/
theorem mem_stored {c : List ℕ} : c ∈ ConvProgram.stored p point ↔
    ∃ i < tile.m, ∃ j < tile.n, ∃ a < tile.oH, ∃ b < tile.oW, c = [i, j, a, b] ∧
      point .tileM + i < t.batch ∧ point .tileN + j < t.oC ∧ point .oH + a < t.oH ∧
        point .oW + b < t.oW := by
  have hcoordinates : c ∈ p.y.coordinates ↔
      ∃ i < tile.m, ∃ j < tile.n, ∃ a < tile.oH, ∃ b < tile.oW, c = [i, j, a, b] := by
    rw [hp.y]
    exact mem_coordinates
  have hbounds : ∀ i j a b, p.inBounds p.y point [i, j, a, b] = true ↔
      point .tileM + i < t.batch ∧ point .tileN + j < t.oC ∧ point .oH + a < t.oH ∧
        point .oW + b < t.oW := by
    intro i j a b
    simp [ConvProgram.inBounds, hp.y, ConvTemplate.outputDma, hp.bound_tileM, hp.bound_tileN,
      hp.bound_oH, hp.bound_oW]
  unfold ConvProgram.stored
  rw [List.mem_filter, hcoordinates]
  constructor
  · rintro ⟨⟨i, hi, j, hj, a, ha, b, hb, rfl⟩, hin⟩
    exact ⟨i, hi, j, hj, a, ha, b, hb, rfl, (hbounds i j a b).mp hin⟩
  · rintro ⟨i, hi, j, hj, a, ha, b, hb, rfl, hin⟩
    exact ⟨⟨i, hi, j, hj, a, ha, b, hb, rfl⟩, (hbounds i j a b).mpr hin⟩

/-- The tiles of the output start at multiples of their sizes. -/
theorem outputPoints_oH_oW (hpoint : point ∈ ConvProgram.outputPoints p) :
    ∃ q r, point .oH = q * tile.oH ∧ point .oW = r * tile.oW := by
  simp only [ConvProgram.outputPoints, hp.outerLoops, nestPoints, List.mem_flatMap,
    List.mem_singleton, loopRange, List.mem_map] at hpoint
  obtain ⟨_, -, _, -, _, ⟨q, -, rfl⟩, _, ⟨r, -, rfl⟩, rfl⟩ := hpoint
  exact ⟨q, r, by simp, by simp⟩

/-- Nothing counts with the constant. -/
theorem outputPoints_c0 (hpoint : point ∈ ConvProgram.outputPoints p) : point .c0 = 0 := by
  rw [ConvProgram.outputPoints, hp.outerLoops] at hpoint
  exact apply_of_mem_nestPoints (by simp) hpoint

variable (htile : BatchTile hw t tile)
include htile

theorem cell_eq (a b i j : ℕ) :
    ConvProgram.cell p a b i j = planePlace hw.vectorLane tile.m tile.n tile.oW a b i j := by
  unfold ConvProgram.cell ConvProgram.viewY
  rw [hp.vectorLane, hp.tileM, hp.offsetY]
  exact viewPlace_eq htile.columns htile.rows htile.oW_pos a b i j

theorem cellsDistinct : ConvProgram.CellsDistinct p := by
  intro a b i j a' b' i' j' _ hb hi hj _ hb' hi' hj' heq
  rw [hp.tileOW] at hb hb'
  rw [hp.tileM] at hi hi'
  rw [hp.tileN] at hj hj'
  rw [hp.cell_eq htile, hp.cell_eq htile] at heq
  exact planePlace_inj htile.columns hb hi hj hb' hi' hj' heq

/-- The tiles store the elements of the output. -/
theorem stores : ConvProgram.Stores p (ConvTemplate.outputShape t) batchElement where
  inShape := by
    intro point _ c hc
    obtain ⟨i, _, j, _, a, _, b, _, rfl, h₁, h₂, h₃, h₄⟩ := (hp.mem_stored point).mp hc
    exact .cons h₁ (.cons h₂ (.cons h₃ (.cons h₄ .nil)))
  address := by
    intro point _ c hc
    obtain ⟨i, _, j, _, a, _, b, _, rfl, -⟩ := (hp.mem_stored point).mp hc
    simp [hp.y, ConvTemplate.outputDma, ConvDma.address, ConvTerm.value, ConvTerm.dramStride,
      ravel, ConvTemplate.outputShape, batchElement]
    ring
  covered := by
    intro g hg
    obtain ⟨b, n, i, j, rfl, hb, hn, hi, hj⟩ := inShape_four hg
    have hm : 0 < tile.m := by
      have := htile.rows
      omega
    have hcolumns := htile.columns.pos
    refine ⟨Function.update (Function.update (Function.update (Function.update (fun _ => 0) .tileM
      (b / tile.m * tile.m)) .tileN (n / tile.n * tile.n)) .oH (i / tile.oH * tile.oH)) .oW
      (j / tile.oW * tile.oW), ?_, [b % tile.m, n % tile.n, i % tile.oH, j % tile.oW], ?_, ?_⟩
    · rw [ConvProgram.outputPoints, hp.outerLoops]
      refine List.mem_flatMap.mpr ⟨_, mem_loopRange_of_lt hm hb, ?_⟩
      refine List.mem_flatMap.mpr ⟨_, mem_loopRange_of_lt hcolumns hn, ?_⟩
      refine List.mem_flatMap.mpr ⟨_, mem_loopRange_of_lt htile.oH_pos hi, ?_⟩
      refine List.mem_flatMap.mpr ⟨_, mem_loopRange_of_lt htile.oW_pos hj, ?_⟩
      exact List.mem_singleton_self _
    · refine (hp.mem_stored _).mpr ⟨_, Nat.mod_lt _ hm, _, Nat.mod_lt _ hcolumns, _,
        Nat.mod_lt _ htile.oH_pos, _, Nat.mod_lt _ htile.oW_pos, rfl, ?_⟩
      simpa [Nat.div_add_mod'] using ⟨hb, hn, hi, hj⟩
    · simp [batchElement, Nat.div_add_mod']

/-- The place of an element of the output. -/
theorem place_y (a b i j : ℕ) : p.y.place p.vectorLane [i, j, a, b] =
    planePlace hw.vectorLane tile.m tile.n tile.oW a b i j := by
  have hm : 0 < tile.m := by
    have := htile.rows
    omega
  rw [hp.y, hp.vectorLane]
  exact place_output htile.columns hm _ _ a b i j

variable {R : Type} [Semiring R] (mem : ConvMemory R)

/-- The accumulation starts from the bias. -/
theorem start_bias {offset : ℕ} (hbias : t.biasOffset = some offset) (buffer : ℕ × ℕ → R)
    {a b i j : ℕ} (ha : a < tile.oH) (hb : b < tile.oW) (hi : i < tile.m) (hj : j < tile.n)
    (hcol : point .tileN + j < t.oC) :
    p.start mem point buffer (planePlace hw.vectorLane tile.m tile.n tile.oW a b i j) =
      mem.bias (point .tileN + j + offset) := by
  have hprogram : p.bias = some (ConvTemplate.biasDma (t.outputDma tile) offset) := by
    simp [hp.bias, hbias]
  simp only [ConvProgram.start, hprogram]
  refine (load_output hp.vectorLane htile.columns _ _ _ _ _ ha hb hi hj).trans ?_
  simp [ConvProgram.inBounds, hp.bound_c0, hp.bound_tileN, ConvDma.address, ConvTerm.value,
    ConvTerm.dramStride, hcol]
  congr 1
  ring

/-- Without a bias, the first places of the tile start from zero, and the others from what they
hold. -/
theorem start_zero (hbias : t.biasOffset = none) (buffer : ℕ × ℕ → R) {a b i j : ℕ}
    (hi : i < tile.m) (hj : j < tile.n) :
    p.start mem point buffer (planePlace hw.vectorLane tile.m tile.n tile.oW a b i j) =
      if a * tile.oW + b < tile.oH then 0
      else buffer (planePlace hw.vectorLane tile.m tile.n tile.oW a b i j) := by
  have hprogram : p.bias = none := by
    simp [hp.bias, hbias]
  have hzero : p.zeroSize = tile.oH * (perLane hw.vectorLane tile.n * tile.m) := by
    rw [hp.zeroSize]
    exact getSpadSizePerLane_mul htile.columns htile.rows htile.oH_pos
  have hplace : (planePlace hw.vectorLane tile.m tile.n tile.oW a b i j).2 < p.zeroSize ↔
      a * tile.oW + b < tile.oH := by
    rw [hzero]
    exact digits_lt_iff hi (htile.columns.div_lt hj)
  simp only [ConvProgram.start, hprogram, hplace]

end BatchProgram

/-! ## Kernels -/

/-- The accumulation loops add the whole sum to the elements of a tile, and nothing for an input of
zeros. -/
structure BatchSums (R : Type) [Semiring R] (hw : SpadHardware) (t : ConvTemplate)
    (tile : ConvTile) (place : ℕ → ℕ → ℕ → ℕ → ℕ) (p : ConvProgram) : Prop where
  sum : ∀ (mem : ConvMemory R) (point : ConvIndex) (s : ConvState R), point .c0 = 0 →
    ∀ a < tile.oH, ∀ b < tile.oW, ∀ i < tile.m, ∀ j < tile.n, point .tileM + i < t.batch →
      point .tileN + j < t.oC → point .oW + b < t.oW →
      (p.outputTile mem point s).yBuffer
          (planePlace hw.vectorLane tile.m tile.n tile.oW a b i j) =
        p.start mem point s.yBuffer (planePlace hw.vectorLane tile.m tile.n tile.oW a b i j) +
          ConvTemplate.memorySum t place mem (fun kh => (point .oH + a) * t.stride.1 + kh)
            (fun kw => (point .oW + b) * t.stride.2 + kw) (point .tileM + i) (point .tileN + j)
  zero : ∀ (point : ConvIndex) (s : ConvState R), ∀ a < tile.oH, ∀ b < tile.oW, ∀ i < tile.m,
    ∀ j < tile.n,
      (p.outputTile ⟨fun _ => 0, fun _ => 0, fun _ => 0⟩ point s).yBuffer
          (planePlace hw.vectorLane tile.m tile.n tile.oW a b i j) =
        p.start ⟨fun _ => 0, fun _ => 0, fun _ => 0⟩ point s.yBuffer
          (planePlace hw.vectorLane tile.m tile.n tile.oW a b i j)

variable {α : Type} [Field α] {place : ℕ → ℕ → ℕ → ℕ → ℕ} (htile : BatchTile hw t tile)
  (hsums : BatchSums α hw t tile place p)
include hp htile hsums

/-- **The values that the kernel leaves**, when all of a tile starts from the bias or from zero. -/
theorem batch_values (hstart : t.biasOffset.isSome ∨ tile.oW = 1) {order : List ℕ}
    {x w bias : Tensor α}
    (hx : ∀ b < t.batch, ∀ c < t.iC, ∀ i < t.paddedH, ∀ j < t.paddedW,
      (t.operands order x w bias).x (place b c i j) = (t.padInput x).get [b, c, i, j])
    (hw' : w.shape = [t.oC, t.iC, t.kH, t.kW]) (s : ConvState α) {b n i j : ℕ} (hb : b < t.batch)
    (hn : n < t.oC) (hi : i < t.oH) (hj : j < t.oW) :
    (p.run (t.operands order x w bias) s).y (ravel (ConvTemplate.outputShape t) [b, n, i, j]) =
      biasEntry (t.biasOffset.map fun _ => bias) n + ConvTemplate.windowSum t x w
        (fun kh => i * t.stride.1 + kh) (fun kw => j * t.stride.2 + kw) b n := by
  have hvalue := ConvProgram.run_elements (t.operands order x w bias) s (hp.stores htile)
    (fun g => biasEntry (t.biasOffset.map fun _ => bias) (g.getD 1 0) +
      ConvTemplate.memorySum t place (t.operands order x w bias)
        (fun kh => g.getD 2 0 * t.stride.1 + kh) (fun kw => g.getD 3 0 * t.stride.2 + kw)
        (g.getD 0 0) (g.getD 1 0))
    (fun _ => True) (fun _ _ _ _ => trivial) ?_ trivial [b, n, i, j]
    (.cons hb (.cons hn (.cons hi (.cons hj .nil))))
  · rw [hvalue]
    congr 1
    apply ConvTemplate.memorySum_operands t hx hw' hb hn
    · intro kh hkh
      exact ConvTemplate.undilated_lt t.dilation_pos.1 t.rows_fit hi hkh
    · intro kw hkw
      exact ConvTemplate.undilated_lt t.dilation_pos.2 t.cols_fit hj hkw
  · intro point hpoint c hc s _
    obtain ⟨i, hi, j, hj, a, ha, b, hb, rfl, hrow, hcol, -, hwidth⟩ := (hp.mem_stored point).mp hc
    rw [hp.place_y htile, hsums.sum _ point s (hp.outputPoints_c0 point hpoint) a ha b hb i hi j hj
      hrow hcol hwidth]
    simp only [batchElement, List.getD_cons_zero, List.getD_cons_succ]
    congr 1
    cases hbias : t.biasOffset with
    | none =>
        have hone : tile.oW = 1 := by simpa [hbias] using hstart
        have hzero : a * tile.oW + b < tile.oH := by
          rw [hone] at hb ⊢
          omega
        rw [hp.start_zero point htile _ hbias _ hi hj, if_pos hzero]
        rfl
    | some offset =>
        rw [hp.start_bias point htile _ hbias _ ha hb hi hj hcol]
        simp [ConvTemplate.operands, hbias, biasEntry]

/-- Without a bias, a tile with several columns keeps what its last places held. -/
theorem batch_keeps (hbias : t.biasOffset = none) (hwide : tile.oW ≠ 1) (hbatch : 0 < t.batch) :
    ∃ s : ConvState α, (p.run ⟨fun _ => 0, fun _ => 0, fun _ => 0⟩ s).y
      (ravel (ConvTemplate.outputShape t) [0, 0, tile.oH - 1, tile.oW - 1]) = 1 := by
  have hoH := htile.oH_pos
  have hoW := htile.oW_pos
  have hoH_le := htile.oH_le
  have hoW_le := htile.oW_le
  have hvalue := ConvProgram.run_elements (⟨fun _ => 0, fun _ => 0, fun _ => 0⟩ : ConvMemory α)
    ⟨fun _ => 0, fun _ => 0, fun _ => 1, fun _ => 0⟩ (hp.stores htile)
    (fun g => if g.getD 2 0 % tile.oH * tile.oW + g.getD 3 0 % tile.oW < tile.oH then 0 else 1)
    (fun buffer => ∀ a < tile.oH, ∀ b < tile.oW, ∀ i < tile.m, ∀ j < tile.n,
      ¬ a * tile.oW + b < tile.oH →
        buffer (planePlace hw.vectorLane tile.m tile.n tile.oW a b i j) = 1)
    ?_ ?_ (fun _ _ _ _ _ _ _ _ _ => rfl) [0, 0, tile.oH - 1, tile.oW - 1]
    (.cons hbatch (.cons t.oC_pos (.cons (by omega) (.cons (by omega) .nil))))
  · refine ⟨_, hvalue.trans ?_⟩
    have hlast : ¬ (tile.oH - 1) * tile.oW + (tile.oW - 1) < tile.oH := by
      have htwo : (tile.oH - 1) * 2 ≤ (tile.oH - 1) * tile.oW := Nat.mul_le_mul_left _ (by omega)
      omega
    simp only [List.getD_cons_zero, List.getD_cons_succ]
    rw [Nat.mod_eq_of_lt (by omega), Nat.mod_eq_of_lt (by omega), if_neg hlast]
  · intro point _ s hs a ha b hb i hi j hj hlast
    rw [hsums.zero point s a ha b hb i hi j hj, hp.start_zero point htile _ hbias _ hi hj,
      if_neg hlast]
    exact hs a ha b hb i hi j hj hlast
  · intro point hpoint c hc s hs
    obtain ⟨i, hi, j, hj, a, ha, b, hb, rfl, -⟩ := (hp.mem_stored point).mp hc
    obtain ⟨q, r, hq, hr⟩ := hp.outputPoints_oH_oW point hpoint
    rw [hp.place_y htile, hsums.zero point s a ha b hb i hi j hj,
      hp.start_zero point htile _ hbias _ hi hj]
    simp only [batchElement, List.getD_cons_zero, List.getD_cons_succ, hq, hr,
      Nat.mul_add_mod_self_right, Nat.mod_eq_of_lt ha, Nat.mod_eq_of_lt hb]
    split_ifs with hfirst
    · rfl
    · exact hs a ha b hb i hi j hj hfirst

/-- **A kernel for batches computes the convolution** exactly if the batch is empty, or the
positions of the kernel meet the same pixels whether the dilation is counted or not and there is a
bias or the tiles of the output have one column. -/
theorem batch_computes {order : List ℕ}
    (hx : ∀ x w bias : Tensor α, ∀ b < t.batch, ∀ c < t.iC, ∀ i < t.paddedH, ∀ j < t.paddedW,
      (t.operands order x w bias).x (place b c i j) = (t.padInput x).get [b, c, i, j]) :
    ConvTemplate.Computes α t order p ↔
      (0 < t.batch → (0 < t.iC → ConvTemplate.SamePixels t (fun i kh => i * t.stride.1 + kh)
        (ConvTemplate.dilatedRow t) (fun j kw => j * t.stride.2 + kw)
        (ConvTemplate.dilatedCol t)) ∧ (t.biasOffset.isSome ∨ tile.oW = 1)) := by
  have hvalues : (0 < t.batch → t.biasOffset.isSome ∨ tile.oW = 1) →
      (ConvTemplate.Computes α t order p ↔ (0 < t.batch → 0 < t.iC →
        ConvTemplate.SamePixels t (fun i kh => i * t.stride.1 + kh) (ConvTemplate.dilatedRow t)
          (fun j kw => j * t.stride.2 + kw) (ConvTemplate.dilatedCol t))) := by
    intro hstart
    apply ConvTemplate.computes_iff_of_values
    intro x w bias _ hw' _ s b hb n hn i hi j hj
    exact batch_values hp htile hsums (hstart (Nat.zero_lt_of_lt hb)) (hx x w bias) hw' s hb hn hi
      hj
  constructor
  · intro hcomputes hbatch
    have hstart : t.biasOffset.isSome ∨ tile.oW = 1 := by
      by_contra hnot
      rw [not_or] at hnot
      have hbias : t.biasOffset = none := by simpa using hnot.1
      obtain ⟨s, hs⟩ := batch_keeps hp htile hsums hbias hnot.2 hbatch
      have hoH := htile.oH_pos
      have hoW := htile.oW_pos
      have hoH_le := htile.oH_le
      have hoW_le := htile.oW_le
      exact ConvTemplate.not_computes_of_zero t hbias hbatch t.oC_pos (by omega) (by omega)
        (hs ▸ one_ne_zero) hcomputes
    exact ⟨(hvalues fun _ => hstart).mp hcomputes hbatch, hstart⟩
  · intro hcondition
    exact (hvalues fun hbatch => (hcondition hbatch).2).mpr fun hbatch => (hcondition hbatch).1

end Batch

end PyTorchSim.Analysis
