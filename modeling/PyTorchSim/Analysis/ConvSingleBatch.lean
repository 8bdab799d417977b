import PyTorchSim.Analysis.ConvKernels

/-!
# The kernels of convolutions of a single batch

Two templates make the rows of the matrices from columns of the output.  A tile is set to zero as a
whole, so that there need not be a bias.  Both leave out the dilation.  The one for a stride of 1
reads the columns of the input that follow each other, and so it is only right where the stride of
the columns is 1, too; it is chosen by the stride of the rows.
-/

set_option autoImplicit false

namespace PyTorchSim.Analysis

open Finset Frontend Frontend.CatProgram Library
open PyTorchSim.Model (getSpadSizePerLane)

/-! ## Tiles -/

/-- What the tiles of the search have in common. -/
structure SingleTile (hw : SpadHardware) (tile : ConvTile) : Prop where
  rows : 2 ≤ tile.m
  depth : 2 ≤ tile.k
  columns : LaneShaped hw.vectorLane tile.n
  channels : LaneShaped hw.vectorLane tile.k
  kH_pos : 0 < tile.kH
  kW_pos : 0 < tile.kW
  oH_pos : 0 < tile.oH
  oW_eq : tile.oW = tile.m

/-- The search chooses such tiles. -/
theorem singleTile_of_mem {hw : SpadHardware} {t : ConvTemplate} (hlanes : 8 ∣ hw.vectorLane)
    {kernelW precisionBytes : ℕ} {hprecision : 0 < precisionBytes} {tiles : List ConvTile}
    (h : convSingleBatchMapping hw (t.problem kernelW precisionBytes hprecision) = .ok tiles) :
    ∀ tile ∈ tiles, SingleTile hw tile ∧ tile.kW ≤ kernelW := by
  intro tile htile
  unfold convSingleBatchMapping at h
  cases hgemm : gemmCombinationMapping hw (t.problem kernelW precisionBytes hprecision).outputW
      (t.problem kernelW precisionBytes hprecision).N
      (t.problem kernelW precisionBytes hprecision).K
      (t.problem kernelW precisionBytes hprecision).nExtraNode
      (t.problem kernelW precisionBytes hprecision).precisionBytes with
  | nil => simp [hgemm] at h
  | cons sizes rest =>
      obtain ⟨m, n, k⟩ := sizes
      rw [hgemm] at h
      have hmem := mem_space_of_convSearch h htile
      obtain ⟨hm, hn, hk, hk8⟩ := shaped_of_mem_gemmCombinationMapping hlanes
        (ConvTemplate.oW_pos t) t.oC_pos (hgemm ▸ List.mem_cons_self)
      simp only [singleBatchSpace, List.mem_flatMap, List.mem_map] at hmem
      obtain ⟨oH, hoH, kH, hkH, kW, hkW, rfl⟩ := hmem
      have hsingle : SingleTile hw ⟨kH, kW, oH, m, m, n, k⟩ := {
        rows := by dsimp only; omega
        depth := by dsimp only; omega
        columns := hn
        channels := hk
        kH_pos := pos_of_mem_divisors hkH
        kW_pos := pos_of_mem_divisors hkW
        oH_pos := pos_of_mem_divisors hoH
        oW_eq := rfl }
      exact ⟨hsingle, le_of_mem_divisors hkW⟩

/-- The element that a place of a tile of a single batch belongs to. -/
def singleElement (index : ConvIndex) : List ℕ → List ℕ
  | [b, j, a, i] => [b, index .tileN + j, index .oH + a, index .tileM + i]
  | _ => []

/-- The address of an element of the padded input, in the order (BATCH, I_H, I_W, I_C). -/
def singlePlace (t : ConvTemplate) (b c i j : ℕ) : ℕ :=
  ravel [t.batch, t.paddedH, t.paddedW, t.iC] [b, i, j, c]

/-- A load of a tile like that of the output. -/
theorem load_singleBatchOutput {R : Type} [Semiring R] {p : ConvProgram}
    {vectorLane rows size height a i j : ℕ} (hp : p.vectorLane = vectorLane)
    (h : LaneShaped vectorLane size) (indexList : List ConvTerm) (offset : ℕ) (dram : ℕ → R)
    (index : ConvIndex) (buffer : ℕ × ℕ → R) (ha : a < height) (hi : i < rows) (hj : j < size) :
    p.load ⟨[1, size, height, rows], [height * rows * size, rows, rows * size, 1], 1, indexList,
        offset⟩ dram index buffer (planePlace vectorLane rows size 1 a 0 i j) =
      if p.inBounds ⟨[1, size, height, rows], [height * rows * size, rows, rows * size, 1], 1,
          indexList, offset⟩ index [0, j, a, i] then
        dram (ConvDma.address ⟨[1, size, height, rows],
          [height * rows * size, rows, rows * size, 1], 1, indexList, offset⟩ index [0, j, a, i])
      else 0 := by
  have hrows : 0 < rows := by omega
  have hcell : ConvDma.place ⟨[1, size, height, rows],
      [height * rows * size, rows, rows * size, 1], 1, indexList, offset⟩ vectorLane [0, j, a, i] =
      planePlace vectorLane rows size 1 a 0 i j := place_singleBatchOutput h hrows _ _ a i j
  rw [← hcell, ← hp]
  apply ConvProgram.load_place
  · exact mem_coordinates.mpr ⟨0, Nat.one_pos, j, hj, a, ha, i, hi, rfl⟩
  · intro c hc hplace
    obtain ⟨b', hb', j', hj', a', ha', i', hi', rfl⟩ := mem_coordinates.mp hc
    obtain rfl : b' = 0 := Nat.lt_one_iff.mp hb'
    rw [hp, place_singleBatchOutput h hrows, place_singleBatchOutput h hrows] at hplace
    obtain ⟨rfl, -, rfl, rfl⟩ := planePlace_inj h Nat.one_pos hi' hj' Nat.one_pos hi hj hplace
    rfl

/-! ## Programs -/

/-- What the programs of the two templates have in common. -/
structure SingleProgram (hw : SpadHardware) (t : ConvTemplate) (tile : ConvTile)
    (p : ConvProgram) : Prop where
  outerLoops : p.outerLoops = [⟨.tileN, t.oC, tile.n⟩, ⟨.oH, t.oH, tile.oH⟩,
    ⟨.tileM, t.oW, tile.m⟩]
  bound_c0 : p.bound .c0 = none
  y : p.y = t.singleBatchOutputDma tile
  bias : p.bias = t.biasOffset.map (ConvTemplate.biasDma (t.singleBatchOutputDma tile))
  zeroSize : p.zeroSize = getSpadSizePerLane hw.vectorLane (tile.oH * tile.m) tile.n
  tileM : p.tileM = tile.m
  tileN : p.tileN = tile.n
  tileOH : p.tileOH = tile.oH
  tileOW : p.tileOW = 1
  offsetY : p.offsetY = (getSpadSizePerLane hw.vectorLane tile.m tile.n,
    getSpadSizePerLane hw.vectorLane tile.m tile.n)
  window : WindowProgram hw t tile p

section Single

variable {hw : SpadHardware} {t : ConvTemplate} {tile : ConvTile} {p : ConvProgram}
  (hp : SingleProgram hw t tile p) (point : ConvIndex)

namespace SingleProgram
include hp

theorem bound_tileN : p.bound .tileN = some t.oC := by
  simp [ConvProgram.bound, hp.outerLoops]

theorem bound_oH : p.bound .oH = some t.oH := by
  simp [ConvProgram.bound, hp.outerLoops]

theorem bound_tileM : p.bound .tileM = some t.oW := by
  simp [ConvProgram.bound, hp.outerLoops]

/-- The elements that a tile stores. -/
theorem mem_stored {c : List ℕ} : c ∈ ConvProgram.stored p point ↔
    ∃ j < tile.n, ∃ a < tile.oH, ∃ i < tile.m, c = [0, j, a, i] ∧ point .tileN + j < t.oC ∧
      point .oH + a < t.oH ∧ point .tileM + i < t.oW := by
  have hcoordinates : c ∈ p.y.coordinates ↔
      ∃ b < 1, ∃ j < tile.n, ∃ a < tile.oH, ∃ i < tile.m, c = [b, j, a, i] := by
    rw [hp.y]
    exact mem_coordinates
  have hbounds : ∀ b j a i, p.inBounds p.y point [b, j, a, i] = true ↔
      point .tileN + j < t.oC ∧ point .oH + a < t.oH ∧ point .tileM + i < t.oW := by
    intro b j a i
    simp [ConvProgram.inBounds, hp.y, ConvTemplate.singleBatchOutputDma, hp.bound_c0,
      hp.bound_tileM, hp.bound_tileN, hp.bound_oH]
  unfold ConvProgram.stored
  rw [List.mem_filter, hcoordinates]
  constructor
  · rintro ⟨⟨b, hb, j, hj, a, ha, i, hi, rfl⟩, hin⟩
    obtain rfl : b = 0 := Nat.lt_one_iff.mp hb
    exact ⟨j, hj, a, ha, i, hi, rfl, (hbounds 0 j a i).mp hin⟩
  · rintro ⟨j, hj, a, ha, i, hi, rfl, hin⟩
    exact ⟨⟨0, Nat.one_pos, j, hj, a, ha, i, hi, rfl⟩, (hbounds 0 j a i).mpr hin⟩

/-- The tiles start at multiples of the rows of the matrices, and nothing counts with the constant.
-/
theorem outputPoints_tileM (hpoint : point ∈ ConvProgram.outputPoints p) :
    point .c0 = 0 ∧ ∃ q, point .tileM = q * tile.m := by
  simp only [ConvProgram.outputPoints, hp.outerLoops, nestPoints, List.mem_flatMap,
    List.mem_singleton, loopRange, List.mem_map] at hpoint
  obtain ⟨_, -, _, -, _, ⟨q, -, rfl⟩, rfl⟩ := hpoint
  exact ⟨by simp, q, by simp⟩

variable (htile : SingleTile hw tile)
include htile

theorem cell_eq (a i j : ℕ) :
    ConvProgram.cell p a 0 i j = planePlace hw.vectorLane tile.m tile.n 1 a 0 i j := by
  have hview := viewPlace_eq htile.columns htile.rows Nat.one_pos a 0 i j
  rw [Nat.one_mul] at hview
  unfold ConvProgram.cell ConvProgram.viewY
  rw [hp.window.vectorLane, hp.tileM, hp.offsetY]
  exact hview

theorem cellsDistinct : ConvProgram.CellsDistinct p := by
  intro a b i j a' b' i' j' _ hb hi hj _ hb' hi' hj' heq
  rw [hp.tileOW, Nat.lt_one_iff] at hb hb'
  rw [hp.tileM] at hi hi'
  rw [hp.tileN] at hj hj'
  subst hb hb'
  rw [hp.cell_eq htile, hp.cell_eq htile] at heq
  exact planePlace_inj htile.columns Nat.one_pos hi hj Nat.one_pos hi' hj' heq

/-- The tiles store the elements of the output. -/
theorem stores (hbatch : t.batch = 1) :
    ConvProgram.Stores p (ConvTemplate.outputShape t) singleElement where
  inShape := by
    intro point _ c hc
    obtain ⟨j, _, a, _, i, _, rfl, h₁, h₂, h₃⟩ := (hp.mem_stored point).mp hc
    exact .cons (hbatch ▸ Nat.one_pos) (.cons h₁ (.cons h₂ (.cons h₃ .nil)))
  address := by
    intro point _ c hc
    obtain ⟨j, _, a, _, i, _, rfl, -⟩ := (hp.mem_stored point).mp hc
    simp [hp.y, ConvTemplate.singleBatchOutputDma, ConvDma.address, ConvTerm.value,
      ConvTerm.dramStride, ravel, ConvTemplate.outputShape, singleElement]
    ring
  covered := by
    intro g hg
    obtain ⟨b, n, i, j, rfl, hb, hn, hi, hj⟩ := inShape_four hg
    obtain rfl : b = 0 := by omega
    have hm : 0 < tile.m := by
      have := htile.rows
      omega
    have hcolumns := htile.columns.pos
    refine ⟨Function.update (Function.update (Function.update (fun _ => 0) .tileN
      (n / tile.n * tile.n)) .oH (i / tile.oH * tile.oH)) .tileM (j / tile.m * tile.m), ?_,
      [0, n % tile.n, i % tile.oH, j % tile.m], ?_, ?_⟩
    · rw [ConvProgram.outputPoints, hp.outerLoops]
      refine List.mem_flatMap.mpr ⟨_, mem_loopRange_of_lt hcolumns hn, ?_⟩
      refine List.mem_flatMap.mpr ⟨_, mem_loopRange_of_lt htile.oH_pos hi, ?_⟩
      refine List.mem_flatMap.mpr ⟨_, mem_loopRange_of_lt hm hj, ?_⟩
      exact List.mem_singleton_self _
    · refine (hp.mem_stored _).mpr ⟨_, Nat.mod_lt _ hcolumns, _, Nat.mod_lt _ htile.oH_pos, _,
        Nat.mod_lt _ hm, rfl, ?_⟩
      simpa [Nat.div_add_mod'] using ⟨hn, hi, hj⟩
    · simp [singleElement, Nat.div_add_mod']

/-- The place of an element of the output. -/
theorem place_y (a i j : ℕ) : p.y.place p.vectorLane [0, j, a, i] =
    planePlace hw.vectorLane tile.m tile.n 1 a 0 i j := by
  have hm : 0 < tile.m := by
    have := htile.rows
    omega
  rw [hp.y, hp.window.vectorLane]
  exact place_singleBatchOutput htile.columns hm _ _ a i j

variable {R : Type} [Semiring R] (mem : ConvMemory R)

/-- The accumulation starts from the bias, or from zero. -/
theorem start_eq (buffer : ℕ × ℕ → R) {a i j : ℕ} (ha : a < tile.oH) (hi : i < tile.m)
    (hj : j < tile.n) (hcol : point .tileN + j < t.oC) :
    p.start mem point buffer (planePlace hw.vectorLane tile.m tile.n 1 a 0 i j) =
      (t.biasOffset.map fun offset => mem.bias (point .tileN + j + offset)).getD 0 := by
  cases hbias : t.biasOffset with
  | none =>
      have hprogram : p.bias = none := by
        simp [hp.bias, hbias]
      have hzero : p.zeroSize = tile.oH * (perLane hw.vectorLane tile.n * tile.m) := by
        rw [hp.zeroSize]
        exact getSpadSizePerLane_mul htile.columns htile.rows htile.oH_pos
      have hplace : (planePlace hw.vectorLane tile.m tile.n 1 a 0 i j).2 < p.zeroSize := by
        rw [hzero]
        refine (digits_lt_iff hi (htile.columns.div_lt hj)).mpr ?_
        omega
      simp [ConvProgram.start, hprogram, hplace]
  | some offset =>
      have hprogram : p.bias =
          some (ConvTemplate.biasDma (t.singleBatchOutputDma tile) offset) := by
        simp [hp.bias, hbias]
      simp only [ConvProgram.start, hprogram]
      refine (load_singleBatchOutput hp.window.vectorLane htile.columns _ _ _ _ _ ha hi hj).trans ?_
      simp [ConvProgram.inBounds, hp.bound_c0, hp.bound_tileN, ConvDma.address, ConvTerm.value,
        ConvTerm.dramStride, hcol]
      congr 1
      ring

end SingleProgram

/-! ## Kernels -/

/-- The accumulation loops add the whole sum to the elements of a tile; `col` gives the columns of
the input that a column of the output reads. -/
def SingleSums (R : Type) [Semiring R] (hw : SpadHardware) (t : ConvTemplate) (tile : ConvTile)
    (col : ℕ → ℕ → ℕ) (p : ConvProgram) : Prop :=
  ∀ (mem : ConvMemory R) (point : ConvIndex) (s : ConvState R) (q : ℕ), point .c0 = 0 →
    point .tileM = q * tile.m → ∀ a < tile.oH, ∀ i < tile.m, ∀ j < tile.n,
      point .tileN + j < t.oC → point .tileM + i < t.oW →
        (p.outputTile mem point s).yBuffer
            (planePlace hw.vectorLane tile.m tile.n 1 a 0 i j) =
          p.start mem point s.yBuffer (planePlace hw.vectorLane tile.m tile.n 1 a 0 i j) +
            ConvTemplate.memorySum t (singlePlace t) mem
              (fun kh => (point .oH + a) * t.stride.1 + kh) (col (point .tileM + i)) 0
              (point .tileN + j)

variable {α : Type} [Field α]

/-- The input as the wrapper turns it for the kernels. -/
theorem single_operands_x (x w bias : Tensor α) : ∀ b < t.batch, ∀ c < t.iC, ∀ i < t.paddedH,
    ∀ j < t.paddedW, (t.operands [0, 2, 3, 1] x w bias).x (singlePlace t b c i j) =
      (t.padInput x).get [b, c, i, j] := by
  intro b hb c hc i hi j hj
  have hin : InShape [t.batch, t.paddedH, t.paddedW, t.iC] [b, i, j, c] :=
    .cons hb (.cons hi (.cons hj (.cons hc .nil)))
  exact ConvTemplate.operands_x t [0, 2, 3, 1] x w bias hin

variable (htile : SingleTile hw tile) {col : ℕ → ℕ → ℕ} (hsums : SingleSums α hw t tile col p)
  (hcol : ∀ j < t.oW, ∀ kw < t.kW, col j kw < t.paddedW) (hbatch : t.batch = 1)
include hp htile hsums hcol hbatch

/-- **The values that the kernel leaves.** -/
theorem single_values {x w bias : Tensor α} (hw' : w.shape = [t.oC, t.iC, t.kH, t.kW])
    (s : ConvState α) {b n i j : ℕ} (hb : b < t.batch) (hn : n < t.oC) (hi : i < t.oH)
    (hj : j < t.oW) :
    (p.run (t.operands [0, 2, 3, 1] x w bias) s).y (ravel (ConvTemplate.outputShape t) [b, n, i, j])
      = biasEntry (t.biasOffset.map fun _ => bias) n + ConvTemplate.windowSum t x w
        (fun kh => i * t.stride.1 + kh) (col j) b n := by
  have hvalue := ConvProgram.run_elements (t.operands [0, 2, 3, 1] x w bias) s
    (hp.stores htile hbatch)
    (fun g => biasEntry (t.biasOffset.map fun _ => bias) (g.getD 1 0) +
      ConvTemplate.memorySum t (singlePlace t) (t.operands [0, 2, 3, 1] x w bias)
        (fun kh => g.getD 2 0 * t.stride.1 + kh) (col (g.getD 3 0)) (g.getD 0 0) (g.getD 1 0))
    (fun _ => True) (fun _ _ _ _ => trivial) ?_ trivial [b, n, i, j]
    (.cons hb (.cons hn (.cons hi (.cons hj .nil))))
  · rw [hvalue]
    congr 1
    apply ConvTemplate.memorySum_operands t (single_operands_x x w bias) hw' hb hn
    · intro kh hkh
      exact ConvTemplate.undilated_lt t.dilation_pos.1 t.rows_fit hi hkh
    · exact hcol j hj
  · intro point hpoint c hc s _
    obtain ⟨j, hj, a, ha, i, hi, rfl, hchannel, -, hwidth⟩ := (hp.mem_stored point).mp hc
    obtain ⟨hc0, q, hq⟩ := hp.outputPoints_tileM point hpoint
    rw [hp.place_y htile, hsums _ point s q hc0 hq a ha i hi j hj hchannel hwidth,
      hp.start_eq point htile _ _ ha hi hj hchannel]
    simp only [singleElement, List.getD_cons_zero, List.getD_cons_succ]
    congr 1
    cases hbias : t.biasOffset with
    | none => rfl
    | some offset => simp [ConvTemplate.operands, hbias, biasEntry]

/-- **A kernel of a single batch computes the convolution** exactly if the positions of the kernel
meet the pixels that the operator reads. -/
theorem single_computes : ConvTemplate.Computes α t [0, 2, 3, 1] p ↔ (0 < t.iC →
    ConvTemplate.SamePixels t (fun i kh => i * t.stride.1 + kh) (ConvTemplate.dilatedRow t) col
      (ConvTemplate.dilatedCol t)) := by
  refine (ConvTemplate.computes_iff_of_values t (fun i kh => i * t.stride.1 + kh) col ?_).trans ?_
  · intro x w bias _ hw' _ s b hb n hn i hi j hj
    exact single_values hp htile hsums hcol hbatch hw' s hb hn hi hj
  · simp [hbatch]

end Single

/-! ## The template for strides -/

section Strided

variable {hw : SpadHardware} {t : ConvTemplate} {tile : ConvTile}

theorem singleBatchStrided_program :
    SingleProgram hw t tile (t.renderSingleBatchStrided hw tile) where
  outerLoops := rfl
  bound_c0 := rfl
  y := rfl
  bias := rfl
  zeroSize := rfl
  tileM := rfl
  tileN := rfl
  tileOH := rfl
  tileOW := rfl
  offsetY := rfl
  window := {
    vectorLane := rfl
    accumulationLoops := rfl
    bound_kH := rfl
    bound_kW := rfl
    bound_tileK := rfl
    bound_tileN := rfl
    keeps := by simp [ConvProgram.applyMaps, ConvTemplate.renderSingleBatchStrided]
    w := rfl
    tileN := rfl
    tileK := rfl
    tileKH := rfl
    tileKW := rfl
    offsetW := rfl }

variable (htile : SingleTile hw tile)
include htile

/-- What the view of the input holds. -/
theorem singleBatchStrided_load_x {R : Type} [Semiring R] (mem : ConvMemory R) (point : ConvIndex)
    (buffer : ℕ × ℕ → R) {a kh kw i k : ℕ} (ha : a < tile.oH) (hkh : kh < tile.kH)
    (hkw : kw < tile.kW) (hi : i < tile.m) (hk : k < tile.k) (b : ℕ) :
    (t.renderSingleBatchStrided hw tile).load (t.renderSingleBatchStrided hw tile).x mem.x
        ((t.renderSingleBatchStrided hw tile).applyMaps point) buffer
        (viewPlace hw.vectorLane tile.m ((t.renderSingleBatchStrided hw tile).viewX a b kh kw) i
          k) =
      if point .kW + kw < t.kW ∧ point .tileM + i < t.oW ∧ point .tileK + k < t.iC then
        mem.x (singlePlace t 0 (point .tileK + k)
          ((point .oH + a) * t.stride.1 + (point .kH + kh))
          ((point .tileM + i) * t.stride.2 + (point .kW + kw)))
      else 0 := by
  have hrow : a * t.stride.1 + kh < t.tileIH tile := by
    rw [Nat.mul_comm]
    exact lt_inputExtent t.dilation_pos.1 ha hkh
  have hoffset : (t.renderSingleBatchStrided hw tile).viewX a b kh kw =
      getSpadSizePerLane hw.vectorLane (tile.kW * tile.m) tile.k * (a * t.stride.1 + kh) +
        getSpadSizePerLane hw.vectorLane tile.m tile.k * kw := by
    simp [ConvProgram.viewX, ConvTemplate.renderSingleBatchStrided, Nat.mul_comm tile.m]
  rw [hoffset, viewPlace_eq htile.channels htile.rows htile.kW_pos]
  refine (load_matrices rfl htile.channels _ _ _ _ _ hrow hkw hi hk).trans ?_
  simp [ConvProgram.inBounds, ConvProgram.bound, ConvProgram.applyMaps,
    ConvTemplate.renderSingleBatchStrided, ConvDma.address, ConvTerm.value, ConvTerm.dramStride,
    singlePlace, ravel]
  congr 2
  ring

theorem singleBatchStrided_sums (R : Type) [Semiring R] :
    SingleSums R hw t tile (fun j kw => j * t.stride.2 + kw)
      (t.renderSingleBatchStrided hw tile) := by
  intro mem point s _ _ _ a ha i hi j hj hchannel hwidth
  rw [← singleBatchStrided_program.cell_eq htile]
  unfold ConvTemplate.memorySum
  apply singleBatchStrided_program.window.outputTile_cell htile.columns htile.depth htile.kW_pos
    htile.kH_pos mem point (singleBatchStrided_program.cellsDistinct htile) ha Nat.one_pos hi hj s
    hchannel
  intro q hq buffer kh hkh kw hkw k hk _ hwindow hdepth
  refine (singleBatchStrided_load_x htile mem q buffer ha hkh hkw hi hk 0).trans ?_
  rw [hq .tileM (by simp), hq .oH (by simp), if_pos ⟨hwindow, hwidth, hdepth⟩]

end Strided

/-- **The template for strides computes the convolution** of a single batch exactly if the positions
of the kernel meet the same pixels whether the dilation is counted or not.  The search chooses its
tiles, and nothing but the output is written. -/
theorem singleBatchStrided_computes_iff (α : Type) [Field α] (hw : SpadHardware)
    (t : ConvTemplate) :
    (8 ∣ hw.vectorLane → ∀ precisionBytes hprecision tiles,
      convSingleBatchMapping hw (t.problem t.kW precisionBytes hprecision) = .ok tiles →
        ∀ tile ∈ tiles, SingleTile hw tile) ∧
    ∀ tile, SingleTile hw tile → t.batch = 1 →
      (ConvTemplate.Computes α t [0, 2, 3, 1] (t.renderSingleBatchStrided hw tile) ↔
        (0 < t.iC → ConvTemplate.SamePixels t (fun i kh => i * t.stride.1 + kh)
          (ConvTemplate.dilatedRow t) (fun j kw => j * t.stride.2 + kw)
          (ConvTemplate.dilatedCol t))) ∧
      ∀ (mem : ConvMemory α) (s : ConvState α) (a : ℕ),
        (∀ g, InShape (ConvTemplate.outputShape t) g →
          ravel (ConvTemplate.outputShape t) g ≠ a) →
        ((t.renderSingleBatchStrided hw tile).run mem s).y a = s.y a := by
  constructor
  · intro hlanes precisionBytes hprecision tiles h tile htile
    exact (singleTile_of_mem hlanes h tile htile).1
  · intro tile htile hbatch
    constructor
    · apply single_computes singleBatchStrided_program htile (singleBatchStrided_sums htile α) _
        hbatch
      intro j hj kw hkw
      exact ConvTemplate.undilated_lt t.dilation_pos.2 t.cols_fit hj hkw
    · intro mem s a ha
      exact ConvProgram.run_frame mem s (singleBatchStrided_program.stores htile hbatch) a ha

/-! ## The template for a stride of 1 -/

/-- The column of the input that the template reads for a column of the output: the first column of
the tile is counted with the stride, the others are not. -/
def consecutiveCol (t : ConvTemplate) (tile : ConvTile) (j kw : ℕ) : ℕ :=
  j / tile.m * tile.m * t.stride.2 + j % tile.m + kw

section Consecutive

variable {hw : SpadHardware} {t : ConvTemplate} {tile : ConvTile}

theorem singleBatch_program : SingleProgram hw t tile (t.renderSingleBatch hw tile) where
  outerLoops := rfl
  bound_c0 := rfl
  y := rfl
  bias := rfl
  zeroSize := rfl
  tileM := rfl
  tileN := rfl
  tileOH := rfl
  tileOW := rfl
  offsetY := rfl
  window := {
    vectorLane := rfl
    accumulationLoops := rfl
    bound_kH := rfl
    bound_kW := rfl
    bound_tileK := rfl
    bound_tileN := rfl
    keeps := by simp [ConvProgram.applyMaps, ConvTemplate.renderSingleBatch]
    w := rfl
    tileN := rfl
    tileK := rfl
    tileKH := rfl
    tileKW := rfl
    offsetW := rfl }

/-- A view that starts at a row of a matrix, where the columns of the matrix lie in lanes of their
own or the view has as many rows as the matrix. -/
theorem viewPlace_shift {vectorLane rows size height viewRows : ℕ} (h : LaneShaped vectorLane size)
    (hrows : 2 ≤ rows) (hshared : size ≤ vectorLane ∨ rows = viewRows) (a first i : ℕ) {j : ℕ}
    (hj : j < size) :
    viewPlace vectorLane viewRows (getSpadSizePerLane vectorLane rows size * a + first) i j =
      planePlace vectorLane rows size height 0 a (i + first) j := by
  have hone := getSpadSizePerLane_mul h hrows Nat.one_pos
  rw [Nat.one_mul, Nat.one_mul] at hone
  rw [hone]
  unfold viewPlace planePlace
  congr 1
  rcases hshared with hsmall | rfl
  · rw [Nat.div_eq_of_lt (by omega)]
    ring
  · ring

/-- Nothing is read behind the row. -/
theorem consecutiveCol_lt {j kw : ℕ} (hj : j < t.oW) (hkw : kw < t.kW) :
    consecutiveCol t tile j kw < t.paddedW := by
  have hrest : j % tile.m ≤ j % tile.m * t.stride.2 := Nat.le_mul_of_pos_right _ t.stride_pos.2
  calc
    consecutiveCol t tile j kw ≤
        j / tile.m * tile.m * t.stride.2 + j % tile.m * t.stride.2 + kw := by
      unfold consecutiveCol
      omega
    _ = j * t.stride.2 + kw := by rw [← Nat.add_mul, Nat.div_add_mod']
    _ < t.paddedW := ConvTemplate.undilated_lt t.dilation_pos.2 t.cols_fit hj hkw

/-- With a stride of 1, the rows of the tile of the input are those of the matrices. -/
theorem tileIW_eq (htile : SingleTile hw tile) (hkW : tile.kW = 1) (hstride : t.stride.2 = 1) :
    t.tileIW tile = tile.m := by
  have hrows := htile.rows
  rw [ConvTemplate.tileIW, inputExtent, htile.oW_eq, hkW, hstride]
  omega

variable (htile : SingleTile hw tile)
  (hshared : tile.k ≤ hw.vectorLane ∨ t.tileIW tile = tile.m)
include htile hshared

/-- What the view of the input holds. -/
theorem singleBatch_load_x {R : Type} [Semiring R] (mem : ConvMemory R) (point : ConvIndex)
    (hc0 : point .c0 = 0) (buffer : ℕ × ℕ → R) {a kh kw i k : ℕ} (ha : a < tile.oH)
    (hkh : kh < tile.kH) (hkw : kw < tile.kW) (hi : i < tile.m) (hk : k < tile.k) (b : ℕ) :
    (t.renderSingleBatch hw tile).load (t.renderSingleBatch hw tile).x mem.x
        ((t.renderSingleBatch hw tile).applyMaps point) buffer
        (viewPlace hw.vectorLane tile.m ((t.renderSingleBatch hw tile).viewX a b kh kw) i k) =
      if point .tileK + k < t.iC then
        mem.x (singlePlace t 0 (point .tileK + k)
          ((point .oH + a) * t.stride.1 + (point .kH + kh))
          (point .tileM * t.stride.2 + i + (point .kW + kw)))
      else 0 := by
  have hrow : a * t.stride.1 + kh < t.tileIH tile := by
    rw [Nat.mul_comm]
    exact lt_inputExtent t.dilation_pos.1 ha hkh
  have hextent : ∀ i' < tile.m, ∀ kw' < tile.kW, i' + kw' < t.tileIW tile := by
    intro i' hi' kw' hkw'
    have hextent : t.stride.2 * i' + kw' < t.tileIW tile :=
      lt_inputExtent t.dilation_pos.2 (htile.oW_eq ▸ hi') hkw'
    have hle : i' ≤ t.stride.2 * i' := Nat.le_mul_of_pos_left _ t.stride_pos.2
    calc
      i' + kw' ≤ t.stride.2 * i' + kw' := Nat.add_le_add_right hle _
      _ < t.tileIW tile := hextent
  have hrows : 2 ≤ t.tileIW tile := hextent 1 htile.rows 0 htile.kW_pos
  have hoffset : (t.renderSingleBatch hw tile).viewX a b kh kw =
      getSpadSizePerLane hw.vectorLane (t.tileIW tile) tile.k * (a * t.stride.1 + kh) + kw := by
    simp [ConvProgram.viewX, ConvTemplate.renderSingleBatch]
  rw [hoffset, viewPlace_shift htile.channels hrows hshared _ _ _ hk]
  refine (load_matrices rfl htile.channels _ _ _ _ _ Nat.one_pos hrow (hextent i hi kw hkw)
    hk).trans ?_
  simp [ConvProgram.inBounds, ConvProgram.bound, ConvProgram.applyMaps,
    ConvTemplate.renderSingleBatch, ConvDma.address, ConvTerm.value, ConvTerm.dramStride,
    singlePlace, ravel, hc0]
  congr 2
  ring

theorem singleBatch_sums (R : Type) [Semiring R] :
    SingleSums R hw t tile (consecutiveCol t tile) (t.renderSingleBatch hw tile) := by
  intro mem point s q hc0 hpoint a ha i hi j hj hchannel hwidth
  rw [← singleBatch_program.cell_eq htile]
  unfold ConvTemplate.memorySum
  apply singleBatch_program.window.outputTile_cell htile.columns htile.depth htile.kW_pos
    htile.kH_pos mem point (singleBatch_program.cellsDistinct htile) ha Nat.one_pos hi hj s
    hchannel
  intro q' hq' buffer kh hkh kw hkw k hk _ _ hdepth
  refine (singleBatch_load_x htile hshared mem q' ((hq' .c0 (by simp)).trans hc0) buffer ha hkh hkw
    hi hk 0).trans ?_
  rw [hq' .tileM (by simp), hq' .oH (by simp), if_pos hdepth, consecutiveCol, hpoint,
    mul_add_div_of_lt hi, mul_add_mod_of_lt hi]

end Consecutive

/-- **The template for a stride of 1 computes the convolution** of a single batch exactly if the
pixels that the positions of the kernel meet without the dilation and without the stride of the
columns inside a tile are those that the operator reads.  The search chooses its tiles, and nothing
but the output is written. -/
theorem singleBatch_computes_iff (α : Type) [Field α] (hw : SpadHardware) (t : ConvTemplate) :
    (8 ∣ hw.vectorLane → ∀ precisionBytes hprecision tiles,
      convSingleBatchMapping hw (t.problem 1 precisionBytes hprecision) = .ok tiles →
        ∀ tile ∈ tiles, SingleTile hw tile ∧ tile.kW = 1) ∧
    ∀ tile, SingleTile hw tile → tile.kW = 1 → t.batch = 1 →
      (t.stride.2 = 1 ∨ tile.k ≤ hw.vectorLane) →
      (ConvTemplate.Computes α t [0, 2, 3, 1] (t.renderSingleBatch hw tile) ↔
        (0 < t.iC → ConvTemplate.SamePixels t (fun i kh => i * t.stride.1 + kh)
          (ConvTemplate.dilatedRow t) (consecutiveCol t tile) (ConvTemplate.dilatedCol t))) ∧
      ∀ (mem : ConvMemory α) (s : ConvState α) (a : ℕ),
        (∀ g, InShape (ConvTemplate.outputShape t) g →
          ravel (ConvTemplate.outputShape t) g ≠ a) →
        ((t.renderSingleBatch hw tile).run mem s).y a = s.y a := by
  constructor
  · intro hlanes precisionBytes hprecision tiles h tile htile
    obtain ⟨hsingle, hle⟩ := singleTile_of_mem hlanes h tile htile
    have hpos := hsingle.kW_pos
    exact ⟨hsingle, by omega⟩
  · intro tile htile hkW hbatch hstride
    have hshared : tile.k ≤ hw.vectorLane ∨ t.tileIW tile = tile.m :=
      hstride.symm.imp_right (tileIW_eq htile hkW)
    constructor
    · apply single_computes singleBatch_program htile (singleBatch_sums htile hshared α) _ hbatch
      intro j hj kw hkw
      exact consecutiveCol_lt hj hkw
    · intro mem s a ha
      exact ConvProgram.run_frame mem s (singleBatch_program.stores htile hbatch) a ha

theorem singleConv_tile : SingleTile spadHardware128 ⟨1, 1, 1, 8, 8, 8, 8⟩ :=
  ⟨by decide, by decide, laneShaped_eight, laneShaped_eight, by decide, by decide, by decide, rfl⟩

/-- The template for strides computes a convolution whose strides differ. -/
theorem singleBatchStrided_computes_iff_small :
    ConvTemplate.Computes ℚ (singleConv (2, 3) (by decide)) [0, 2, 3, 1]
      ((singleConv (2, 3) (by decide)).renderSingleBatchStrided spadHardware128
        ⟨1, 1, 1, 8, 8, 8, 8⟩) := by
  rw [((singleBatchStrided_computes_iff ℚ spadHardware128 (singleConv (2, 3) (by decide))).2 _
    singleConv_tile rfl).1]
  decide +kernel

/-- The template for a stride of 1 computes a convolution with this stride, and not one that has it
only over the rows. -/
theorem singleBatch_computes_iff_small :
    ConvTemplate.Computes ℚ (singleConv (1, 1) (by decide)) [0, 2, 3, 1]
        ((singleConv (1, 1) (by decide)).renderSingleBatch spadHardware128
          ⟨1, 1, 1, 8, 8, 8, 8⟩) ∧
      ¬ ConvTemplate.Computes ℚ (singleConv (1, 2) (by decide)) [0, 2, 3, 1]
        ((singleConv (1, 2) (by decide)).renderSingleBatch spadHardware128
          ⟨1, 1, 1, 8, 8, 8, 8⟩) := by
  rw [((singleBatch_computes_iff ℚ spadHardware128 (singleConv (1, 1) (by decide))).2 _
      singleConv_tile rfl rfl (.inl rfl)).1,
    ((singleBatch_computes_iff ℚ spadHardware128 (singleConv (1, 2) (by decide))).2 _
      singleConv_tile rfl rfl (.inr (by decide))).1]
  decide +kernel

end PyTorchSim.Analysis
