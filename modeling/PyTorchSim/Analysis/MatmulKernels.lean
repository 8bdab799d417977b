import Mathlib.Tactic.Ring
import PyTorchSim.Analysis.ConvMapping
import PyTorchSim.Analysis.MatmulTiles
import PyTorchSim.Frontend.MatmulTemplates

/-!
# The kernels of matrix multiplications

The GEMM kernel takes the strides of the output for those of a weight with one column, and does
nothing when there is nothing to accumulate.  The BMM kernel loads the bias without its offset.
Otherwise both leave the product in the output, and nothing but it.
-/

set_option autoImplicit false

namespace PyTorchSim.Analysis

open Finset Frontend Frontend.CatProgram Library

/-! ## The tiles of the candidates -/

/-- The sizes of a tile are positive. -/
structure TilePositive (tile : MatmulTile) : Prop where
  m : 0 < tile.tileM
  n : 0 < tile.tileN
  k : 0 < tile.tileK

/-- The search of the convolutions is the one without padding of the accumulated axis. -/
theorem gemmCombinationMapping_eq (hw : SpadHardware) (M N K nExtraNode precisionBytes : ℕ) :
    gemmCombinationMapping hw M N K nExtraNode precisionBytes =
      combinationMapping hw false M N K nExtraNode precisionBytes := rfl

/-- The candidates fit into half of the scratchpad, and none is empty. -/
theorem of_mem_combinationMapping {hw : SpadHardware} {padK : Bool}
    {M N K nExtraNode precisionBytes m n k : ℕ} (hM : 0 < M) (hN : 0 < N)
    (hmem : (m, n, k) ∈ combinationMapping hw padK M N K nExtraNode precisionBytes) :
    checkSpadSize hw (gemmUse hw nExtraNode precisionBytes m n k) = true ∧
      0 < m ∧ 0 < n ∧ 0 < k := by
  simp only [combinationMapping, sortByUse, List.mem_map, List.mem_insertionSort,
    List.mem_flatMap, List.mem_filterMap, Option.ite_none_right_eq_some, Option.some.injEq] at hmem
  obtain ⟨_, ⟨tileK, hK, tileM, hMtile, tileN, hNtile, hfits, rfl⟩, htile⟩ := hmem
  obtain ⟨rfl, rfl, rfl⟩ : tileM = m ∧ tileN = n ∧ tileK = k := by simpa using htile
  have hfactor : 0 < if padK = true then 8 else 1 := by
    split_ifs <;> simp
  have hK8 : 0 < max K 8 := by simp
  refine ⟨hfits, ?_, ?_, ?_⟩
  · exact pos_of_mem_tileRange (padTo_pos hM (padFactor_pos (by simp))) hMtile
  · exact pos_of_mem_tileRange (padTo_pos hN (padFactor_pos (by simp))) hNtile
  · exact pos_of_mem_tileRange (padTo_pos hK8 (padFactor_pos hfactor)) hK

theorem gemm_positive_of_mem_selectTile {t : GemmTemplate} {hw : SpadHardware}
    {subtile : Bool} {precisionBytes : ℕ} {tile : MatmulTile}
    (hmem : tile ∈ t.selectTile hw subtile precisionBytes) : TilePositive tile := by
  unfold GemmTemplate.selectTile at hmem
  simp only [List.mem_flatMap] at hmem
  obtain ⟨⟨m, n, k⟩, hmnk, hmem⟩ := hmem
  have hpos : 0 < m ∧ 0 < n ∧ 0 < k := by
    split_ifs at hmnk with hempty
    · simp only [List.mem_singleton, Prod.mk.injEq] at hmnk
      omega
    · simp only [not_or] at hempty
      exact (of_mem_combinationMapping (Nat.pos_of_ne_zero hempty.1)
        (Nat.pos_of_ne_zero hempty.2.1) hmnk).2
  have hsizes : tile.tileM = m ∧ tile.tileN = n ∧ tile.tileK = k := by
    unfold GemmTemplate.subTiles at hmem
    dsimp only at hmem
    split_ifs at hmem <;> simp only [List.mem_cons, List.not_mem_nil, or_false] at hmem <;>
      grind
  rw [← hsizes.1, ← hsizes.2.1, ← hsizes.2.2] at hpos
  exact ⟨hpos.1, hpos.2.1, hpos.2.2⟩

theorem bmm_positive_of_mem_selectTile {t : BmmTemplate} {hw : SpadHardware}
    {precisionBytes : ℕ} {tile : MatmulTile} (hM : 0 < t.M) (hN : 0 < t.N)
    (hmem : tile ∈ t.selectTile hw precisionBytes) : TilePositive tile := by
  unfold BmmTemplate.selectTile at hmem
  obtain ⟨⟨m, n, k⟩, hmnk, rfl⟩ := List.mem_map.mp hmem
  obtain ⟨-, hm, hn, hk⟩ := of_mem_combinationMapping hM hN hmnk
  exact ⟨hm, hn, hk⟩

/-! ## Tiles of two and of three axes -/

theorem mem_product_pair {l l' : List ℕ} {c : List ℕ} :
    c ∈ product [l, l'] ↔ ∃ i ∈ l, ∃ j ∈ l', c = [i, j] := by
  simp [product, eq_comm]

theorem mem_product_triple {l l' l'' : List ℕ} {c : List ℕ} :
    c ∈ product [l, l', l''] ↔ ∃ b ∈ l, ∃ i ∈ l', ∃ j ∈ l'', c = [b, i, j] := by
  simp [product, eq_comm, and_assoc]

section Loads

variable {R : Type} [Semiring R] (p : MatmulProgram) (dram : ℕ → R) (index : List ℕ)
  (a b l l' s s' offset i j : ℕ)

/-- What a load leaves at an element of a tile with two axes. -/
theorem load_pair : p.load (operandDma [a, b] [l, l'] [s, s'] offset) dram index [i, j] =
    if (i < a ∧ index.getD l 0 + i < p.bound l) ∧ j < b ∧ index.getD l' 0 + j < p.bound l' then
      dram ((index.getD l 0 + i) * s + (index.getD l' 0 + j) * s' + offset)
    else 0 := by
  have hmoved : [i, j] ∈ p.moved (operandDma [a, b] [l, l'] [s, s'] offset) index ↔
      (i < a ∧ index.getD l 0 + i < p.bound l) ∧ j < b ∧ index.getD l' 0 + j < p.bound l' := by
    simp only [MatmulProgram.moved, operandDma, List.zipWith_cons_cons, List.zipWith_nil_right,
      mem_product_pair, List.mem_range, lt_min_iff]
    constructor
    · rintro ⟨i', hi, j', hj, heq⟩
      simp only [List.cons.injEq, and_true] at heq
      omega
    · rintro ⟨hi, hj⟩
      exact ⟨i, by omega, j, by omega, rfl⟩
  unfold MatmulProgram.load
  simp only [hmoved]
  split_ifs with hin
  · congr 1
    simp [DmaTile.address, operandDma]
    ring
  · rfl

/-- What a load leaves at an element of a tile with three axes, the first of size 1. -/
theorem load_triple (l₀ s₀ : ℕ) :
    p.load (operandDma [1, a, b] [l₀, l, l'] [s₀, s, s'] offset) dram index [0, i, j] =
      if index.getD l₀ 0 < p.bound l₀ ∧ (i < a ∧ index.getD l 0 + i < p.bound l) ∧
          j < b ∧ index.getD l' 0 + j < p.bound l' then
        dram (index.getD l₀ 0 * s₀ + (index.getD l 0 + i) * s + (index.getD l' 0 + j) * s' + offset)
      else 0 := by
  have hmoved :
      [0, i, j] ∈ p.moved (operandDma [1, a, b] [l₀, l, l'] [s₀, s, s'] offset) index ↔
        index.getD l₀ 0 < p.bound l₀ ∧ (i < a ∧ index.getD l 0 + i < p.bound l) ∧
          j < b ∧ index.getD l' 0 + j < p.bound l' := by
    simp only [MatmulProgram.moved, operandDma, List.zipWith_cons_cons, List.zipWith_nil_right,
      mem_product_triple, List.mem_range, lt_min_iff]
    constructor
    · rintro ⟨c', hc, i', hi, j', hj, heq⟩
      simp only [List.cons.injEq, and_true] at heq
      omega
    · rintro ⟨hc, hi, hj⟩
      exact ⟨0, by omega, i, by omega, j, by omega, rfl⟩
  unfold MatmulProgram.load
  simp only [hmoved]
  split_ifs with hin
  · congr 1
    simp [DmaTile.address, operandDma]
    ring
  · rfl

end Loads

/-! ## GEMM -/

section Gemm

variable {R : Type} [Semiring R] (t : GemmTemplate) (mem : MatmulMemory R)

/-- What the accumulation of an element starts from. -/
def gemmStart (m n : ℕ) : R :=
  match t.bias with
  | none => 0
  | some bias => mem.bias (bias.address m n)

/-- The elements of the output lie at different places. -/
def GemmDistinct : Prop :=
  ∀ m n m' n', m < t.M → n < t.N → m' < t.M → n' < t.N →
    t.y.address m n = t.y.address m' n' → m = m' ∧ n = n'

variable {t} {tile : MatmulTile}

/-- **The program of a tile size**, for the strides that it takes for the weight and the output. -/
theorem gemm_program_run {wr wc yr yc : ℕ} (htile : TilePositive tile)
    (hw : t.wStride = [wr, wc]) (hy : t.yStride = [yr, yc])
    (hplaces : ∀ g g' : ℕ × ℕ, g.1 < t.M ∧ g.2 < t.N → g'.1 < t.M ∧ g'.2 < t.N →
      g.1 * yr + g.2 * yc = g'.1 * yr + g'.2 * yc → g = g') (s : MatmulState R) :
    (∀ g : ℕ × ℕ, g.1 < t.M ∧ g.2 < t.N →
      ((t.program tile).run mem s).y (g.1 * yr + g.2 * yc) = gemmStart t mem g.1 g.2 +
        ∑ k ∈ range t.K, mem.x (t.x.address g.1 k) * mem.w (k * wr + g.2 * wc + t.w.offset)) ∧
      ∀ a, (∀ g : ℕ × ℕ, g.1 < t.M ∧ g.2 < t.N → g.1 * yr + g.2 * yc ≠ a) →
        ((t.program tile).run mem s).y a = s.y a := by
  have htiles : MatmulProgram.outerTiles (t.program tile) =
      product [loopRange t.M tile.tileM, loopRange t.N tile.tileN] := rfl
  have hmoved : ∀ m n, (t.program tile).moved (t.program tile).y [m, n] =
      product [List.range (min tile.tileM (t.M - m)), List.range (min tile.tileN (t.N - n))] :=
    fun _ _ => rfl
  have hplace : ∀ m n i j, (t.program tile).y.address [m, n] [i, j] =
      (m + i) * yr + (n + j) * yc := by
    intro m n i j
    simp [GemmTemplate.program, DmaTile.address, operandDma, hy]
    ring
  apply MatmulProgram.run_of_elements (t.program tile) mem (fun g : ℕ × ℕ => g.1 < t.M ∧ g.2 < t.N)
    (fun g => g.1 * yr + g.2 * yc) (fun g => gemmStart t mem g.1 g.2 +
      ∑ k ∈ range t.K, mem.x (t.x.address g.1 k) * mem.w (k * wr + g.2 * wc + t.w.offset))
  · intro index hindex c hc
    rw [htiles] at hindex
    obtain ⟨m, -, n, -, rfl⟩ := mem_product_pair.mp hindex
    rw [hmoved] at hc
    obtain ⟨i, hi, j, hj, rfl⟩ := mem_product_pair.mp hc
    simp only [List.mem_range, lt_min_iff] at hi hj
    have hm : m + i < t.M := by omega
    have hn : n + j < t.N := by omega
    refine ⟨(m + i, n + j), ⟨hm, hn⟩, hplace m n i j, ?_⟩
    have hproduct : ∀ q, ∀ k < tile.tileK,
        (t.program tile).load (t.program tile).x mem.x ([m, n] ++ [q]) [i, k] *
          (t.program tile).load (t.program tile).w mem.w ([m, n] ++ [q]) [k, j] =
        if q + k < t.K then mem.x (t.x.address (m + i) (q + k)) *
          mem.w ((q + k) * wr + (n + j) * wc + t.w.offset) else 0 := by
      intro q k hk
      rw [show (t.program tile).w = operandDma [tile.tileK, tile.tileN] [2, 1] [wr, wc] t.w.offset
        by rw [← hw]; rfl]
      simp only [GemmTemplate.program, MatrixLayout.strides, load_pair, MatmulProgram.bound]
      by_cases hq : q + k < t.K
      · simp [hi.1, hj.1, hk, hm, hn, hq, MatrixLayout.address]
      · simp [hq]
    have hfinished := MatmulProgram.finishedTile_apply (t.program tile) mem [m, n] i j
      (fun k => mem.x (t.x.address (m + i) k))
      (fun k => mem.w (k * wr + (n + j) * wc + t.w.offset)) htile.k hproduct
    refine hfinished.trans ?_
    congr 1
    unfold MatmulProgram.start gemmStart
    cases hbias : t.bias with
    | none => simp [GemmTemplate.program, hbias]
    | some bias =>
        simp [GemmTemplate.program, hbias, MatrixLayout.strides, load_pair, MatmulProgram.bound,
          hi.1, hj.1, hm, hn, MatrixLayout.address]
  · rintro ⟨m, n⟩ ⟨hm, hn⟩
    refine ⟨[m / tile.tileM * tile.tileM, n / tile.tileN * tile.tileN], ?_,
      [m % tile.tileM, n % tile.tileN], ?_, ?_⟩
    · rw [htiles]
      exact mem_product_pair.mpr ⟨_, mem_loopRange_of_lt htile.m hm, _,
        mem_loopRange_of_lt htile.n hn, rfl⟩
    · rw [hmoved]
      have hrow := Nat.div_add_mod' m tile.tileM
      have hcol := Nat.div_add_mod' n tile.tileN
      have hrowlt := Nat.mod_lt m htile.m
      have hcollt := Nat.mod_lt n htile.n
      refine mem_product_pair.mpr ⟨_, List.mem_range.mpr ?_, _, List.mem_range.mpr ?_, rfl⟩
      · dsimp only at hm
        omega
      · dsimp only at hn
        omega
    · rw [hplace, Nat.div_add_mod', Nat.div_add_mod']
  · exact hplaces

/-- The row stride that the kernel takes for the weight. -/
def gemmWeightStride (t : GemmTemplate) : ℕ := if 1 < t.N then t.w.rowStride else t.y.rowStride

/-- What the kernel leaves when there is something to accumulate. -/
theorem gemm_render_run (htile : TilePositive tile) (hdistinct : GemmDistinct t) (hM : 0 < t.M)
    (hN : 0 < t.N) (hK : 0 < t.K) (s : MatmulState R) :
    (∀ m < t.M, ∀ n < t.N, ((t.render tile).run mem s).y (t.y.address m n) = gemmStart t mem m n +
      ∑ k ∈ range t.K, mem.x (t.x.address m k) *
        mem.w (k * gemmWeightStride t + n * t.w.colStride + t.w.offset)) ∧
      ∀ a, (∀ m < t.M, ∀ n < t.N, t.y.address m n ≠ a) →
        ((t.render tile).run mem s).y a = s.y a := by
  have hrender : (t.render tile).run mem s = (t.program tile).run mem s := by
    simp [GemmTemplate.render, GemmText.run, hM.ne', hN.ne', hK.ne']
  -- with one column, the strides of the columns do not matter
  obtain ⟨wc, yc, hw, hy, hwc, hyc⟩ : ∃ wc yc, t.wStride = [gemmWeightStride t, wc] ∧
      t.yStride = [t.y.rowStride, yc] ∧ (∀ n < t.N, n * wc = n * t.w.colStride) ∧
      ∀ n < t.N, n * yc = n * t.y.colStride := by
    by_cases hone : 1 < t.N
    · refine ⟨t.w.colStride, t.y.colStride, ?_, ?_, fun _ _ => rfl, fun _ _ => rfl⟩
      · simp [GemmTemplate.wStride, gemmWeightStride, MatrixLayout.strides, hone]
      · simp [GemmTemplate.yStride, MatrixLayout.strides, hone]
    · have hzero : ∀ n < t.N, n = 0 := by omega
      refine ⟨0, 0, ?_, ?_, fun n hn => ?_, fun n hn => ?_⟩
      · simp [GemmTemplate.wStride, gemmWeightStride, hone]
      · simp [GemmTemplate.yStride, hone]
      · simp [hzero n hn]
      · simp [hzero n hn]
  have haddress : ∀ m, ∀ n < t.N, t.y.address m n = m * t.y.rowStride + n * yc := by
    intro m n hn
    simp [MatrixLayout.address, t.y_offset, hyc n hn]
  have hplaces : ∀ g g' : ℕ × ℕ, g.1 < t.M ∧ g.2 < t.N → g'.1 < t.M ∧ g'.2 < t.N →
      g.1 * t.y.rowStride + g.2 * yc = g'.1 * t.y.rowStride + g'.2 * yc → g = g' := by
    intro g g' hg hg' heq
    rw [← haddress _ _ hg.2, ← haddress _ _ hg'.2] at heq
    obtain ⟨hrow, hcol⟩ := hdistinct _ _ _ _ hg.1 hg.2 hg'.1 hg'.2 heq
    exact Prod.ext hrow hcol
  obtain ⟨hvalues, hframe⟩ := gemm_program_run mem htile hw hy hplaces s
  rw [hrender]
  constructor
  · intro m hm n hn
    rw [haddress m n hn, hvalues (m, n) ⟨hm, hn⟩, hwc n hn]
  · intro a ha
    apply hframe
    rintro ⟨m, n⟩ ⟨hm, hn⟩
    rw [← haddress m n hn]
    exact ha m hm n hn

/-- The kernel leaves the product and the bias in the output, whatever the operands and the buffers
hold. -/
def GemmComputes (R : Type) [Semiring R] (t : GemmTemplate) (tile : MatmulTile) : Prop :=
  ∀ (mem : MatmulMemory R) (s : MatmulState R), ∀ m < t.M, ∀ n < t.N,
    ((t.render tile).run mem s).y (t.y.address m n) = gemmStart t mem m n +
      ∑ k ∈ range t.K, mem.x (t.x.address m k) * mem.w (t.w.address k n)

/-- A column whose only 1 lies at the last place of the longer of two strides. -/
theorem sum_column (offset : ℕ) {K r r' : ℕ} (hK : 1 < K) (hr : r < r') :
    (∑ k ∈ range K, if k * r' + offset = (K - 1) * r' + offset then (1 : R) else 0) = 1 ∧
      (∑ k ∈ range K, if k * r + offset = (K - 1) * r' + offset then (1 : R) else 0) = 0 := by
  constructor
  · have hlast : ∀ k, k * r' + offset = (K - 1) * r' + offset ↔ k = K - 1 := by
      intro k
      rw [Nat.add_right_cancel_iff, Nat.mul_left_inj (by omega)]
    simp only [hlast]
    rw [Finset.sum_ite_eq', if_pos (mem_range.mpr (by omega))]
  · apply sum_eq_zero
    intro k hk
    have hlt : k * r < (K - 1) * r' := by
      have hkK : k ≤ K - 1 := by
        rw [mem_range] at hk
        omega
      calc
        k * r ≤ (K - 1) * r := Nat.mul_le_mul_right r hkK
        _ < (K - 1) * r' := Nat.mul_lt_mul_of_pos_left hr (by omega)
    simp [hlt.ne]

/-- With operands of ones and a column with a single 1, other strides give other sums. -/
theorem sum_column_ne [Nontrivial R] (offset : ℕ) {K r r' : ℕ} (hK : 1 < K) (hr : r ≠ r') :
    ∃ w : ℕ → R, ∑ k ∈ range K, w (k * r + offset) ≠ ∑ k ∈ range K, w (k * r' + offset) := by
  rcases Nat.lt_or_gt_of_ne hr with hlt | hgt
  · refine ⟨fun a => if a = (K - 1) * r' + offset then 1 else 0, ?_⟩
    obtain ⟨hone, hzero⟩ := sum_column (R := R) offset hK hlt
    simp only [hone, hzero]
    exact zero_ne_one
  · refine ⟨fun a => if a = (K - 1) * r + offset then 1 else 0, ?_⟩
    obtain ⟨hone, hzero⟩ := sum_column (R := R) offset hK hgt
    simp only [hone, hzero]
    exact one_ne_zero

/-- **The GEMM kernel computes the product** exactly if there is nothing to compute or there is
something to accumulate and, for a weight of one column and several rows, the rows of the weight lie
as far apart as those of the output.  The tiles that are chosen are not empty, and nothing but the
output is written. -/
theorem gemm_computes_iff (R : Type) [Semiring R] [Nontrivial R] (t : GemmTemplate)
    (hdistinct : GemmDistinct t) :
    (∀ hw subtile precisionBytes, ∀ tile ∈ t.selectTile hw subtile precisionBytes,
      TilePositive tile) ∧
    ∀ tile, TilePositive tile →
      (GemmComputes R t tile ↔ (0 < t.M → 0 < t.N →
        0 < t.K ∧ (1 < t.N ∨ t.K = 1 ∨ t.w.rowStride = t.y.rowStride))) ∧
      ∀ (mem : MatmulMemory R) (s : MatmulState R) (a : ℕ),
        (∀ m < t.M, ∀ n < t.N, t.y.address m n ≠ a) →
          ((t.render tile).run mem s).y a = s.y a := by
  refine ⟨fun _ _ _ _ => gemm_positive_of_mem_selectTile, fun tile htile => ⟨⟨?_, ?_⟩, ?_⟩⟩
  · intro hcomputes hM hN
    have hK : 0 < t.K := by
      by_contra hzero
      have hK : t.K = 0 := by omega
      have hstart : gemmStart t (⟨fun _ => 0, fun _ => 0, fun _ => 0⟩ : MatmulMemory R) 0 0 = 0 := by
        unfold gemmStart
        split <;> rfl
      have h := hcomputes ⟨fun _ => 0, fun _ => 0, fun _ => 0⟩
        ⟨fun _ => 0, fun _ => 0, fun _ => 0, fun _ => 1⟩ 0 hM 0 hN
      rw [hstart] at h
      simp [GemmTemplate.render, GemmText.run, hK] at h
    refine ⟨hK, ?_⟩
    by_contra hnot
    simp only [not_or, not_lt] at hnot
    obtain ⟨hone, hK1, hstride⟩ := hnot
    have hweight : gemmWeightStride t = t.y.rowStride := by
      simp [gemmWeightStride, Nat.not_lt.mpr hone]
    obtain ⟨w, hw⟩ := sum_column_ne (R := R) t.w.offset (K := t.K) (by omega) hstride
    have hstart : gemmStart t (⟨fun _ => 1, w, fun _ => 0⟩ : MatmulMemory R) 0 0 = 0 := by
      unfold gemmStart
      split <;> rfl
    have h := hcomputes ⟨fun _ => 1, w, fun _ => 0⟩
      ⟨fun _ => 0, fun _ => 0, fun _ => 0, fun _ => 0⟩ 0 hM 0 hN
    rw [(gemm_render_run _ htile hdistinct hM hN hK _).1 0 hM 0 hN, hstart, hweight] at h
    simp only [one_mul, zero_mul, Nat.add_zero, zero_add, MatrixLayout.address] at h
    exact hw h.symm
  · intro hcondition mem s m hm n hn
    have hM : 0 < t.M := by omega
    have hN : 0 < t.N := by omega
    obtain ⟨hK, hcases⟩ := hcondition hM hN
    rw [(gemm_render_run mem htile hdistinct hM hN hK s).1 m hm n hn]
    congr 1
    apply sum_congr rfl
    intro k hk
    have hrow : k * gemmWeightStride t = k * t.w.rowStride := by
      unfold gemmWeightStride
      rcases hcases with hcols | hone | hrows
      · simp [hcols]
      · have hzero : k = 0 := by
          rw [hone, mem_range] at hk
          omega
        simp [hzero]
      · simp [hrows]
    rw [hrow]
    rfl
  · intro mem s a ha
    by_cases hempty : t.M = 0 ∨ t.N = 0 ∨ t.K = 0
    · simp [GemmTemplate.render, GemmText.run, hempty]
    · simp only [not_or] at hempty
      exact (gemm_render_run mem htile hdistinct (Nat.pos_of_ne_zero hempty.1)
        (Nat.pos_of_ne_zero hempty.2.1) (Nat.pos_of_ne_zero hempty.2.2) s).2 a ha

/-- A matrix of three columns, times the column of a matrix of one or of two columns. -/
def columnGemm (wColumns : ℕ) : GemmTemplate where
  M := 2
  N := 1
  K := 3
  x := ⟨3, 1, 0⟩
  w := ⟨wColumns, 1, 0⟩
  bias := none
  y := ⟨1, 1, 0⟩
  y_offset := rfl

theorem columnGemm_distinct (wColumns : ℕ) : GemmDistinct (columnGemm wColumns) := by
  intro m n m' n' _ hn _ hn' heq
  simp only [columnGemm, MatrixLayout.address] at hn hn' heq
  omega

/-- The kernel multiplies with a column that lies in one piece, and not with a column of a matrix of
two columns. -/
theorem gemm_computes_iff_column :
    GemmComputes ℤ (columnGemm 1) ⟨8, 8, 8, 8, 8, 8⟩ ∧
      ¬ GemmComputes ℤ (columnGemm 2) ⟨8, 8, 8, 8, 8, 8⟩ := by
  have htile : TilePositive ⟨8, 8, 8, 8, 8, 8⟩ := ⟨by simp, by simp, by simp⟩
  have hone := ((gemm_computes_iff ℤ (columnGemm 1) (columnGemm_distinct 1)).2 _ htile).1
  have htwo := ((gemm_computes_iff ℤ (columnGemm 2) (columnGemm_distinct 2)).2 _ htile).1
  rw [hone, htwo]
  simp [columnGemm]

end Gemm

/-! ## BMM -/

section Bmm

variable {R : Type} [Semiring R] (t : BmmTemplate) (mem : MatmulMemory R)

/-- What the accumulation of an element starts from. -/
def bmmStart (b m n : ℕ) : R :=
  match t.bias with
  | none => 0
  | some bias => mem.bias (bias.address b m n)

/-- What the kernel starts from: the offset of the bias is left out. -/
def bmmLoadedStart (b m n : ℕ) : R :=
  match t.bias with
  | none => 0
  | some bias => mem.bias (b * bias.batchStride + m * bias.rowStride + n * bias.colStride)

/-- The elements of the output lie at different places. -/
def BmmDistinct : Prop :=
  ∀ b m n b' m' n', b < t.B → m < t.M → n < t.N → b' < t.B → m' < t.M → n' < t.N →
    t.y.address b m n = t.y.address b' m' n' → b = b' ∧ m = m' ∧ n = n'

variable {t} {tile : MatmulTile}

/-- What the kernel leaves. -/
theorem bmm_render_run (htile : TilePositive tile) (hdistinct : BmmDistinct t)
    (s : MatmulState R) :
    (∀ g : ℕ × ℕ × ℕ, g.1 < t.B ∧ g.2.1 < t.M ∧ g.2.2 < t.N →
      ((t.render tile).run mem s).y (t.y.address g.1 g.2.1 g.2.2) =
        bmmLoadedStart t mem g.1 g.2.1 g.2.2 + ∑ k ∈ range t.K,
          mem.x (t.x.address g.1 g.2.1 k) * mem.w (t.w.address g.1 k g.2.2)) ∧
      ∀ a, (∀ g : ℕ × ℕ × ℕ, g.1 < t.B ∧ g.2.1 < t.M ∧ g.2.2 < t.N →
        t.y.address g.1 g.2.1 g.2.2 ≠ a) → ((t.render tile).run mem s).y a = s.y a := by
  have htiles : MatmulProgram.outerTiles (t.render tile) =
      product [loopRange t.B 1, loopRange t.M tile.tileM, loopRange t.N tile.tileN] := rfl
  have hmoved : ∀ b m n, (t.render tile).moved (t.render tile).y [b, m, n] =
      product [List.range (min 1 (t.B - b)), List.range (min tile.tileM (t.M - m)),
        List.range (min tile.tileN (t.N - n))] :=
    fun _ _ _ => rfl
  have hplace : ∀ b m n i j, (t.render tile).y.address [b, m, n] [0, i, j] =
      t.y.address b (m + i) (n + j) := by
    intro b m n i j
    simp [BmmTemplate.render, DmaTile.address, operandDma, BatchLayout.strides,
      BatchLayout.address, t.y_offset]
    ring
  apply MatmulProgram.run_of_elements (t.render tile) mem
    (fun g : ℕ × ℕ × ℕ => g.1 < t.B ∧ g.2.1 < t.M ∧ g.2.2 < t.N)
    (fun g => t.y.address g.1 g.2.1 g.2.2) (fun g => bmmLoadedStart t mem g.1 g.2.1 g.2.2 +
      ∑ k ∈ range t.K, mem.x (t.x.address g.1 g.2.1 k) * mem.w (t.w.address g.1 k g.2.2))
  · intro index hindex c hc
    rw [htiles] at hindex
    obtain ⟨b, -, m, -, n, -, rfl⟩ := mem_product_triple.mp hindex
    rw [hmoved] at hc
    obtain ⟨z, hz, i, hi, j, hj, rfl⟩ := mem_product_triple.mp hc
    simp only [List.mem_range, lt_min_iff] at hz hi hj
    have hb : b < t.B := by omega
    have hm : m + i < t.M := by omega
    have hn : n + j < t.N := by omega
    have hzero : z = 0 := by omega
    rw [hzero]
    refine ⟨(b, m + i, n + j), ⟨hb, hm, hn⟩, hplace b m n i j, ?_⟩
    have hproduct : ∀ q, ∀ k < tile.tileK,
        (t.render tile).load (t.render tile).x mem.x ([b, m, n] ++ [q]) [0, i, k] *
          (t.render tile).load (t.render tile).w mem.w ([b, m, n] ++ [q]) [0, k, j] =
        if q + k < t.K then mem.x (t.x.address b (m + i) (q + k)) *
          mem.w (t.w.address b (q + k) (n + j)) else 0 := by
      intro q k hk
      simp only [BmmTemplate.render, BatchLayout.strides, load_triple, MatmulProgram.bound]
      by_cases hq : q + k < t.K
      · simp [hi.1, hj.1, hk, hb, hm, hn, hq, BatchLayout.address]
      · simp [hq]
    have hfinished := MatmulProgram.finishedTile_apply (t.render tile) mem [b, m, n] i j
      (fun k => mem.x (t.x.address b (m + i) k)) (fun k => mem.w (t.w.address b k (n + j)))
      htile.k hproduct
    refine hfinished.trans ?_
    congr 1
    unfold MatmulProgram.start bmmLoadedStart
    cases hbias : t.bias with
    | none => simp [BmmTemplate.render, hbias]
    | some bias =>
        simp [BmmTemplate.render, hbias, BatchLayout.strides, load_triple, MatmulProgram.bound,
          hi.1, hj.1, hb, hm, hn]
  · rintro ⟨b, m, n⟩ ⟨hb, hm, hn⟩
    refine ⟨[b / 1 * 1, m / tile.tileM * tile.tileM, n / tile.tileN * tile.tileN], ?_,
      [0, m % tile.tileM, n % tile.tileN], ?_, ?_⟩
    · rw [htiles]
      exact mem_product_triple.mpr ⟨_, mem_loopRange_of_lt Nat.one_pos hb, _,
        mem_loopRange_of_lt htile.m hm, _, mem_loopRange_of_lt htile.n hn, rfl⟩
    · rw [hmoved]
      have hrow := Nat.div_add_mod' m tile.tileM
      have hcol := Nat.div_add_mod' n tile.tileN
      have hrowlt := Nat.mod_lt m htile.m
      have hcollt := Nat.mod_lt n htile.n
      refine mem_product_triple.mpr ⟨_, List.mem_range.mpr ?_, _, List.mem_range.mpr ?_, _,
        List.mem_range.mpr ?_, rfl⟩
      · dsimp only at hb
        omega
      · dsimp only at hm
        omega
      · dsimp only at hn
        omega
    · rw [hplace, Nat.div_add_mod', Nat.div_add_mod', Nat.div_one, Nat.mul_one]
  · rintro ⟨b, m, n⟩ ⟨b', m', n'⟩ ⟨hb, hm, hn⟩ ⟨hb', hm', hn'⟩ heq
    obtain ⟨rfl, rfl, rfl⟩ := hdistinct _ _ _ _ _ _ hb hm hn hb' hm' hn' heq
    rfl

/-- The kernel leaves the products and the bias in the output, whatever the operands and the buffers
hold. -/
def BmmComputes (R : Type) [Semiring R] (t : BmmTemplate) (tile : MatmulTile) : Prop :=
  ∀ (mem : MatmulMemory R) (s : MatmulState R), ∀ b < t.B, ∀ m < t.M, ∀ n < t.N,
    ((t.render tile).run mem s).y (t.y.address b m n) = bmmStart t mem b m n +
      ∑ k ∈ range t.K, mem.x (t.x.address b m k) * mem.w (t.w.address b k n)

/-- **The BMM kernel computes the products** of all batches, also where there is nothing to
accumulate, exactly if the output is empty or the bias has no offset.  The tiles that are chosen for
an output that is not empty are not empty, and nothing but the output is written. -/
theorem bmm_computes_iff (R : Type) [Semiring R] [Nontrivial R] (t : BmmTemplate)
    (hdistinct : BmmDistinct t) :
    (0 < t.M → 0 < t.N → ∀ hw precisionBytes, ∀ tile ∈ t.selectTile hw precisionBytes,
      TilePositive tile) ∧
    ∀ tile, TilePositive tile →
      (BmmComputes R t tile ↔
        (0 < t.B → 0 < t.M → 0 < t.N → ∀ bias ∈ t.bias, bias.offset = 0)) ∧
      ∀ (mem : MatmulMemory R) (s : MatmulState R) (a : ℕ),
        (∀ b < t.B, ∀ m < t.M, ∀ n < t.N, t.y.address b m n ≠ a) →
          ((t.render tile).run mem s).y a = s.y a := by
  refine ⟨fun hM hN _ _ _ => bmm_positive_of_mem_selectTile hM hN,
    fun tile htile => ⟨⟨?_, ?_⟩, ?_⟩⟩
  · intro hcomputes hB hM hN bias hbias
    by_contra hoffset
    have h := hcomputes ⟨fun _ => 0, fun _ => 0, fun a => if a = bias.offset then 1 else 0⟩
      ⟨fun _ => 0, fun _ => 0, fun _ => 0, fun _ => 0⟩ 0 hB 0 hM 0 hN
    rw [(bmm_render_run _ htile hdistinct _).1 (0, 0, 0) ⟨hB, hM, hN⟩] at h
    simp [bmmLoadedStart, bmmStart, Option.mem_def.mp hbias, BatchLayout.address,
      Ne.symm hoffset] at h
  · intro hcondition mem s b hb m hm n hn
    rw [(bmm_render_run mem htile hdistinct s).1 (b, m, n) ⟨hb, hm, hn⟩]
    congr 1
    unfold bmmLoadedStart bmmStart
    cases hbias : t.bias with
    | none => rfl
    | some bias =>
        have hzero := hcondition (by omega) (by omega) (by omega) bias (by simp [hbias])
        simp [BatchLayout.address, hzero]
  · intro mem s a ha
    apply (bmm_render_run mem htile hdistinct s).2
    rintro ⟨b, m, n⟩ ⟨hb, hm, hn⟩
    exact ha b hb m hm n hn

/-- A batch of one product, with a bias that starts at the given place. -/
def biasedBmm (offset : ℕ) : BmmTemplate where
  B := 1
  M := 2
  N := 2
  K := 3
  x := ⟨6, 3, 1, 0⟩
  w := ⟨6, 2, 1, 0⟩
  bias := some ⟨4, 2, 1, offset⟩
  y := ⟨4, 2, 1, 0⟩
  y_offset := rfl

theorem biasedBmm_distinct (offset : ℕ) : BmmDistinct (biasedBmm offset) := by
  intro b m n b' m' n' hb hm hn hb' hm' hn' heq
  simp only [biasedBmm, BatchLayout.address] at hb hm hn hb' hm' hn' heq
  omega

/-- The kernel adds a bias that starts at the front of its buffer, and not one behind it. -/
theorem bmm_computes_iff_biased :
    BmmComputes ℤ (biasedBmm 0) ⟨8, 8, 8, 8, 8, 8⟩ ∧
      ¬ BmmComputes ℤ (biasedBmm 4) ⟨8, 8, 8, 8, 8, 8⟩ := by
  have htile : TilePositive ⟨8, 8, 8, 8, 8, 8⟩ := ⟨by simp, by simp, by simp⟩
  have hfront := ((bmm_computes_iff ℤ (biasedBmm 0) (biasedBmm_distinct 0)).2 _ htile).1
  have hbehind := ((bmm_computes_iff ℤ (biasedBmm 4) (biasedBmm_distinct 4)).2 _ htile).1
  rw [hfront, hbehind]
  simp [biasedBmm]

end Bmm

end PyTorchSim.Analysis
