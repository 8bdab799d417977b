import PyTorchSim.Analysis.ConvSingleBatch

/-!
# The lowering of convolutions

For a convolution without a dilation whose strides are equal, the kernel of the template that the
lowering takes leaves `aten.convolution` in the output, but for a template for batches without a
bias whose tiles have several columns.
-/

set_option autoImplicit false

namespace PyTorchSim.Analysis

open Frontend

/-- Kernel positions at the same places meet the same pixels. -/
theorem samePixels_of_eq (t : ConvTemplate) {row row' col col' : ℕ → ℕ → ℕ}
    (hrow : ∀ i kh, row i kh = row' i kh) (hcol : ∀ j kw, col j kw = col' j kw) :
    ConvTemplate.SamePixels t row row' col col' := by
  intro i _ j _ kh _ kw _
  rw [hrow, hcol]

/-- **The lowering of a convolution** without a dilation and with equal strides: the kernel computes
the convolution exactly if it is one of a single batch, there is a bias, or the tiles of the output
have one column. -/
theorem mlirConvolution_computes_iff (α : Type) [Field α] (hw : SpadHardware) (t : ConvTemplate)
    (singleBatchConv multiTileConv : Bool) (hlanes : 8 ∣ hw.vectorLane) (hbatch : 0 < t.batch)
    (hdilation : t.dilation = (1, 1)) (hstride : t.stride.1 = t.stride.2) {precisionBytes : ℕ}
    {hprecision : 0 < precisionBytes} {tiles : List ConvTile}
    (h : (t.mlirConvolution hw singleBatchConv multiTileConv).selectTile hw t precisionBytes
      hprecision = .ok tiles) {tile : ConvTile} (htile : tile ∈ tiles) :
    ConvTemplate.Computes α t (t.mlirConvolution hw singleBatchConv multiTileConv).inputOrder
        ((t.mlirConvolution hw singleBatchConv multiTileConv).render hw t tile) ↔
      t.batch = 1 ∧ singleBatchConv ∨ t.biasOffset.isSome ∨ tile.oW = 1 := by
  have hrow : ∀ i kh, i * t.stride.1 + kh = ConvTemplate.dilatedRow t i kh := by
    simp [ConvTemplate.dilatedRow, hdilation]
  have hcol : ∀ j kw, j * t.stride.2 + kw = ConvTemplate.dilatedCol t j kw := by
    simp [ConvTemplate.dilatedCol, hdilation]
  have hbatches : ¬ (t.batch = 1 ∧ singleBatchConv) →
      ((0 < t.batch → (0 < t.iC → ConvTemplate.SamePixels t (fun i kh => i * t.stride.1 + kh)
        (ConvTemplate.dilatedRow t) (fun j kw => j * t.stride.2 + kw)
        (ConvTemplate.dilatedCol t)) ∧ (t.biasOffset.isSome ∨ tile.oW = 1)) ↔
      t.batch = 1 ∧ singleBatchConv ∨ t.biasOffset.isSome ∨ tile.oW = 1) := by
    intro hnot
    have hsame := samePixels_of_eq t hrow hcol
    constructor
    · intro hcondition
      exact .inr (hcondition hbatch).2
    · intro hcondition _
      exact ⟨fun _ => hsame, hcondition.resolve_left hnot⟩
  unfold ConvTemplate.mlirConvolution at h ⊢
  split_ifs at h ⊢ with hsingle hstrided hfew
  · obtain ⟨hone, hunit, hconfig⟩ := hsingle
    obtain ⟨htile, hle⟩ := singleTile_of_mem hlanes h tile htile
    have hkW : tile.kW = 1 := by
      have := htile.kW_pos
      omega
    have hshared := tileIW_eq htile hkW (hstride ▸ hunit)
    have hcomputes := single_computes singleBatch_program htile
      (singleBatch_sums htile (.inr hshared) α) (fun j hj kw hkw => consecutiveCol_lt hj hkw) hone
    refine iff_of_true (hcomputes.mpr fun _ => samePixels_of_eq t hrow ?_) (.inl ⟨hone, hconfig⟩)
    intro j kw
    rw [← hcol, consecutiveCol, ← hstride, hunit, Nat.mul_one, Nat.mul_one, Nat.div_add_mod']
  · obtain ⟨hone, -, hconfig⟩ := hstrided
    obtain ⟨htile, -⟩ := singleTile_of_mem hlanes h tile htile
    have hcomputes := single_computes singleBatchStrided_program htile
      (singleBatchStrided_sums htile α)
      (fun j hj kw hkw => ConvTemplate.undilated_lt t.dilation_pos.2 t.cols_fit hj hkw) hone
    exact iff_of_true (hcomputes.mpr fun _ => samePixels_of_eq t hrow hcol) (.inl ⟨hone, hconfig⟩)
  · have htile := batchTile_of_mem_multiTile hlanes hbatch h tile htile
    have hnot : ¬ (t.batch = 1 ∧ singleBatchConv) := by tauto
    exact (batch_computes multiTile_batchProgram htile (multiTile_sums α htile)
      multiTile_operands_x).trans (hbatches hnot)
  · have htile := batchTile_of_mem hlanes hbatch h tile htile
    have hnot : ¬ (t.batch = 1 ∧ singleBatchConv) := by tauto
    exact (batch_computes conv_batchProgram htile (conv_sums α htile) conv_operands_x).trans
      (hbatches hnot)

/-- A row of a single batch is convolved without a bias; of two batches, only with tiles of one
column. -/
theorem mlirConvolution_computes_iff_small :
    ConvTemplate.Computes ℚ (singleConv (1, 1) (by decide)) [0, 2, 3, 1]
        ((singleConv (1, 1) (by decide)).renderSingleBatch spadHardware128
          ⟨1, 1, 1, 8, 8, 8, 8⟩) ∧
      ¬ ConvTemplate.Computes ℚ rowConv [2, 3, 0, 1]
        (rowConv.renderConv spadHardware128 ⟨1, 1, 1, 2, 8, 8, 8⟩) ∧
      ConvTemplate.Computes ℚ rowConv [2, 3, 0, 1]
        (rowConv.renderConv spadHardware128 ⟨1, 1, 1, 1, 8, 8, 8⟩) := by
  have hsingle : ((singleConv (1, 1) (by decide)).mlirConvolution spadHardware128 true
      false).selectTile spadHardware128 (singleConv (1, 1) (by decide)) 4 (by decide) =
      .ok [⟨1, 1, 1, 8, 8, 8, 8⟩] := by
    decide +kernel
  have hrow : (rowConv.mlirConvolution spadHardware128 true false).selectTile spadHardware128
      rowConv 4 (by decide) = .ok [⟨1, 1, 1, 2, 8, 8, 8⟩, ⟨1, 1, 1, 1, 8, 8, 8⟩] := by
    decide +kernel
  refine ⟨?_, ?_, ?_⟩
  · exact (mlirConvolution_computes_iff ℚ spadHardware128 (singleConv (1, 1) (by decide)) true false
      (by decide) (by decide) rfl rfl hsingle (by decide)).mpr (by decide)
  · exact fun hcomputes => absurd ((mlirConvolution_computes_iff ℚ spadHardware128 rowConv true
      false (by decide) (by decide) rfl rfl hrow (by decide)).mp hcomputes) (by decide)
  · exact (mlirConvolution_computes_iff ℚ spadHardware128 rowConv true false (by decide)
      (by decide) rfl rfl hrow (by decide)).mpr (by decide)

end PyTorchSim.Analysis
