import PyTorchSim.Analysis.ConvDecomposition
import PyTorchSim.Frontend.ConvTemplates

/-!
# The operands of a convolution template

What a wrapper leaves in memory, and `aten.convolution` as a sum over the elements of the padded
input.  A kernel that reads other places of the padded input computes the same for all operands
exactly if these places hold the same pixel of the input, or none.
-/

set_option autoImplicit false

namespace PyTorchSim.Analysis

open Finset Frontend Library

/-- The coordinates of an element of a tensor with four axes. -/
theorem inShape_four {n₀ n₁ n₂ n₃ : ℕ} {g : List ℕ} (hg : InShape [n₀, n₁, n₂, n₃] g) :
    ∃ i₀ i₁ i₂ i₃, g = [i₀, i₁, i₂, i₃] ∧ i₀ < n₀ ∧ i₁ < n₁ ∧ i₂ < n₂ ∧ i₃ < n₃ := by
  simp only [InShape, List.forall₂_cons_right_iff, List.forall₂_nil_right_iff] at hg
  obtain ⟨i₀, _, h₀, ⟨i₁, _, h₁, ⟨i₂, _, h₂, ⟨i₃, _, h₃, rfl, rfl⟩, rfl⟩, rfl⟩, rfl⟩ := hg
  exact ⟨i₀, i₁, i₂, i₃, rfl, h₀, h₁, h₂, h₃⟩

namespace ConvTemplate

variable {α : Type} [Field α] (t : ConvTemplate)

/-! ## Pixels -/

/-- The pixel of the input at a place of the padded input. -/
def pixel (i j : ℕ) : Option (ℕ × ℕ) :=
  if (t.padding.1 ≤ i ∧ i < t.iH + t.padding.1) ∧ t.padding.2 ≤ j ∧ j < t.iW + t.padding.2 then
    some (i - t.padding.1, j - t.padding.2) else none

theorem padInput_get (x : Tensor α) (b c i j : ℕ) :
    (t.padInput x).get [b, c, i, j] = (pixel t i j).elim 0 fun q => x.get [b, c, q.1, q.2] := by
  simp only [ConvTemplate.padInput, pixel]
  split_ifs <;> rfl

/-- The place of the padded input as the operator counts it. -/
theorem planeEntry_eq {x : Tensor α} (b c i j : ℕ) :
    x.planeEntry b c t.iH t.iW ((i : ℤ) - t.padding.1) ((j : ℤ) - t.padding.2) =
      (t.padInput x).get [b, c, i, j] := by
  simp only [Tensor.planeEntry, ConvTemplate.padInput]
  by_cases hin : (t.padding.1 ≤ i ∧ i < t.iH + t.padding.1) ∧
      t.padding.2 ≤ j ∧ j < t.iW + t.padding.2
  · have hplane : (0 ≤ (i : ℤ) - t.padding.1 ∧ (i : ℤ) - t.padding.1 < t.iH ∧
        0 ≤ (j : ℤ) - t.padding.2 ∧ (j : ℤ) - t.padding.2 < t.iW) := by
      omega
    have hi : ((i : ℤ) - t.padding.1).toNat = i - t.padding.1 := by omega
    have hj : ((j : ℤ) - t.padding.2).toNat = j - t.padding.2 := by omega
    rw [if_pos hplane, if_pos hin, hi, hj]
  · have hplane : ¬ (0 ≤ (i : ℤ) - t.padding.1 ∧ (i : ℤ) - t.padding.1 < t.iH ∧
        0 ≤ (j : ℤ) - t.padding.2 ∧ (j : ℤ) - t.padding.2 < t.iW) := by
      omega
    rw [if_neg hplane, if_neg hin]

/-! ## The sum -/

/-- The products of the weight with the places of the padded input that `row` and `col` give. -/
def windowSum (x w : Tensor α) (row col : ℕ → ℕ) (b n : ℕ) : α :=
  ∑ kh ∈ range t.kH, ∑ kw ∈ range t.kW, ∑ c ∈ range t.iC,
    (t.padInput x).get [b, c, row kh, col kw] * w.get [n, c, kh, kw]

/-- The sizes of the output. -/
def outputShape : List ℕ := [t.batch, t.oC, t.oH, t.oW]

theorem oH_pos : 0 < t.oH := Nat.succ_pos _

theorem oW_pos : 0 < t.oW := Nat.succ_pos _

/-- The last place of the kernel lies in the padded input. -/
theorem place_lt {padded kernel stride dilation o k : ℕ} (hfit : dilation * (kernel - 1) < padded)
    (ho : o < placesOf padded kernel stride dilation) (hk : k < kernel) :
    o * stride + k * dilation < padded := by
  have hplaces : o * stride ≤ padded - dilation * (kernel - 1) - 1 := by
    have hle : o ≤ (padded - dilation * (kernel - 1) - 1) / stride := by
      unfold placesOf at ho
      omega
    exact (Nat.mul_le_mul_right _ hle).trans (Nat.div_mul_le_self _ _)
  have hkernel : k * dilation ≤ dilation * (kernel - 1) := by
    rw [Nat.mul_comm]
    exact Nat.mul_le_mul_left _ (by omega)
  omega

theorem convSize_eq {size padding kernel stride dilation : ℕ} (hkernel : 0 < kernel)
    (hfit : dilation * (kernel - 1) < size + 2 * padding) :
    (convSize size kernel stride padding dilation).toNat =
      placesOf (size + 2 * padding) kernel stride dilation := by
  have hcast : (size + 2 * padding - dilation * (kernel - 1) - 1 : ℤ) =
      ((size + 2 * padding - dilation * (kernel - 1) - 1 : ℕ) : ℤ) := by
    obtain ⟨k, rfl⟩ : ∃ k, kernel = k + 1 := ⟨kernel - 1, by omega⟩
    simp only [Nat.add_sub_cancel] at hfit ⊢
    push_cast [Nat.sub_sub, Nat.cast_sub (show dilation * k + 1 ≤ size + 2 * padding by omega)]
    ring
  have hplaces : convSize size kernel stride padding dilation =
      (placesOf (size + 2 * padding) kernel stride dilation : ℤ) := by
    unfold convSize placesOf
    rw [hcast]
    push_cast
    rfl
  rw [hplaces, Int.toNat_natCast]

/-- **The operator accepts the operands**, and its result is the sum over the places at the distance
of the dilation. -/
theorem atenConvolution_eq {x w : Tensor α} {bias : Option (Tensor α)}
    (hx : x.shape = [t.batch, t.iC, t.iH, t.iW]) (hw : w.shape = [t.oC, t.iC, t.kH, t.kW])
    (hbias : ∀ b ∈ bias, b.shape = [t.oC]) :
    ∃ u : Tensor α, atenConvolution x w bias [(t.stride.1 : ℤ), (t.stride.2 : ℤ)]
        [(t.padding.1 : ℤ), (t.padding.2 : ℤ)] [(t.dilation.1 : ℤ), (t.dilation.2 : ℤ)] false [] 1 =
        .ok u ∧ u.shape = outputShape t ∧
      ∀ b < t.batch, ∀ n < t.oC, ∀ i < t.oH, ∀ j < t.oW, u.get [b, n, i, j] =
        windowSum t x w (fun kh => i * t.stride.1 + kh * t.dilation.1)
          (fun kw => j * t.stride.2 + kw * t.dilation.2) b n + biasEntry bias n := by
  have hrows : (t.dilation.1 : ℤ) * (t.kH - 1) < t.iH + 2 * t.padding.1 := by
    obtain ⟨k, hk⟩ : ∃ k, t.kH = k + 1 := ⟨t.kH - 1, by have := t.kernel_pos.1; omega⟩
    have hfit := t.rows_fit
    rw [hk] at hfit ⊢
    push_cast
    rw [add_sub_cancel_right]
    exact_mod_cast hfit
  have hcols : (t.dilation.2 : ℤ) * (t.kW - 1) < t.iW + 2 * t.padding.2 := by
    obtain ⟨k, hk⟩ : ∃ k, t.kW = k + 1 := ⟨t.kW - 1, by have := t.kernel_pos.2; omega⟩
    have hfit := t.cols_fit
    rw [hk] at hfit ⊢
    push_cast
    rw [add_sub_cancel_right]
    exact_mod_cast hfit
  have hok : ∃ u : Tensor α, atenConvolution x w bias [(t.stride.1 : ℤ), (t.stride.2 : ℤ)]
      [(t.padding.1 : ℤ), (t.padding.2 : ℤ)] [(t.dilation.1 : ℤ), (t.dilation.2 : ℤ)] false [] 1 =
        .ok u := by
    have hstride := t.stride_pos
    have hdilation := t.dilation_pos
    have hparams : (0 : ℤ) < 1 ∧ (0 : ℤ) < t.stride.1 ∧ (0 : ℤ) < t.stride.2 ∧
        (0 : ℤ) ≤ t.padding.1 ∧ (0 : ℤ) ≤ t.padding.2 ∧ (0 : ℤ) < t.dilation.1 ∧
        (0 : ℤ) < t.dilation.2 := by
      omega
    simp only [atenConvolution, hx, hw, expandParam, bind, Except.bind]
    rw [if_pos hparams]
    simp only [Bool.false_eq_true, if_false]
    rw [if_pos ⟨Int.toNat_one ▸ one_dvd _, (Nat.mul_one _).symm, hbias, hrows, hcols⟩]
    exact ⟨_, rfl⟩
  obtain ⟨u, hu⟩ := hok
  refine ⟨u, hu, ?_⟩
  obtain ⟨batch, iC, iH, iW, oC, iC', kH, kW, sh, sw, ph, pw, dh, dw, haccepted, hentries⟩ :=
    acceptedConv_of_ok hu
  have hin := haccepted.input_shape
  have hweight := haccepted.weight_shape
  have hstride := haccepted.stride_pair
  have hpadding := haccepted.padding_pair
  have hdilation := haccepted.dilation_pair
  rw [hx] at hin
  rw [hw] at hweight
  simp only [List.cons.injEq, and_true] at hin hweight
  simp only [pair2d, Except.ok.injEq, Prod.mk.injEq] at hstride hpadding hdilation
  obtain ⟨rfl, rfl, rfl, rfl⟩ := hin
  obtain ⟨rfl, rfl, rfl, rfl⟩ := hweight
  obtain ⟨rfl, rfl⟩ := hstride
  obtain ⟨rfl, rfl⟩ := hpadding
  obtain ⟨rfl, rfl⟩ := hdilation
  have hH : (convSize t.iH t.kH t.stride.1 t.padding.1 t.dilation.1).toNat = t.oH :=
    convSize_eq t.kernel_pos.1 t.rows_fit
  have hW : (convSize t.iW t.kW t.stride.2 t.padding.2 t.dilation.2).toNat = t.oW :=
    convSize_eq t.kernel_pos.2 t.cols_fit
  rw [hH, hW] at hentries
  refine ⟨hentries.shape, ?_⟩
  intro b hb n hn i hi j hj
  rw [hentries.get b hb n hn i hi j hj]
  unfold convEntry windowSum
  congr 1
  rw [sum_comm]
  apply sum_congr rfl
  intro kh _
  rw [sum_comm]
  apply sum_congr rfl
  intro kw _
  apply sum_congr rfl
  intro c _
  have hchannel : n / (t.oC / (1 : ℤ).toNat) * t.iC + c = c := by
    simp [Nat.div_eq_of_lt hn]
  rw [hchannel, ← planeEntry_eq]
  push_cast
  rfl

/-! ## The memory of a kernel -/

/-- The sum as a kernel computes it, where `place` is the order of the input in memory. -/
def memorySum {R : Type} [Semiring R] (place : ℕ → ℕ → ℕ → ℕ → ℕ) (mem : ConvMemory R)
    (row col : ℕ → ℕ) (b n : ℕ) : R :=
  ∑ kh ∈ range t.kH, ∑ kw ∈ range t.kW, ∑ c ∈ range t.iC,
    mem.x (place b c (row kh) (col kw)) * mem.w (ravel [t.kH, t.kW, t.iC, t.oC] [kh, kw, c, n])

/-- The wrapper turns the input for the kernel. -/
theorem operands_x (order : List ℕ) (x w bias : Tensor α) {idx : List ℕ}
    (hin : InShape ((t.padInput x).permute order).shape idx) :
    (t.operands order x w bias).x (ravel ((t.padInput x).permute order).shape idx) =
      ((t.padInput x).permute order).get idx := by
  simp only [ConvTemplate.operands, Tensor.data, unravel_ravel hin]

/-- The wrapper turns the weight for the kernel. -/
theorem operands_w (order : List ℕ) {x w bias : Tensor α} (hw : w.shape = [t.oC, t.iC, t.kH, t.kW])
    {n c kh kw : ℕ} (hn : n < t.oC) (hc : c < t.iC) (hkh : kh < t.kH) (hkw : kw < t.kW) :
    (t.operands order x w bias).w (ravel [t.kH, t.kW, t.iC, t.oC] [kh, kw, c, n]) =
      w.get [n, c, kh, kw] := by
  have hshape : (w.permute [2, 3, 1, 0]).shape = [t.kH, t.kW, t.iC, t.oC] := by
    simp [Tensor.permute, hw]
  have hin : InShape [t.kH, t.kW, t.iC, t.oC] [kh, kw, c, n] :=
    .cons hkh (.cons hkw (.cons hc (.cons hn .nil)))
  simp only [ConvTemplate.operands, Tensor.data, hshape, unravel_ravel hin]
  rfl

/-- The kernel computes the sum over the padded input. -/
theorem memorySum_operands {order : List ℕ} {place : ℕ → ℕ → ℕ → ℕ → ℕ} {x w bias : Tensor α}
    (hx : ∀ b < t.batch, ∀ c < t.iC, ∀ i < t.paddedH, ∀ j < t.paddedW,
      (t.operands order x w bias).x (place b c i j) = (t.padInput x).get [b, c, i, j])
    (hw : w.shape = [t.oC, t.iC, t.kH, t.kW]) {row col : ℕ → ℕ} {b n : ℕ} (hb : b < t.batch)
    (hn : n < t.oC) (hrow : ∀ kh < t.kH, row kh < t.paddedH)
    (hcol : ∀ kw < t.kW, col kw < t.paddedW) :
    memorySum t place (t.operands order x w bias) row col b n = windowSum t x w row col b n := by
  unfold memorySum windowSum
  apply sum_congr rfl
  intro kh hkh
  apply sum_congr rfl
  intro kw hkw
  apply sum_congr rfl
  intro c hc
  rw [mem_range] at hkh hkw hc
  rw [hx b hb c hc _ (hrow kh hkh) _ (hcol kw hkw), operands_w t order hw hn hc hkh hkw]

/-- A place that is counted without the dilation lies in the padded input. -/
theorem undilated_lt {padded kernel stride dilation o k : ℕ} (hdilation : 0 < dilation)
    (hfit : dilation * (kernel - 1) < padded) (ho : o < placesOf padded kernel stride dilation)
    (hk : k < kernel) : o * stride + k < padded := by
  calc
    o * stride + k ≤ o * stride + k * dilation :=
      Nat.add_le_add_left (Nat.le_mul_of_pos_right _ hdilation) _
    _ < padded := place_lt hfit ho hk

/-! ## Other places -/

/-- The kernel positions meet the same pixels at these places. -/
def SamePixels (row row' col col' : ℕ → ℕ → ℕ) : Prop :=
  ∀ i < t.oH, ∀ j < t.oW, ∀ kh < t.kH, ∀ kw < t.kW,
    pixel t (row i kh) (col j kw) = pixel t (row' i kh) (col' j kw)

instance (row row' col col' : ℕ → ℕ → ℕ) : Decidable (SamePixels t row row' col col') :=
  letI (i j : ℕ) : Decidable (∀ kh < t.kH, ∀ kw < t.kW,
      pixel t (row i kh) (col j kw) = pixel t (row' i kh) (col' j kw)) := inferInstance
  inferInstanceAs (Decidable (∀ i < t.oH, ∀ j < t.oW, ∀ kh < t.kH, ∀ kw < t.kW,
    pixel t (row i kh) (col j kw) = pixel t (row' i kh) (col' j kw)))

/-- Tensors with a single 1. -/
def unitTensor (shape idx : List ℕ) : Tensor α := ⟨shape, fun idx' => if idx' = idx then 1 else 0⟩

/-- The sum of a weight with a single 1. -/
theorem windowSum_unit (x : Tensor α) (row col : ℕ → ℕ) (b n : ℕ) {c kh kw : ℕ} (hc : c < t.iC)
    (hkh : kh < t.kH) (hkw : kw < t.kW) :
    windowSum t x (unitTensor [t.oC, t.iC, t.kH, t.kW] [n, c, kh, kw]) row col b n =
      (t.padInput x).get [b, c, row kh, col kw] := by
  have hweight : ∀ kh' kw' c', (unitTensor [t.oC, t.iC, t.kH, t.kW] [n, c, kh, kw] : Tensor α).get
      [n, c', kh', kw'] = if kh' = kh then (if kw' = kw then (if c' = c then 1 else 0) else 0)
        else 0 := by
    intro kh' kw' c'
    simp only [unitTensor, List.cons.injEq, and_true, true_and]
    split_ifs <;> simp_all
  unfold windowSum
  simp only [hweight, mul_ite, mul_one, mul_zero]
  simp [Finset.sum_ite_irrel, hkh, hkw, hc]

/-- **Sums over other places agree for all operands** exactly if the places hold the same pixels. -/
theorem windowSum_iff (row row' col col' : ℕ → ℕ → ℕ) :
    (∀ x w : Tensor α, x.shape = [t.batch, t.iC, t.iH, t.iW] → w.shape = [t.oC, t.iC, t.kH, t.kW] →
      ∀ b < t.batch, ∀ n < t.oC, ∀ i < t.oH, ∀ j < t.oW,
        windowSum t x w (row i) (col j) b n = windowSum t x w (row' i) (col' j) b n) ↔
      (0 < t.batch → 0 < t.iC → SamePixels t row row' col col') := by
  constructor
  · intro hsame hbatch hiC i hi j hj kh hkh kw hkw
    have hpixel : ∀ q : Option (ℕ × ℕ), ∀ p : ℕ × ℕ,
        (q.elim 0 fun q => (unitTensor [t.batch, t.iC, t.iH, t.iW] [0, 0, p.1, p.2] : Tensor α).get
          [0, 0, q.1, q.2]) = if q = some p then 1 else 0 := by
      intro q p
      cases q with
      | none => simp
      | some q => simp [unitTensor, Prod.ext_iff]
    have hprobe : ∀ p, (pixel t (row i kh) (col j kw) = some p ↔
        pixel t (row' i kh) (col' j kw) = some p) := by
      intro p
      have h := hsame (unitTensor [t.batch, t.iC, t.iH, t.iW] [0, 0, p.1, p.2])
        (unitTensor [t.oC, t.iC, t.kH, t.kW] [0, 0, kh, kw]) rfl rfl 0 hbatch 0 t.oC_pos i hi j hj
      rw [windowSum_unit t _ _ _ _ _ hiC hkh hkw, windowSum_unit t _ _ _ _ _ hiC hkh hkw,
        padInput_get, padInput_get, hpixel, hpixel] at h
      split_ifs at h with h₁ h₂ h₂
      · simp [h₁, h₂]
      · simp at h
      · simp at h
      · simp [h₁, h₂]
    exact Option.ext hprobe
  · intro hpixels x w _ _ b hb n _ i hi j hj
    unfold windowSum
    apply sum_congr rfl
    intro kh hkh
    apply sum_congr rfl
    intro kw hkw
    apply sum_congr rfl
    intro c hc
    rw [mem_range] at hkh hkw hc
    rw [padInput_get, padInput_get,
      hpixels (Nat.zero_lt_of_lt hb) (Nat.zero_lt_of_lt hc) i hi j hj kh hkh kw hkw]

/-! ## What a kernel is for -/

variable (α) in
/-- A kernel, called by its wrapper, leaves `aten.convolution` in the output, whatever the operands
and the buffers hold. -/
def Computes (order : List ℕ) (p : ConvProgram) : Prop :=
  ∀ x w bias : Tensor α, x.shape = [t.batch, t.iC, t.iH, t.iW] →
    w.shape = [t.oC, t.iC, t.kH, t.kW] → bias.shape = [t.oC] → ∀ s : ConvState α,
      ∃ u, atenConvolution x w (t.biasOffset.map fun _ => bias)
          [(t.stride.1 : ℤ), (t.stride.2 : ℤ)] [(t.padding.1 : ℤ), (t.padding.2 : ℤ)]
          [(t.dilation.1 : ℤ), (t.dilation.2 : ℤ)] false [] 1 = .ok u ∧
        u.shape = outputShape t ∧ ∀ g, InShape u.shape g →
          (p.run (t.operands order x w bias) s).y (ravel u.shape g) = u.get g

/-- The row of the padded input that the operator reads for a row of the output. -/
def dilatedRow (i kh : ℕ) : ℕ := i * t.stride.1 + kh * t.dilation.1

/-- The column of the padded input that the operator reads for a column of the output. -/
def dilatedCol (j kw : ℕ) : ℕ := j * t.stride.2 + kw * t.dilation.2

/-- A tensor of zeros. -/
def zeroTensor (shape : List ℕ) : Tensor α := ⟨shape, fun _ => 0⟩

theorem padInput_zero (shape idx : List ℕ) :
    (t.padInput (zeroTensor shape : Tensor α)).get idx = 0 := by
  simp only [ConvTemplate.padInput, zeroTensor]
  split
  · simp
  · rfl

theorem operands_zero (order shape shape' shape'' : List ℕ) :
    t.operands order (zeroTensor shape : Tensor α) (zeroTensor shape') (zeroTensor shape'') =
      ⟨fun _ => 0, fun _ => 0, fun _ => 0⟩ := by
  simp only [ConvTemplate.operands, Tensor.permute, padInput_zero]
  rfl

/-- A kernel that leaves something else than 0 for operands of zeros computes no convolution. -/
theorem not_computes_of_zero {order : List ℕ} {p : ConvProgram} (hbias : t.biasOffset = none)
    {b n i j : ℕ} (hb : b < t.batch) (hn : n < t.oC) (hi : i < t.oH) (hj : j < t.oW)
    {s : ConvState α} (hs : (p.run ⟨fun _ => 0, fun _ => 0, fun _ => 0⟩ s).y
      (ravel (outputShape t) [b, n, i, j]) ≠ 0) : ¬ Computes α t order p := by
  intro hcomputes
  obtain ⟨u, hu, hshape, hget⟩ := hcomputes (zeroTensor [t.batch, t.iC, t.iH, t.iW])
    (zeroTensor [t.oC, t.iC, t.kH, t.kW]) (zeroTensor [t.oC]) rfl rfl rfl s
  have hnone : ∀ bias ∈ t.biasOffset.map fun _ => (zeroTensor [t.oC] : Tensor α),
      bias.shape = [t.oC] := by
    simp [hbias]
  obtain ⟨u', hu', -, hget'⟩ := atenConvolution_eq t (x := zeroTensor [t.batch, t.iC, t.iH, t.iW])
    (w := zeroTensor [t.oC, t.iC, t.kH, t.kW]) rfl rfl hnone
  have hsame : u = u' := Except.ok.inj (hu.symm.trans hu')
  have hg : InShape u.shape [b, n, i, j] := by
    rw [hshape]
    exact .cons hb (.cons hn (.cons hi (.cons hj .nil)))
  have hvalue := hget _ hg
  rw [operands_zero, hshape, hsame, hget' b hb n hn i hi j hj] at hvalue
  apply hs
  rw [hvalue]
  simp [windowSum, padInput_zero, hbias, biasEntry]

/-- **A kernel whose values are sums over places of the padded input** computes the convolution
exactly if these places hold the pixels that the operator reads. -/
theorem computes_iff_of_values {order : List ℕ} {p : ConvProgram} (row col : ℕ → ℕ → ℕ)
    (hvalues : ∀ x w bias : Tensor α, x.shape = [t.batch, t.iC, t.iH, t.iW] →
      w.shape = [t.oC, t.iC, t.kH, t.kW] → bias.shape = [t.oC] → ∀ s : ConvState α,
        ∀ b < t.batch, ∀ n < t.oC, ∀ i < t.oH, ∀ j < t.oW,
          (p.run (t.operands order x w bias) s).y (ravel (outputShape t) [b, n, i, j]) =
            biasEntry (t.biasOffset.map fun _ => bias) n + windowSum t x w (row i) (col j) b n) :
    Computes α t order p ↔ (0 < t.batch → 0 < t.iC →
      SamePixels t row (dilatedRow t) col (dilatedCol t)) := by
  rw [← windowSum_iff (α := α)]
  have hbiasShape : ∀ bias : Tensor α, bias.shape = [t.oC] →
      ∀ b ∈ t.biasOffset.map fun _ => bias, b.shape = [t.oC] := by
    intro bias hbias b hb
    obtain ⟨_, _, rfl⟩ := Option.map_eq_some_iff.mp (Option.mem_def.mp hb)
    exact hbias
  constructor
  · intro hcomputes x w hx hw b hb n hn i hi j hj
    have hbias : (⟨[t.oC], fun _ => 0⟩ : Tensor α).shape = [t.oC] := rfl
    obtain ⟨u, hu, -, hget⟩ := hcomputes x w _ hx hw hbias ⟨fun _ => 0, fun _ => 0, fun _ => 0,
      fun _ => 0⟩
    obtain ⟨u', hu', hshape, hget'⟩ := atenConvolution_eq t hx hw (hbiasShape _ hbias)
    have hsame : u = u' := Except.ok.inj (hu.symm.trans hu')
    rw [← hsame] at hshape hget'
    have hg : InShape u.shape [b, n, i, j] := by
      rw [hshape]
      exact .cons hb (.cons hn (.cons hi (.cons hj .nil)))
    have h := hget _ hg
    rw [hshape, hvalues x w _ hx hw hbias _ b hb n hn i hi j hj, hget' b hb n hn i hi j hj,
      add_comm] at h
    exact add_right_cancel h
  · intro hsame x w bias hx hw hbias s
    obtain ⟨u, hu, hshape, hget⟩ := atenConvolution_eq t hx hw (hbiasShape bias hbias)
    refine ⟨u, hu, hshape, ?_⟩
    intro g hg
    rw [hshape] at hg ⊢
    obtain ⟨b, n, i, j, rfl, hb, hn, hi, hj⟩ := inShape_four hg
    rw [hvalues x w bias hx hw hbias s b hb n hn i hi j hj, hget b hb n hn i hi j hj,
      hsame x w hx hw b hb n hn i hi j hj, add_comm]
    rfl

end ConvTemplate

end PyTorchSim.Analysis
