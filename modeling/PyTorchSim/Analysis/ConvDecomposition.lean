import Mathlib.Tactic.Ring
import PyTorchSim.Analysis.TensorEntries
import PyTorchSim.Frontend.ConvDecomposition

/-!
# Convolutions by linear layers and sums

`atenConvolution` is what the operator is for: the sum over the channels of a group and the kernel
positions, for arguments that the operator accepts.  Wherever the decomposition returns a tensor for
such arguments, it is this one.
-/

set_option autoImplicit false

namespace PyTorchSim.Analysis

open Finset Frontend Library

section Reference

variable {α : Type} [Field α]

/-- A parameter of the operator: one value for both axes, or one for each. -/
def expandParam (seq : List ℤ) : Except TorchError (ℤ × ℤ) :=
  match seq with
  | [v] => .ok (v, v)
  | [v, v'] => .ok (v, v')
  | _ => .error .runtimeError

/-- The number of places a kernel takes on an axis. -/
def convSize (size kernel : ℕ) (stride padding dilation : ℤ) : ℤ :=
  (size + 2 * padding - dilation * (kernel - 1) - 1) / stride + 1

/-- The elements of a convolution with `cg` input channels and `og` output channels in a group. -/
def convEntry (input weight : Tensor α) (bias : Option (Tensor α)) (h w kh kw cg og : ℕ)
    (sh sw ph pw dh dw : ℤ) (b k i j : ℕ) : α :=
  ∑ c ∈ range cg, ∑ ki ∈ range kh, ∑ kj ∈ range kw,
    input.planeEntry b (k / og * cg + c) h w (i * sh + ki * dh - ph) (j * sw + kj * dw - pw) *
      weight.get [k, c, ki, kj] +
    biasEntry bias k

/-- The elements of a transposed convolution. -/
def convTransposedEntry (input weight : Tensor α) (bias : Option (Tensor α))
    (h w kh kw cg og : ℕ) (sh sw ph pw dh dw : ℤ) (b k i j : ℕ) : α :=
  ∑ c ∈ range cg, ∑ y ∈ range h, ∑ x ∈ range w, ∑ ki ∈ range kh, ∑ kj ∈ range kw,
    (if (y * sh + ki * dh : ℤ) = i + ph ∧ (x * sw + kj * dw : ℤ) = j + pw then
      input.get [b, k / og * cg + c, y, x] * weight.get [k / og * cg + c, k % og, ki, kj]
    else 0) +
    biasEntry bias k

/-- `aten.convolution` in two dimensions. -/
def atenConvolution (input weight : Tensor α) (bias : Option (Tensor α))
    (stride padding dilation : List ℤ) (transposed : Bool) (outputPadding : List ℤ) (groups : ℤ) :
    Except TorchError (Tensor α) :=
  match input.shape, weight.shape with
  | [n, cin, h, w], [w0, w1, kh, kw] => do
    let (sh, sw) ← expandParam stride
    let (ph, pw) ← expandParam padding
    let (dh, dw) ← expandParam dilation
    let g := groups.toNat
    if 0 < groups ∧ 0 < sh ∧ 0 < sw ∧ 0 ≤ ph ∧ 0 ≤ pw ∧ 0 < dh ∧ 0 < dw then
      if transposed then do
        let (oph, opw) ← expandParam outputPadding
        let hOut := (h - 1) * sh - 2 * ph + dh * (kh - 1) + oph + 1
        let wOut := (w - 1) * sw - 2 * pw + dw * (kw - 1) + opw + 1
        if w0 = cin ∧ g ∣ cin ∧ (∀ b ∈ bias, b.shape = [w1 * g]) ∧ 0 ≤ oph ∧ 0 ≤ opw ∧
            0 < hOut ∧ 0 < wOut then
          return ⟨[n, w1 * g, hOut.toNat, wOut.toNat], fun idx =>
            match idx with
            | [b, k, i, j] =>
              convTransposedEntry input weight bias h w kh kw (cin / g) w1 sh sw ph pw dh dw b k i j
            | _ => 0⟩
        else .error .runtimeError
      else if g ∣ w0 ∧ cin = w1 * g ∧ (∀ b ∈ bias, b.shape = [w0]) ∧
          dh * (kh - 1) < h + 2 * ph ∧ dw * (kw - 1) < w + 2 * pw then
        return ⟨[n, w0, (convSize h kh sh ph dh).toNat, (convSize w kw sw pw dw).toNat],
          fun idx =>
            match idx with
            | [b, k, i, j] =>
              convEntry input weight bias h w kh kw w1 (w0 / g) sh sw ph pw dh dw b k i j
            | _ => 0⟩
      else .error .runtimeError
    else .error .runtimeError
  | _, _ => .error .runtimeError

/-- Two tensors of one shape with the same elements. -/
structure SameTensor (t u : Tensor α) : Prop where
  shape : t.shape = u.shape
  get : ∀ idx, InShape u.shape idx → t.get idx = u.get idx

end Reference

/-! ## Arguments that the operator accepts -/

section Accepted

variable {α : Type} [Field α] {input weight : Tensor α} {bias : Option (Tensor α)}
  {stride padding dilation outputPadding : List ℤ} {groups : ℤ}

theorem pair2d_of_expandParam {seq : List ℤ} {p : ℤ × ℤ} (h : expandParam seq = .ok p) :
    pair2d seq = .ok p := by
  match seq, h with
  | [_], h => exact h
  | [_, _], h => exact h

/-- A convolution that is not transposed: its shapes, its parameters and what the operator checks of
them. -/
structure AcceptedConv (input weight : Tensor α) (bias : Option (Tensor α))
    (stride padding dilation : List ℤ) (groups : ℤ)
    (n cin h w w0 w1 kh kw : ℕ) (sh sw ph pw dh dw : ℤ) : Prop where
  input_shape : input.shape = [n, cin, h, w]
  weight_shape : weight.shape = [w0, w1, kh, kw]
  stride_pair : pair2d stride = .ok (sh, sw)
  padding_pair : pair2d padding = .ok (ph, pw)
  dilation_pair : pair2d dilation = .ok (dh, dw)
  groups_pos : 0 < groups
  sh_pos : 0 < sh
  sw_pos : 0 < sw
  ph_nonneg : 0 ≤ ph
  pw_nonneg : 0 ≤ pw
  dh_pos : 0 < dh
  dw_pos : 0 < dw
  groups_dvd : groups.toNat ∣ w0
  channels : cin = w1 * groups.toNat
  bias_shape : ∀ b ∈ bias, b.shape = [w0]
  rows_fit : dh * (kh - 1) < h + 2 * ph
  cols_fit : dw * (kw - 1) < w + 2 * pw

theorem acceptedConv_of_ok {u : Tensor α}
    (h : atenConvolution input weight bias stride padding dilation false outputPadding groups =
      .ok u) :
    ∃ n cin h w w0 w1 kh kw sh sw ph pw dh dw,
      AcceptedConv input weight bias stride padding dilation groups n cin h w w0 w1 kh kw
        sh sw ph pw dh dw ∧
      Entries4 u n w0 (convSize h kh sh ph dh).toNat (convSize w kw sw pw dw).toNat
        (convEntry input weight bias h w kh kw w1 (w0 / groups.toNat) sh sw ph pw dh dw) := by
  rw [atenConvolution] at h
  split at h
  · next n cin hh w w0 w1 kh kw hin hw =>
    obtain ⟨⟨sh, sw⟩, hs, h⟩ := bind_eq_ok.mp h
    obtain ⟨⟨ph, pw⟩, hp, h⟩ := bind_eq_ok.mp h
    obtain ⟨⟨dh, dw⟩, hd, h⟩ := bind_eq_ok.mp h
    simp only [Bool.false_eq_true, if_false] at h
    split at h
    · next hparams =>
      split at h
      · next hshape =>
        obtain ⟨hg, hc, hb, hrows, hcols⟩ := hshape
        obtain ⟨h1, h2, h3, h4, h5, h6, h7⟩ := hparams
        cases h
        refine ⟨n, cin, hh, w, w0, w1, kh, kw, sh, sw, ph, pw, dh, dw, ?_, rfl,
          fun _ _ _ _ _ _ _ _ => rfl⟩
        exact ⟨hin, hw, pair2d_of_expandParam hs, pair2d_of_expandParam hp,
          pair2d_of_expandParam hd, h1, h2, h3, h4, h5, h6, h7, hg, hc, hb, hrows, hcols⟩
      · cases h
    · cases h
  · cases h

end Accepted

/-! ## Padding and gathering -/

section Gather

variable {α : Type} {t : Tensor α} {n c h w : ℕ}

theorem mapM_wrapIndex (size : ℕ) (l : List ℤ) (hl : ∀ v ∈ l, 0 ≤ v ∧ v < size) :
    l.mapM (Tensor.wrapIndex size) = some (l.map Int.toNat) := by
  induction l with
  | nil => rfl
  | cons v l ih =>
    have hv : Tensor.wrapIndex size v = some v.toNat := by
      rw [Tensor.wrapIndex, if_pos (hl v (List.mem_cons_self ..))]
    rw [List.mapM_cons, hv, ih fun v' hv' => hl v' (List.mem_cons_of_mem v hv')]
    rfl

theorem indexGrid_gives {f : ℕ → ℕ → ℕ → ℕ → α} (ht : Entries4 t n c h w f) {m p : ℕ}
    {row col : ℕ → ℤ} (hrow : ∀ i < m, 0 ≤ row i ∧ row i < h)
    (hcol : ∀ j < p, 0 ≤ col j ∧ col j < w) :
    Gives (t.indexGrid ((List.range m).map row) ((List.range p).map col)) fun u =>
      Entries4 u n c m p fun b k i j => f b k (row i).toNat (col j).toNat := by
  have hrows := mapM_wrapIndex h ((List.range m).map row) (by simpa using hrow)
  have hcols := mapM_wrapIndex w ((List.range p).map col) (by simpa using hcol)
  simp only [Tensor.indexGrid, ht.shape, hrows, hcols]
  refine Gives.ok ⟨by simp, fun b hb k hk i hi j hj => ?_⟩
  simp only [List.map_map, List.getD_eq_getElem?_getD, List.getElem?_map, List.getElem?_range hi,
    List.getElem?_range hj, Option.map_some, Option.getD_some, Function.comp_apply]
  have hi' : (row i).toNat < h := by
    have := hrow i hi
    omega
  have hj' : (col j).toNat < w := by
    have := hcol j hj
    omega
  exact ht.get b hb k hk _ hi' _ hj'

variable [Field α]

theorem pad_gives (hshape : t.shape = [n, c, h, w]) {ph pw : ℤ} (hph : 0 ≤ ph) (hpw : 0 ≤ pw) :
    Gives (t.pad pw pw ph ph) fun u =>
      Entries4 u n c (h + ph + ph).toNat (w + pw + pw).toNat
        fun b k i j => t.planeEntry b k h w (i - ph) (j - pw) := by
  have hsize : ¬ ((h : ℤ) + ph + ph < 0 ∨ (w : ℤ) + pw + pw < 0) := by omega
  simp only [Tensor.pad, hshape]
  rw [if_neg hsize]
  exact Gives.ok ⟨rfl, fun _ _ _ _ _ _ _ _ => rfl⟩

theorem zeros_gives {ho wo : ℤ} (hho : 0 ≤ ho) (hwo : 0 ≤ wo) :
    Gives (Tensor.zeros n c ho wo) fun u : Tensor α =>
      Entries4 u n c ho.toNat wo.toNat fun _ _ _ _ => 0 := by
  rw [Tensor.zeros, if_neg (by omega)]
  exact Gives.ok ⟨rfl, fun _ _ _ _ _ _ _ _ => rfl⟩

end Gather

theorem convSize_nonneg {size kernel : ℕ} {stride padding dilation : ℤ} (hs : 0 < stride)
    (hfit : dilation * (kernel - 1) < size + 2 * padding) :
    0 ≤ convSize size kernel stride padding dilation := by
  have hfloor : 0 ≤ (size + 2 * padding - dilation * (kernel - 1) - 1) / stride :=
    Int.ediv_nonneg (by omega) hs.le
  rw [convSize]
  omega

/-- The size as the code computes it, from the padded input. -/
theorem fdiv_eq_convSize {size kernel : ℕ} {stride padding dilation : ℤ} (hs : 0 < stride)
    (hp : 0 ≤ padding) :
    Int.fdiv (((size + padding + padding).toNat : ℤ) - dilation * (kernel - 1) - 1) stride + 1 =
      convSize size kernel stride padding dilation := by
  have hpadded : ((size + padding + padding).toNat : ℤ) = size + 2 * padding := by omega
  rw [hpadded, Int.fdiv_eq_ediv_of_nonneg _ hs.le, convSize]

/-- The places of a kernel position lie in the padded input. -/
theorem place_bounds {size kernel i k : ℕ} {stride padding dilation : ℤ} (hs : 0 < stride)
    (hd : 0 < dilation)
    (hi : i < (convSize size kernel stride padding dilation).toNat) (hk : k < kernel) :
    0 ≤ i * stride + k * dilation ∧
      i * stride + k * dilation < ((size + padding + padding).toNat : ℤ) := by
  have hplace : (i : ℤ) ≤ (size + 2 * padding - dilation * (kernel - 1) - 1) / stride := by
    rw [convSize] at hi
    omega
  have hrow : (i : ℤ) * stride ≤ size + 2 * padding - dilation * (kernel - 1) - 1 :=
    Int.mul_le_of_le_ediv hs hplace
  have hkernel : (k : ℤ) ≤ kernel - 1 := by omega
  have hcol : (k : ℤ) * dilation ≤ dilation * (kernel - 1) := by
    rw [mul_comm dilation]
    exact mul_le_mul_of_nonneg_right hkernel hd.le
  have hrow' : 0 ≤ (i : ℤ) * stride := mul_nonneg (by omega) hs.le
  have hcol' : 0 ≤ (k : ℤ) * dilation := mul_nonneg (by omega) hd.le
  constructor <;> omega

/-! ## The grouped path -/

section Grouped

variable {α : Type} [Field α] {input weight : Tensor α} {bias : Option (Tensor α)}
  {stride padding dilation : List ℤ} {groups : ℤ}
  {n g h w kh kw : ℕ} {sh sw ph pw dh dw : ℤ}

/-- What one kernel position adds to an element. -/
def kernelTerm (input weight : Tensor α) (h w : ℕ) (sh sw ph pw dh dw : ℤ) (ki kj b k i j : ℕ) :
    α :=
  input.planeEntry b k h w (i * sh + ki * dh - ph) (j * sw + kj * dw - pw) * weight.get
    [k, 0, ki, kj]

theorem addKernelPosition_gives {xPad out : Tensor α} {ki kj : ℕ}
    (hweight : weight.shape = [g, 1, kh, kw])
    (hs : 0 < sh) (hs' : 0 < sw) (hd : 0 < dh) (hd' : 0 < dw)
    (hki : ki < kh) (hkj : kj < kw) {acc : ℕ → ℕ → ℕ → ℕ → α}
    (hpad : Entries4 xPad n g (h + ph + ph).toNat (w + pw + pw).toNat
      fun b k i j => input.planeEntry b k h w (i - ph) (j - pw))
    (hout : Entries4 out n g (convSize h kh sh ph dh).toNat (convSize w kw sw pw dw).toNat acc) :
    Gives (addKernelPosition xPad weight g (convSize h kh sh ph dh) (convSize w kw sw pw dw)
      sh sw dh dw ki kj out) fun t =>
      Entries4 t n g (convSize h kh sh ph dh).toNat (convSize w kw sw pw dw).toNat
        fun b k i j => acc b k i j +
          kernelTerm input weight h w sh sw ph pw dh dw ki kj b k i j := by
  have hrow : ∀ i < (convSize h kh sh ph dh).toNat, 0 ≤ (i : ℤ) * sh + ki * dh ∧
      (i : ℤ) * sh + ki * dh < ((h + ph + ph).toNat : ℤ) :=
    fun i hi => place_bounds hs hd hi hki
  have hcol : ∀ j < (convSize w kw sw pw dw).toNat, 0 ≤ (j : ℤ) * sw + kj * dw ∧
      (j : ℤ) * sw + kj * dw < ((w + pw + pw).toNat : ℤ) :=
    fun j hj => place_bounds hs' hd' hj hkj
  have hkernel : Entries1 (weight.selectKernel ki kj) g fun k => weight.get [k, 0, ki, kj] := by
    constructor
    · rw [Tensor.selectKernel, hweight]
      rfl
    · intro k _
      rfl
  refine Gives.bind (indexGrid_gives hpad hrow hcol) fun sub hsub => ?_
  refine Gives.bind (view_entries4_of_channels hkernel) fun wgk hwgk => ?_
  refine Gives.bind (broadcastWith_channels (· * ·) hsub hwgk) fun product hproduct => ?_
  refine (broadcastWith_entries4 (· + ·) hout hproduct).mono fun t ht => ?_
  refine ht.congr fun b _ k _ i hi j hj => ?_
  rw [kernelTerm, Int.toNat_of_nonneg (hrow i hi).1, Int.toNat_of_nonneg (hcol j hj).1]

/-- **The sum over the kernel positions**, after all turns of both loops. -/
theorem kernelLoop_gives {xPad out : Tensor α} (hweight : weight.shape = [g, 1, kh, kw])
    (hs : 0 < sh) (hs' : 0 < sw) (hd : 0 < dh) (hd' : 0 < dw)
    (hpad : Entries4 xPad n g (h + ph + ph).toNat (w + pw + pw).toNat
      fun b k i j => input.planeEntry b k h w (i - ph) (j - pw))
    (hout : Entries4 out n g (convSize h kh sh ph dh).toNat (convSize w kw sw pw dw).toNat
      fun _ _ _ _ => 0) :
    Gives ((List.range kh).foldlM (fun out ki =>
      (List.range kw).foldlM (fun out kj =>
        addKernelPosition xPad weight g (convSize h kh sh ph dh) (convSize w kw sw pw dw)
          sh sw dh dw ki kj out) out) out) fun t =>
      Entries4 t n g (convSize h kh sh ph dh).toNat (convSize w kw sw pw dw).toNat
        fun b k i j => ∑ ki ∈ range kh, ∑ kj ∈ range kw,
          kernelTerm input weight h w sh sw ph pw dh dw ki kj b k i j := by
  -- after `ki` rows of the kernel their positions have been added
  refine Gives.foldlM_range (I := fun ki t =>
    Entries4 t n g (convSize h kh sh ph dh).toNat (convSize w kw sw pw dw).toNat
      fun b k i j => ∑ ki' ∈ range ki, ∑ kj ∈ range kw,
        kernelTerm input weight h w sh sw ph pw dh dw ki' kj b k i j) kh
    (fun ki hki out hout => ?_) (hout.congr fun _ _ _ _ _ _ _ _ => by simp)
  refine (Gives.foldlM_range (I := fun kj t =>
    Entries4 t n g (convSize h kh sh ph dh).toNat (convSize w kw sw pw dw).toNat
      fun b k i j => ∑ ki' ∈ range ki, ∑ kj ∈ range kw,
          kernelTerm input weight h w sh sw ph pw dh dw ki' kj b k i j +
        ∑ kj' ∈ range kj, kernelTerm input weight h w sh sw ph pw dh dw ki kj' b k i j) kw
    (fun kj hkj out hout => ?_) (hout.congr fun _ _ _ _ _ _ _ _ => by simp)).mono
    fun t ht => ht.congr fun b _ k _ i _ j _ => ?_
  · refine (addKernelPosition_gives hweight hs hs' hd hd' hki hkj hpad hout).mono fun t ht => ?_
    refine ht.congr fun b _ k _ i _ j _ => ?_
    rw [Finset.sum_range_succ, add_assoc]
  · rw [Finset.sum_range_succ]

theorem groupConv_gives {cin w0 w1 : ℕ}
    (hconv : AcceptedConv input weight bias stride padding dilation groups n cin h w w0 w1 kh kw
      sh sw ph pw dh dw) (hcin : (cin : ℤ) = groups) (hw0 : (w0 : ℤ) = groups) (hw1 : w1 = 1) :
    Gives (groupConvCin1Cout1 input weight bias stride padding dilation groups) fun t =>
      Entries4 t n w0 (convSize h kh sh ph dh).toNat (convSize w kw sw pw dw).toNat
        (convEntry input weight bias h w kh kw w1 (w0 / groups.toNat) sh sw ph pw dh dw) := by
  subst hw1
  have hcin' : cin = w0 := by omega
  have hg : groups.toNat = w0 := by omega
  have hw0pos : 0 < w0 := by
    have := hconv.groups_pos
    omega
  subst hcin'
  have hentry : ∀ b k i j, ∑ ki ∈ range kh, ∑ kj ∈ range kw,
      kernelTerm input weight h w sh sw ph pw dh dw ki kj b k i j + biasEntry bias k =
      convEntry input weight bias h w kh kw 1 (cin / cin) sh sw ph pw dh dw b k i j := by
    intro b k i j
    simp only [convEntry, Finset.sum_range_one, Nat.div_self hw0pos, Nat.div_one, mul_one,
      Nat.add_zero, kernelTerm]
  simp only [groupConvCin1Cout1, hconv.input_shape, hconv.weight_shape, hcin, and_self,
    not_true_eq_false, if_false, hg]
  refine Gives.bind_of_eq hconv.stride_pair (Gives.bind_of_eq hconv.padding_pair
    (Gives.bind_of_eq hconv.dilation_pair ?_))
  have hstride : ¬ (sh = 0 ∨ sw = 0) := by
    have := hconv.sh_pos
    have := hconv.sw_pos
    omega
  refine Gives.bind (pad_gives hconv.input_shape hconv.ph_nonneg hconv.pw_nonneg)
    fun xPad hpad => ?_
  have hrows : xPad.shape.getD 2 0 = (h + ph + ph).toNat := by
    rw [hpad.shape]
    rfl
  have hcols : xPad.shape.getD 3 0 = (w + pw + pw).toNat := by
    rw [hpad.shape]
    rfl
  simp only [hrows, hcols, fdiv_eq_convSize hconv.sh_pos hconv.ph_nonneg,
    fdiv_eq_convSize hconv.sw_pos hconv.pw_nonneg, if_neg hstride]
  refine Gives.bind (zeros_gives (convSize_nonneg hconv.sh_pos hconv.rows_fit)
    (convSize_nonneg hconv.sw_pos hconv.cols_fit)) fun out hout => ?_
  have hweight : weight.shape = [cin, 1, kh, kw] := hconv.weight_shape
  refine Gives.bind (kernelLoop_gives hweight hconv.sh_pos hconv.sw_pos hconv.dh_pos
    hconv.dw_pos hpad hout) fun out hout => ?_
  cases hbias : bias with
  | none =>
    refine Gives.ok (hout.congr fun b _ k _ i _ j _ => ?_)
    rw [← hbias, ← hentry, hbias]
    simp [biasEntry]
  | some bias' =>
    have hvector : Entries1 bias' cin fun k => bias'.get [k] :=
      ⟨hconv.bias_shape bias' hbias, fun _ _ => rfl⟩
    refine Gives.bind (view_entries4_of_channels hvector) fun view hview => ?_
    refine (broadcastWith_channels (· + ·) hout hview).mono fun t ht => ?_
    refine ht.congr fun b _ k _ i _ j _ => ?_
    rw [← hbias, ← hentry, hbias]
    rfl

end Grouped

/-! ## The linear layer -/

section Pointwise

variable {α : Type} [Field α] {input weight : Tensor α} {bias : Option (Tensor α)}
  {stride padding dilation : List ℤ} {n cin w0 : ℕ}

theorem pointwise_gives
    (hconv : AcceptedConv input weight bias stride padding dilation 1 n cin 1 1 w0 cin 1 1
      1 1 0 0 1 1) :
    Gives (applyPointwiseConvOn1x1SpatialAsLinear input weight bias) fun t =>
      Entries4 t n w0 (convSize 1 1 1 0 1).toNat (convSize 1 1 1 0 1).toNat
        (convEntry input weight bias 1 1 1 1 cin (w0 / (1 : ℤ).toNat) 1 1 0 0 1 1) := by
  have hinput : Entries4 input n cin 1 1 fun b c i j => input.get [b, c, i, j] :=
    ⟨hconv.input_shape, fun _ _ _ _ _ _ _ _ => rfl⟩
  have hweight : Entries4 weight w0 cin 1 1 fun k c i j => weight.get [k, c, i, j] :=
    ⟨hconv.weight_shape, fun _ _ _ _ _ _ _ _ => rfl⟩
  simp only [applyPointwiseConvOn1x1SpatialAsLinear, hconv.input_shape, hconv.weight_shape]
  refine Gives.bind (view_entries2_of_ones hinput) fun x hx => ?_
  refine Gives.bind (view_entries2_of_ones hweight) fun w hw => ?_
  refine Gives.bind (linear_entries2 hx hw hconv.bias_shape) fun y hy => ?_
  refine (view_entries4_of_matrix hy).mono fun t ht => ?_
  have hsize : (convSize 1 1 1 0 1).toNat = 1 := by decide
  rw [hsize]
  refine ht.congr fun b _ k hk i hi j hj => ?_
  have hgroup : k / w0 = 0 := Nat.div_eq_of_lt hk
  have hi' : i = 0 := Nat.lt_one_iff.1 hi
  have hj' : j = 0 := Nat.lt_one_iff.1 hj
  simp [convEntry, hgroup, hi', hj', Tensor.planeEntry]

end Pointwise

/-! ## The decomposition -/

section Decomposition

variable {α : Type} [Field α] {input weight : Tensor α} {bias : Option (Tensor α)}
  {stride padding dilation outputPadding : List ℤ} {transposed : Bool} {groups : ℤ}

omit [Field α] in
/-- What the conditions of the linear path say of accepted arguments. -/
theorem eq_of_canRewrite {n cin h w w0 w1 kh kw : ℕ} {sh sw ph pw dh dw : ℤ}
    (hconv : AcceptedConv input weight bias stride padding dilation groups n cin h w w0 w1 kh kw
      sh sw ph pw dh dw)
    (hrewrite : canRewritePointwiseConvOn1x1SpatialToLinear input weight stride padding dilation
      transposed outputPadding groups = .ok true) :
    groups = 1 ∧ (h = 1 ∧ w = 1 ∧ kh = 1 ∧ kw = 1) ∧
      (sh = 1 ∧ sw = 1 ∧ ph = 0 ∧ pw = 0 ∧ dh = 1 ∧ dw = 1) ∧ w1 = cin := by
  simp only [canRewritePointwiseConvOn1x1SpatialToLinear, hconv.input_shape, hconv.weight_shape,
    hconv.stride_pair, hconv.padding_pair, hconv.dilation_pair] at hrewrite
  split at hrewrite
  · cases hrewrite
  split at hrewrite
  · cases hrewrite
  next hgroups =>
  split at hrewrite
  · cases hrewrite
  next hones =>
  change (if sh ≠ 1 ∨ sw ≠ 1 ∨ ph ≠ 0 ∨ pw ≠ 0 ∨ dh ≠ 1 ∨ dw ≠ 1 then _ else _) = _ at hrewrite
  split at hrewrite
  · cases hrewrite
  next hparams =>
  split at hrewrite
  · cases hrewrite
  split at hrewrite
  · cases hrewrite
  next hchannels =>
  refine ⟨not_not.1 hgroups, not_not.1 hones, ?_, not_not.1 hchannels⟩
  simpa only [not_or, not_not] using hparams

omit [Field α] in
theorem some_map_eq_ok {r : Except TorchError (Tensor α)} {t : Tensor α}
    (h : some <$> r = .ok (some t)) : r = .ok t := by
  cases r with
  | error e => cases h
  | ok t' =>
    cases h
    rfl

/-- How the decomposition comes to return a tensor. -/
theorem decomposeConvolution_cases {t : Tensor α}
    (h : decomposeConvolution input weight bias stride padding dilation transposed outputPadding
      groups = .ok (some t)) :
    (canRewritePointwiseConvOn1x1SpatialToLinear input weight stride padding dilation
          transposed outputPadding groups = .ok true ∧
        applyPointwiseConvOn1x1SpatialAsLinear input weight bias = .ok t) ∨
      (transposed = false ∧ (input.shape.getD 1 0 : ℤ) = groups ∧
        (weight.shape.headD 0 : ℤ) = groups ∧ weight.shape.getD 1 0 = 1 ∧
        groupConvCin1Cout1 input weight bias stride padding dilation groups = .ok t) := by
  rw [decomposeConvolution] at h
  obtain ⟨rewrite, hrewrite, h⟩ := bind_eq_ok.mp h
  split at h
  · next htrue =>
    subst htrue
    exact Or.inl ⟨hrewrite, some_map_eq_ok h⟩
  split at h
  · cases h
  simp only at h
  split at h
  · cases h
  split at h
  · cases h
  next hsupported =>
  obtain ⟨htransposed, hmod, hmod', hdiv, hdiv', hone⟩ := not_not.1 hsupported
  have hcin := Int.mul_fdiv_add_fmod (input.shape.getD 1 0 : ℤ) groups
  have hcout := Int.mul_fdiv_add_fmod (weight.shape.headD 0 : ℤ) groups
  rw [hmod, hdiv, mul_one, add_zero] at hcin
  rw [hmod', hdiv', mul_one, add_zero] at hcout
  exact Or.inr ⟨by simpa using htransposed, hcin.symm, hcout.symm, hone, some_map_eq_ok h⟩

/-- A transposed convolution is left to the default kernel or refused. -/
theorem not_transposed_of_decomposed {t : Tensor α}
    (h : decomposeConvolution input weight bias stride padding dilation transposed outputPadding
      groups = .ok (some t)) : transposed = false := by
  rcases decomposeConvolution_cases h with ⟨hrewrite, -⟩ | ⟨htransposed, -⟩
  · cases transposed with
    | false => rfl
    | true =>
      rw [canRewritePointwiseConvOn1x1SpatialToLinear] at hrewrite
      split at hrewrite <;> cases hrewrite
  · exact htransposed

omit [Field α] in
theorem sameTensor_of_entries4 {t u : Tensor α} {a b c d : ℕ} {f : ℕ → ℕ → ℕ → ℕ → α}
    (ht : Entries4 t a b c d f) (hu : Entries4 u a b c d f) : SameTensor t u := by
  refine ⟨ht.shape.trans hu.shape.symm, fun idx hidx => ?_⟩
  rw [hu.shape] at hidx
  match idx, hidx with
  | [i, j, k, l], hidx =>
    obtain ⟨hi, hj, hk, hl⟩ : i < a ∧ j < b ∧ k < c ∧ l < d := by
      simpa [InShape] using hidx
    rw [ht.get i hi j hj k hk l hl, hu.get i hi j hj k hk l hl]

/-- **The decomposition is the convolution**: for all sizes and parameters that the operator
accepts, the tensor that it returns is the result of the operator. -/
theorem decomposeConvolution_same {t u : Tensor α}
    (hdecomposed : decomposeConvolution input weight bias stride padding dilation transposed
      outputPadding groups = .ok (some t))
    (haten : atenConvolution input weight bias stride padding dilation transposed outputPadding
      groups = .ok u) : SameTensor t u := by
  have htransposed := not_transposed_of_decomposed hdecomposed
  subst htransposed
  obtain ⟨n, cin, h, w, w0, w1, kh, kw, sh, sw, ph, pw, dh, dw, hconv, hu⟩ :=
    acceptedConv_of_ok haten
  suffices hsame : Entries4 t n w0 (convSize h kh sh ph dh).toNat (convSize w kw sw pw dw).toNat
      (convEntry input weight bias h w kh kw w1 (w0 / groups.toNat) sh sw ph pw dh dw) from
    sameTensor_of_entries4 hsame hu
  rcases decomposeConvolution_cases hdecomposed with
    ⟨hrewrite, happly⟩ | ⟨-, hcin, hcout, hone, hgroup⟩
  · obtain ⟨rfl, ⟨rfl, rfl, rfl, rfl⟩, ⟨rfl, rfl, rfl, rfl, rfl, rfl⟩, rfl⟩ :=
      eq_of_canRewrite hconv hrewrite
    exact (pointwise_gives hconv).of_ok happly
  · rw [hconv.input_shape] at hcin
    rw [hconv.weight_shape] at hcout hone
    exact (groupConv_gives hconv hcin hcout hone).of_ok hgroup

/-- Two channels of two rows and columns, with a kernel of two rows and padding. -/
theorem decomposeConvolution_same_depthwise :
    ∃ t u : Tensor ℚ,
      decomposeConvolution ⟨[1, 2, 2, 2], fun _ => 1⟩ ⟨[2, 1, 2, 1], fun _ => 2⟩ none [1] [1, 0]
        [1, 1] false [0, 0] 2 = .ok (some t) ∧
      atenConvolution ⟨[1, 2, 2, 2], fun _ => 1⟩ ⟨[2, 1, 2, 1], fun _ => 2⟩ none [1] [1, 0]
        [1, 1] false [0, 0] 2 = .ok u ∧ SameTensor t u := by
  have hdecomposed : ∃ t : Tensor ℚ,
      decomposeConvolution ⟨[1, 2, 2, 2], fun _ => 1⟩ ⟨[2, 1, 2, 1], fun _ => 2⟩ none [1] [1, 0]
        [1, 1] false [0, 0] 2 = .ok (some t) := ⟨_, rfl⟩
  have haten : ∃ u : Tensor ℚ,
      atenConvolution ⟨[1, 2, 2, 2], fun _ => 1⟩ ⟨[2, 1, 2, 1], fun _ => 2⟩ none [1] [1, 0]
        [1, 1] false [0, 0] 2 = .ok u := ⟨_, rfl⟩
  obtain ⟨t, ht⟩ := hdecomposed
  obtain ⟨u, hu⟩ := haten
  exact ⟨t, u, ht, hu, decomposeConvolution_same ht hu⟩

end Decomposition

end PyTorchSim.Analysis
