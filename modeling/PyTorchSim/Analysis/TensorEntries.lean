import Mathlib.Tactic.Linarith
import PyTorchSim.Frontend.TensorOps
import PyTorchSim.Library.Runs

/-!
# The entries of tensors

What each tensor operation does to the entries of its argument, for tensors of rank one to four.  A
view is described by the entry that stands at the same place of the row.
-/

set_option autoImplicit false

namespace PyTorchSim.Analysis

open Finset Frontend Library

section

variable {α : Type}

/-- The tensor is a vector with the entries `f`. -/
structure Entries1 (t : Tensor α) (a : ℕ) (f : ℕ → α) : Prop where
  shape : t.shape = [a]
  get : ∀ i < a, t.get [i] = f i

/-- The tensor is a matrix with the entries `f`. -/
structure Entries2 (t : Tensor α) (a b : ℕ) (f : ℕ → ℕ → α) : Prop where
  shape : t.shape = [a, b]
  get : ∀ i < a, ∀ j < b, t.get [i, j] = f i j

structure Entries3 (t : Tensor α) (a b c : ℕ) (f : ℕ → ℕ → ℕ → α) : Prop where
  shape : t.shape = [a, b, c]
  get : ∀ i < a, ∀ j < b, ∀ k < c, t.get [i, j, k] = f i j k

structure Entries4 (t : Tensor α) (a b c d : ℕ) (f : ℕ → ℕ → ℕ → ℕ → α) : Prop where
  shape : t.shape = [a, b, c, d]
  get : ∀ i < a, ∀ j < b, ∀ k < c, ∀ l < d, t.get [i, j, k, l] = f i j k l

variable {t : Tensor α} {a b c d : ℕ}

theorem Entries3.congr {f g : ℕ → ℕ → ℕ → α} (h : Entries3 t a b c f)
    (hfg : ∀ i < a, ∀ j < b, ∀ k < c, f i j k = g i j k) : Entries3 t a b c g :=
  ⟨h.shape, fun i hi j hj k hk => (h.get i hi j hj k hk).trans (hfg i hi j hj k hk)⟩

theorem Entries4.congr {f g : ℕ → ℕ → ℕ → ℕ → α} (h : Entries4 t a b c d f)
    (hfg : ∀ i < a, ∀ j < b, ∀ k < c, ∀ l < d, f i j k l = g i j k l) : Entries4 t a b c d g :=
  ⟨h.shape, fun i hi j hj k hk l hl =>
    (h.get i hi j hj k hk l hl).trans (hfg i hi j hj k hk l hl)⟩

/-! ## Views -/

/-- A view has the element of the tensor that stands at the same place. -/
theorem view_gives {shape : List ℕ} (hnumel : t.numel = shape.prod) :
    Gives (t.view shape) fun u => u.shape = shape ∧ ∀ idx idx', InShape t.shape idx →
      ravel shape idx' = ravel t.shape idx → u.get idx' = t.get idx := by
  rw [Tensor.view, if_pos hnumel]
  refine Gives.ok ⟨rfl, fun idx idx' hidx heq => ?_⟩
  change t.get (unravel t.shape (ravel shape idx')) = t.get idx
  rw [heq, unravel_ravel hidx]

theorem mul_add_lt_mul {i j a b : ℕ} (hi : i < a) (hj : j < b) : i * b + j < a * b := by
  have hrow : (i + 1) * b ≤ a * b := Nat.mul_le_mul_right b hi
  linarith

theorem mul_add_div_of_lt {i j b : ℕ} (hj : j < b) : (i * b + j) / b = i := by
  rw [Nat.add_comm, Nat.add_mul_div_right _ _ (by omega), Nat.div_eq_of_lt hj, Nat.zero_add]

theorem mul_add_mod_of_lt {i j b : ℕ} (hj : j < b) : (i * b + j) % b = j := by
  rw [Nat.add_comm, Nat.add_mul_mod_self_right, Nat.mod_eq_of_lt hj]

theorem viewRows_entries3 {f : ℕ → ℕ → ℕ → α} (h : Entries3 t a b c f) (hc : 0 < c) :
    Gives (t.viewRows c) fun u => Entries2 u (a * b) c fun r k => f (r / b) (r % b) k := by
  have hnumel : t.numel = a * b * c := by
    rw [Tensor.numel, h.shape]
    simp [mul_assoc]
  have hrows : t.numel / c = a * b := by
    rw [hnumel, Nat.mul_div_cancel _ hc]
  rw [Tensor.viewRows, if_neg hc.ne', hrows]
  refine (view_gives (by simp [hnumel])).mono fun u ⟨hshape, hget⟩ => ⟨hshape, fun r hr k hk => ?_⟩
  have hb : 0 < b := Nat.pos_of_ne_zero fun hb => by simp [hb] at hr
  have hrow : r / b < a := Nat.div_lt_of_lt_mul (by linarith)
  have hcol : r % b < b := Nat.mod_lt r hb
  have hsplit : r / b * b + r % b = r := Nat.div_add_mod' r b
  have hplace : ravel [a * b, c] [r, k] = ravel t.shape [r / b, r % b, k] := by
    rw [h.shape]
    simp only [ravel, List.prod_cons, List.prod_nil, mul_one, add_zero]
    rw [← mul_assoc, ← add_assoc, ← add_mul, hsplit]
  have hin : InShape t.shape [r / b, r % b, k] := by
    rw [h.shape]
    simp [InShape, hrow, hcol, hk]
  rw [hget _ _ hin hplace, h.get _ hrow _ hcol _ hk]

theorem view_entries3_of_rows {f : ℕ → ℕ → α} (h : Entries2 t (a * b) c f) :
    Gives (t.view [a, b, c]) fun u => Entries3 u a b c fun i j k => f (i * b + j) k := by
  have hnumel : t.numel = [a, b, c].prod := by
    rw [Tensor.numel, h.shape]
    simp [mul_assoc]
  refine (view_gives hnumel).mono fun u ⟨hshape, hget⟩ => ⟨hshape, fun i hi j hj k hk => ?_⟩
  have hrow := mul_add_lt_mul hi hj
  have hplace : ravel [a, b, c] [i, j, k] = ravel t.shape [i * b + j, k] := by
    rw [h.shape]
    simp only [ravel, List.prod_cons, List.prod_nil, mul_one, add_zero]
    ring
  have hin : InShape t.shape [i * b + j, k] := by
    rw [h.shape]
    simp [InShape, hrow, hk]
  rw [hget _ _ hin hplace, h.get _ hrow _ hk]

/-- The last axis is split into heads. -/
theorem view_entries4_of_last {f : ℕ → ℕ → ℕ → α} (h : Entries3 t a b (c * d) f) :
    Gives (t.view [a, b, c, d]) fun u =>
      Entries4 u a b c d fun i j k l => f i j (k * d + l) := by
  have hnumel : t.numel = [a, b, c, d].prod := by
    rw [Tensor.numel, h.shape]
    simp
  refine (view_gives hnumel).mono fun u ⟨hshape, hget⟩ =>
    ⟨hshape, fun i hi j hj k hk l hl => ?_⟩
  have hlast := mul_add_lt_mul hk hl
  have hplace : ravel [a, b, c, d] [i, j, k, l] = ravel t.shape [i, j, k * d + l] := by
    rw [h.shape]
    simp only [ravel, List.prod_cons, List.prod_nil, mul_one, add_zero]
  have hin : InShape t.shape [i, j, k * d + l] := by
    rw [h.shape]
    simp [InShape, hi, hj, hlast]
  rw [hget _ _ hin hplace, h.get _ hi _ hj _ hlast]

/-- The last two axes are joined. -/
theorem view_entries3_of_heads {f : ℕ → ℕ → ℕ → ℕ → α} (h : Entries4 t a b c d f) :
    Gives (t.view [a, b, c * d]) fun u =>
      Entries3 u a b (c * d) fun i j e => f i j (e / d) (e % d) := by
  have hnumel : t.numel = [a, b, c * d].prod := by
    rw [Tensor.numel, h.shape]
    simp
  refine (view_gives hnumel).mono fun u ⟨hshape, hget⟩ => ⟨hshape, fun i hi j hj e he => ?_⟩
  have hd : 0 < d := Nat.pos_of_ne_zero fun hd => by simp [hd] at he
  have hhead : e / d < c := Nat.div_lt_of_lt_mul (by linarith)
  have hcol : e % d < d := Nat.mod_lt e hd
  have hsplit : e / d * d + e % d = e := Nat.div_add_mod' e d
  have hplace : ravel [a, b, c * d] [i, j, e] = ravel t.shape [i, j, e / d, e % d] := by
    rw [h.shape]
    simp only [ravel, List.prod_cons, List.prod_nil, mul_one, add_zero]
    rw [hsplit]
  have hin : InShape t.shape [i, j, e / d, e % d] := by
    rw [h.shape]
    simp [InShape, hi, hj, hhead, hcol]
  rw [hget _ _ hin hplace, h.get _ hi _ hj _ hhead _ hcol]

/-- Two axes of length one are left out. -/
theorem view_entries2_of_ones {f : ℕ → ℕ → ℕ → ℕ → α} (h : Entries4 t a b 1 1 f) :
    Gives (t.view [a, b]) fun u => Entries2 u a b fun i j => f i j 0 0 := by
  have hnumel : t.numel = [a, b].prod := by
    rw [Tensor.numel, h.shape]
    simp
  refine (view_gives hnumel).mono fun u ⟨hshape, hget⟩ => ⟨hshape, fun i hi j hj => ?_⟩
  have hplace : ravel [a, b] [i, j] = ravel t.shape [i, j, 0, 0] := by
    rw [h.shape]
    simp [ravel]
  have hin : InShape t.shape [i, j, 0, 0] := by
    rw [h.shape]
    simp [InShape, hi, hj]
  rw [hget _ _ hin hplace, h.get _ hi _ hj _ Nat.one_pos _ Nat.one_pos]

/-- Two axes of length one are added. -/
theorem view_entries4_of_matrix {f : ℕ → ℕ → α} (h : Entries2 t a b f) :
    Gives (t.view [a, b, 1, 1]) fun u => Entries4 u a b 1 1 fun i j _ _ => f i j := by
  have hnumel : t.numel = [a, b, 1, 1].prod := by
    rw [Tensor.numel, h.shape]
    simp
  refine (view_gives hnumel).mono fun u ⟨hshape, hget⟩ =>
    ⟨hshape, fun i hi j hj k hk l hl => ?_⟩
  have hplace : ravel [a, b, 1, 1] [i, j, k, l] = ravel t.shape [i, j] := by
    have hk' : k = 0 := Nat.lt_one_iff.1 hk
    have hl' : l = 0 := Nat.lt_one_iff.1 hl
    rw [h.shape, hk', hl']
    simp [ravel]
  have hin : InShape t.shape [i, j] := by
    rw [h.shape]
    simp [InShape, hi, hj]
  rw [hget _ _ hin hplace, h.get _ hi _ hj]

/-! ## Slices, transpositions and repetitions -/

theorem slice_entries1 {f : ℕ → α} (h : Entries1 t a f) {lo hi : ℕ} (hle : lo ≤ hi) (hhi : hi ≤ a) :
    Entries1 (t.slice lo hi) (hi - lo) fun i => f (lo + i) := by
  constructor
  · simp [Tensor.slice, h.shape, hhi, hle.trans hhi]
  · intro i hi'
    simp only [Tensor.slice, h.shape, List.headD_cons, List.tail_cons, min_eq_left (hle.trans hhi)]
    exact h.get (lo + i) (by omega)

theorem slice_entries2 {f : ℕ → ℕ → α} (h : Entries2 t a b f) {lo hi : ℕ} (hle : lo ≤ hi)
    (hhi : hi ≤ a) : Entries2 (t.slice lo hi) (hi - lo) b fun i j => f (lo + i) j := by
  constructor
  · simp [Tensor.slice, h.shape, hhi, hle.trans hhi]
  · intro i hi' j hj
    simp only [Tensor.slice, h.shape, List.headD_cons, List.tail_cons, min_eq_left (hle.trans hhi)]
    exact h.get (lo + i) (by omega) j hj

theorem transpose12_entries4 {f : ℕ → ℕ → ℕ → ℕ → α} (h : Entries4 t a b c d f) :
    Entries4 (t.transpose 1 2) a c b d fun i k j l => f i j k l := by
  constructor
  · simp [Tensor.transpose, Tensor.exchange, h.shape]
  · intro i hi k hk j hj l hl
    exact h.get i hi j hj k hk l hl

theorem transpose23_entries4 {f : ℕ → ℕ → ℕ → ℕ → α} (h : Entries4 t a b c d f) :
    Entries4 (t.transpose 2 3) a b d c fun i j l k => f i j k l := by
  constructor
  · simp [Tensor.transpose, Tensor.exchange, h.shape]
  · intro i hi j hj l hl k hk
    exact h.get i hi j hj k hk l hl

theorem repeatInterleave1_entries4 {f : ℕ → ℕ → ℕ → ℕ → α} (h : Entries4 t a b c d f)
    (times : ℕ) : Entries4 (t.repeatInterleave1 times) a (b * times) c d
      fun i j k l => f i (j / times) k l := by
  constructor
  · simp [Tensor.repeatInterleave1, h.shape]
  · intro i hi j hj k hk l hl
    exact h.get i hi (j / times) (Nat.div_lt_of_lt_mul (by linarith)) k hk l hl

theorem map_entries4 {f : ℕ → ℕ → ℕ → ℕ → α} (h : Entries4 t a b c d f) (g : α → α) :
    Entries4 (t.map g) a b c d fun i j k l => g (f i j k l) := by
  constructor
  · exact h.shape
  · intro i hi j hj k hk l hl
    exact congrArg g (h.get i hi j hj k hk l hl)

end

/-! ## Operations with broadcasting -/

section

variable {α : Type} {t u : Tensor α} {a b c d : ℕ} {f g : ℕ → ℕ → ℕ → ℕ → α}

/-- Coordinates of an element stay as they are. -/
theorem clip_of_inShape {shape idx : List ℕ} (h : InShape shape idx) :
    Tensor.clip shape idx = idx := by
  rw [Tensor.clip]
  induction h with
  | nil => rfl
  | cons hi _ ih =>
    rw [List.zipWith_cons_cons, ih]
    congr 1
    split <;> omega

/-- A second tensor that is broadcast to the shape of the first one. -/
theorem broadcastWith_gives (op : α → α → α) (ht : Entries4 t a b c d f)
    (hshape : List.Forall₂ (fun n m => n = m ∨ m = 1) [a, b, c, d] u.shape)
    (hu : ∀ i < a, ∀ j < b, ∀ k < c, ∀ l < d,
      u.get (Tensor.clip u.shape [i, j, k, l]) = g i j k l) :
    Gives (t.broadcastWith op u) fun v =>
      Entries4 v a b c d fun i j k l => op (f i j k l) (g i j k l) := by
  have hcompatible : List.Forall₂ (fun n m => n = m ∨ n = 1 ∨ m = 1) t.shape u.shape := by
    rw [ht.shape]
    exact hshape.imp fun n m h => h.imp_right Or.inr
  have hresult : ∀ s s' : List ℕ, List.Forall₂ (fun n m => n = m ∨ m = 1) s s' →
      List.zipWith (fun n m => if n = 1 then m else n) s s' = s := by
    intro s s' h
    induction h with
    | nil => rfl
    | cons hnm _ ih =>
      rw [List.zipWith_cons_cons, ih]
      split
      · congr 1
        omega
      · rfl
  rw [Tensor.broadcastWith, if_pos hcompatible]
  refine Gives.ok ⟨?_, fun i hi j hj k hk l hl => ?_⟩
  · change List.zipWith _ t.shape u.shape = _
    rw [ht.shape, hresult _ _ hshape]
  · have hin : InShape t.shape [i, j, k, l] := by
      rw [ht.shape]
      simp [InShape, hi, hj, hk, hl]
    change op (t.get (Tensor.clip t.shape _)) (u.get (Tensor.clip u.shape _)) = _
    rw [clip_of_inShape hin, ht.get i hi j hj k hk l hl, hu i hi j hj k hk l hl]

theorem broadcastWith_entries4 (op : α → α → α) (ht : Entries4 t a b c d f)
    (hu : Entries4 u a b c d g) :
    Gives (t.broadcastWith op u) fun v =>
      Entries4 v a b c d fun i j k l => op (f i j k l) (g i j k l) := by
  refine broadcastWith_gives op ht (by simp [hu.shape]) fun i hi j hj k hk l hl => ?_
  have hin : InShape u.shape [i, j, k, l] := by
    rw [hu.shape]
    simp [InShape, hi, hj, hk, hl]
  rw [clip_of_inShape hin, hu.get i hi j hj k hk l hl]

/-- The second tensor has one element for each channel. -/
theorem broadcastWith_channels (op : α → α → α) (ht : Entries4 t a b c d f) {u : Tensor α}
    {g : ℕ → α} (hu : Entries4 u 1 b 1 1 fun _ j _ _ => g j) :
    Gives (t.broadcastWith op u) fun v =>
      Entries4 v a b c d fun i j k l => op (f i j k l) (g j) := by
  refine broadcastWith_gives (g := fun _ j _ _ => g j) op ht (by simp [hu.shape])
    fun i _ j hj k _ l _ => ?_
  have hchannel : (if b = 1 then 0 else j) = j := by
    split <;> omega
  rw [hu.shape]
  simp only [Tensor.clip, List.zipWith_cons_cons, List.zipWith_nil_left, if_true, hchannel]
  exact hu.get 0 Nat.one_pos j hj 0 Nat.one_pos 0 Nat.one_pos

theorem view_entries4_of_channels {g : ℕ → α} (h : Entries1 t b g) :
    Gives (t.view [1, b, 1, 1]) fun v => Entries4 v 1 b 1 1 fun _ j _ _ => g j := by
  have hnumel : t.numel = [1, b, 1, 1].prod := by
    rw [Tensor.numel, h.shape]
    simp
  refine (view_gives hnumel).mono fun v ⟨hshape, hget⟩ =>
    ⟨hshape, fun i hi j hj k hk l hl => ?_⟩
  have hplace : ravel [1, b, 1, 1] [i, j, k, l] = ravel t.shape [j] := by
    rw [h.shape]
    simp only [ravel, List.prod_cons, List.prod_nil, mul_one, add_zero]
    have hi' : i = 0 := by omega
    have hk' : k = 0 := by omega
    have hl' : l = 0 := by omega
    rw [hi', hk', hl']
    simp
  have hin : InShape t.shape [j] := by
    rw [h.shape]
    simp [InShape, hj]
  rw [hget _ _ hin hplace, h.get j hj]

end

/-! ## Sums -/

section

variable {α : Type} [Field α] {t u : Tensor α} {a b c d e : ℕ}

/-- What a bias adds to a column. -/
def biasEntry (bias : Option (Tensor α)) (o : ℕ) : α := bias.elim 0 fun t => t.get [o]

theorem linear_entries2 {f g : ℕ → ℕ → α} (h : Entries2 t a b f) (hw : Entries2 u c b g)
    {bias : Option (Tensor α)} (hbias : ∀ v ∈ bias, v.shape = [c]) :
    Gives (t.linear u bias) fun v =>
      Entries2 v a c fun i o => ∑ j ∈ range b, f i j * g o j + biasEntry bias o := by
  have hlast : t.shape.getLast? = some b := by
    simp [h.shape]
  simp only [Tensor.linear, hlast, hw.shape]
  rw [if_pos ⟨trivial, hbias⟩]
  refine Gives.ok ⟨by simp [h.shape], fun i hi o ho => ?_⟩
  change ∑ j ∈ range b, t.get [i, j] * u.get [o, j] + biasEntry bias o = _
  congr 1
  apply Finset.sum_congr rfl
  intro j hj
  rw [h.get i hi j (mem_range.1 hj), hw.get o ho j (mem_range.1 hj)]

theorem matmul_entries4 {f g : ℕ → ℕ → ℕ → ℕ → α} (h : Entries4 t a b c d f)
    (h' : Entries4 u a b d e g) :
    Gives (t.matmul u) fun v =>
      Entries4 v a b c e fun i j k l => ∑ x ∈ range d, f i j k x * g i j x l := by
  simp only [Tensor.matmul, h.shape, h'.shape]
  rw [if_pos ⟨trivial, trivial, trivial⟩]
  refine Gives.ok ⟨rfl, fun i hi j hj k hk l hl => ?_⟩
  change ∑ x ∈ range d, t.get [i, j, k, x] * u.get [i, j, x, l] = _
  apply Finset.sum_congr rfl
  intro x hx
  rw [h.get i hi j hj k hk x (mem_range.1 hx), h'.get i hi j hj x (mem_range.1 hx) l hl]

theorem softmax_entries4 {f : ℕ → ℕ → ℕ → ℕ → α} (h : Entries4 t a b c d f) (exp : α → α) :
    Entries4 (t.softmax exp) a b c d
      fun i j k l => exp (f i j k l) / ∑ x ∈ range d, exp (f i j k x) := by
  have hlast : t.shape.getLastD 0 = d := by
    simp [h.shape]
  refine ⟨h.shape, fun i hi j hj k hk l hl => ?_⟩
  simp only [Tensor.softmax, hlast]
  change exp (t.get [i, j, k, l]) / ∑ x ∈ range d, exp (t.get [i, j, k, x]) = _
  rw [h.get i hi j hj k hk l hl]
  congr 1
  apply Finset.sum_congr rfl
  intro x hx
  rw [h.get i hi j hj k hk x (mem_range.1 hx)]

theorem mean1_entries3 {f : ℕ → ℕ → ℕ → ℕ → α} (h : Entries4 t a b c d f) :
    Entries3 t.mean1 a c d fun i k l => (∑ j ∈ range b, f i j k l) / b := by
  have hsize : t.shape.getD 1 0 = b := by
    simp [h.shape]
  constructor
  · simp [Tensor.mean1, h.shape]
  · intro i hi k hk l hl
    simp only [Tensor.mean1, hsize]
    congr 1
    apply Finset.sum_congr rfl
    intro j hj
    exact h.get i hi j (mem_range.1 hj) k hk l hl

end

end PyTorchSim.Analysis
