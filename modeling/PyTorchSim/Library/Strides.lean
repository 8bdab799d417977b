import Mathlib.Algebra.Order.BigOperators.Ring.Finset
import Mathlib.Data.Finset.Max

/-!
# Strides of an order of the axes

The elements of a box are laid out in memory in an order of its axes.  The stride of an axis is the
product of the sizes of the axes inside it, those with a greater place in the order.  The offset of
an element is the sum of its coordinates times the strides, and the coordinates are the digits of
the offset.  Two orders of the axes give the same strides when they agree on each pair of axes of
which one has more than one element.
-/

set_option autoImplicit false

namespace PyTorchSim.Library

variable {ι α β : Type} [DecidableEq ι] [LinearOrder α] [LinearOrder β] {s : Finset ι}
  {order : ι → α} {other : ι → β} {size c : ι → ℕ} {i j : ι} {p : ℕ}

/-- The product of the sizes of the axes inside `i`. -/
def strideIn (s : Finset ι) (order : ι → α) (size : ι → ℕ) (i : ι) : ℕ :=
  ∏ j ∈ s.filter (fun j => order i < order j), size j

/-- The offset of the element with coordinates `c`. -/
def offsetIn (s : Finset ι) (order : ι → α) (size c : ι → ℕ) : ℕ :=
  ∑ i ∈ s, c i * strideIn s order size i

/-- The coordinate on axis `i` of the element at offset `p`. -/
def digitIn (s : Finset ι) (order : ι → α) (size : ι → ℕ) (p : ℕ) (i : ι) : ℕ :=
  p / strideIn s order size i % size i

/-! ## An axis inside all others -/

section Innermost

variable {a : ι} (ha : a ∉ s) (hmax : ∀ i ∈ s, order i < order a)
include ha hmax

/-- The stride of an axis is multiplied by the size of an axis put inside it. -/
theorem strideIn_insert (hi : i ∈ s) :
    strideIn (insert a s) order size i = size a * strideIn s order size i := by
  unfold strideIn
  rw [Finset.filter_insert, if_pos (hmax i hi), Finset.prod_insert]
  simp [ha]

theorem strideIn_innermost : strideIn (insert a s) order size a = 1 := by
  unfold strideIn
  apply Finset.prod_eq_one
  intro j hj
  rw [Finset.mem_filter, Finset.mem_insert] at hj
  rcases hj with ⟨rfl | hjs, hlt⟩
  · exact absurd hlt (lt_irrefl _)
  · exact absurd hlt (lt_asymm (hmax j hjs))

theorem offsetIn_insert :
    offsetIn (insert a s) order size c = c a + size a * offsetIn s order size c := by
  unfold offsetIn
  rw [Finset.sum_insert ha, strideIn_innermost ha hmax, Nat.mul_one, Finset.mul_sum]
  congr 1
  apply Finset.sum_congr rfl
  intro i hi
  rw [strideIn_insert ha hmax hi, Nat.mul_left_comm]

theorem digitIn_insert (hi : i ∈ s) :
    digitIn (insert a s) order size p i = digitIn s order size (p / size a) i := by
  unfold digitIn
  rw [strideIn_insert ha hmax hi, Nat.div_div_eq_div_mul]

theorem digitIn_innermost : digitIn (insert a s) order size p a = p % size a := by
  unfold digitIn
  rw [strideIn_innermost ha hmax, Nat.div_one]

end Innermost

/-- Axes of distinct places are added from the outermost to the innermost. -/
theorem axes_induction {motive : (t : Finset ι) → Set.InjOn order (t : Set ι) → Prop}
    (hempty : ∀ hinj, motive ∅ hinj)
    (hinsert : ∀ a t, a ∉ t → (∀ i ∈ t, order i < order a) →
      ∀ hinj hinj', motive t hinj → motive (insert a t) hinj')
    (s : Finset ι) (hinj : Set.InjOn order (s : Set ι)) : motive s hinj := by
  induction s using Finset.induction_on_max_value order with
  | empty => exact hempty hinj
  | insert a t ha hmax ih =>
    have hinjt : Set.InjOn order (t : Set ι) := hinj.mono (by simp)
    apply hinsert a t ha ?_ hinjt hinj (ih hinjt)
    intro i hi
    apply lt_of_le_of_ne (hmax i hi)
    intro heq
    have hia : i = a := hinj (by simp [hi]) (by simp) heq
    exact ha (hia ▸ hi)

/-! ## Coordinates and offsets -/

theorem offsetIn_lt (hinj : Set.InjOn order s) (hc : ∀ i ∈ s, c i < size i) :
    offsetIn s order size c < ∏ i ∈ s, size i := by
  induction s, hinj using axes_induction with
  | hempty hinj => simp [offsetIn]
  | hinsert a t ha hmax hinj hinj' ih =>
    have hlt := ih (fun i hi => hc i (Finset.mem_insert_of_mem hi))
    have hca := hc a (Finset.mem_insert_self a t)
    rw [offsetIn_insert ha hmax, Finset.prod_insert ha]
    calc c a + size a * offsetIn t order size c
        < size a + size a * offsetIn t order size c := Nat.add_lt_add_right hca _
      _ = size a * (offsetIn t order size c + 1) := by rw [Nat.mul_succ, Nat.add_comm]
      _ ≤ size a * ∏ i ∈ t, size i := Nat.mul_le_mul_left _ hlt

/-- The digits of an offset are the coordinates. -/
theorem digitIn_offsetIn (hinj : Set.InjOn order s) (hc : ∀ i ∈ s, c i < size i) (hi : i ∈ s) :
    digitIn s order size (offsetIn s order size c) i = c i := by
  induction s, hinj using axes_induction generalizing i with
  | hempty hinj => simp at hi
  | hinsert a t ha hmax hinj hinj' ih =>
    have hca := hc a (Finset.mem_insert_self a t)
    rw [offsetIn_insert ha hmax]
    rcases Finset.mem_insert.1 hi with rfl | hit
    · rw [digitIn_innermost ha hmax, Nat.add_mul_mod_self_left, Nat.mod_eq_of_lt hca]
    · rw [digitIn_insert ha hmax hit, Nat.add_mul_div_left _ _ (Nat.zero_lt_of_lt hca),
        Nat.div_eq_of_lt hca, Nat.zero_add]
      exact ih (fun k hk => hc k (Finset.mem_insert_of_mem hk)) hit

/-- An offset in the box is that of its digits. -/
theorem offsetIn_digitIn (hinj : Set.InjOn order s) (hp : p < ∏ i ∈ s, size i) :
    offsetIn s order size (digitIn s order size p) = p := by
  induction s, hinj using axes_induction generalizing p with
  | hempty hinj =>
    rw [Finset.prod_empty, Nat.lt_one_iff] at hp
    simp [offsetIn, hp]
  | hinsert a t ha hmax hinj hinj' ih =>
    rw [Finset.prod_insert ha] at hp
    have hquot : p / size a < ∏ i ∈ t, size i := Nat.div_lt_of_lt_mul hp
    have hinner : offsetIn t order size (digitIn (insert a t) order size p) =
        offsetIn t order size (digitIn t order size (p / size a)) := by
      apply Finset.sum_congr rfl
      intro i hi
      rw [digitIn_insert ha hmax hi]
    rw [offsetIn_insert ha hmax, digitIn_innermost ha hmax, hinner, ih hquot]
    exact Nat.mod_add_div p (size a)

/-! ## Two orders of the axes -/

omit [DecidableEq ι] in
theorem strideIn_pos (hpos : ∀ i ∈ s, 0 < size i) : 0 < strideIn s order size i :=
  Finset.prod_pos fun j hj => hpos j (Finset.mem_filter.1 hj).1

omit [DecidableEq ι] in
/-- An axis further inside has no greater stride. -/
theorem strideIn_anti (hpos : ∀ i ∈ s, 0 < size i) (hle : order i ≤ order j) :
    strideIn s order size j ≤ strideIn s order size i := by
  apply Finset.prod_le_prod_of_subset_of_one_le'
  · intro k hk
    rw [Finset.mem_filter] at hk ⊢
    exact ⟨hk.1, lt_of_le_of_lt hle hk.2⟩
  · intro k hk _
    exact hpos k (Finset.mem_filter.1 hk).1

/-- The axes inside an axis have, with it, a smaller stride than the axes outside it. -/
theorem mul_strideIn_le (hpos : ∀ i ∈ s, 0 < size i) (hj : j ∈ s) (hlt : order i < order j) :
    size j * strideIn s order size j ≤ strideIn s order size i := by
  unfold strideIn
  rw [← Finset.prod_insert (by simp)]
  apply Finset.prod_le_prod_of_subset_of_one_le'
  · intro k hk
    rcases Finset.mem_insert.1 hk with rfl | hk
    · exact Finset.mem_filter.2 ⟨hj, hlt⟩
    · exact Finset.mem_filter.2 ⟨(Finset.mem_filter.1 hk).1, hlt.trans (Finset.mem_filter.1 hk).2⟩
  · intro k hk _
    exact hpos k (Finset.mem_filter.1 hk).1

/-- The strides tell the order of an axis and one with more than one element. -/
theorem strideIn_lt_iff (hpos : ∀ i ∈ s, 0 < size i) (hj : j ∈ s) (hsize : 1 < size j) :
    strideIn s order size j < strideIn s order size i ↔ order i < order j := by
  constructor
  · intro hlt
    by_contra hnot
    exact absurd hlt (Nat.not_lt.2 (strideIn_anti hpos (not_lt.1 hnot)))
  · intro hlt
    calc strideIn s order size j
        < size j * strideIn s order size j :=
          lt_mul_of_one_lt_left (strideIn_pos hpos) hsize
      _ ≤ strideIn s order size i := mul_strideIn_le hpos hj hlt

/-- Two orders give the same strides when they agree on each pair of axes of which the second has
more than one element. -/
theorem strideIn_eq_iff (hpos : ∀ i ∈ s, 0 < size i) :
    (∀ i ∈ s, strideIn s order size i = strideIn s other size i) ↔
      ∀ i ∈ s, ∀ j ∈ s, 1 < size j → (order i < order j ↔ other i < other j) := by
  constructor
  · intro heq i hi j hj hsize
    rw [← strideIn_lt_iff hpos hj hsize, ← strideIn_lt_iff hpos hj hsize, heq i hi, heq j hj]
  · intro hagree i hi
    unfold strideIn
    rw [Finset.prod_filter, Finset.prod_filter]
    apply Finset.prod_congr rfl
    intro j hj
    rcases Nat.lt_or_ge 1 (size j) with hsize | hsize
    · simp only [hagree i hi j hj hsize]
    · have hone : size j = 1 := Nat.le_antisymm hsize (hpos j hj)
      simp [hone]

/-! ## The axes inside -/

section Inside

variable {κ : Type} [DecidableEq κ] {t : Finset ι} {e : ι → κ} {order' : κ → β} {size' : κ → ℕ}

/-- A digit of an axis is one of the offset in its part of the box, where the other axes inside it
have one element. -/
theorem digitIn_inside (hts : t ⊆ s) (hi : i ∈ t) (hpos : 0 < size i)
    (hout : 1 < size i → ∀ j ∈ s, j ∉ t → order i < order j → size j = 1) :
    digitIn s order size p i = digitIn t order size (p % ∏ j ∈ t, size j) i := by
  rcases Nat.lt_or_ge 1 (size i) with hmany | hone
  · have hstride : strideIn s order size i = strideIn t order size i := by
      unfold strideIn
      symm
      apply Finset.prod_subset (Finset.filter_subset_filter _ hts)
      intro j hj hnot
      rw [Finset.mem_filter] at hj
      exact hout hmany j hj.1 (fun hjt => hnot (Finset.mem_filter.2 ⟨hjt, hj.2⟩)) hj.2
    have hdvd : strideIn t order size i * size i ∣ ∏ j ∈ t, size j := by
      unfold strideIn
      rw [Nat.mul_comm, ← Finset.prod_insert (by simp)]
      apply Finset.prod_dvd_prod_of_subset
      intro j hj
      rcases Finset.mem_insert.1 hj with rfl | hj
      · exact hi
      · exact (Finset.mem_filter.1 hj).1
    unfold digitIn
    rw [hstride, ← Nat.mod_mul_right_div_self, ← Nat.mod_mul_right_div_self,
      Nat.mod_mod_of_dvd _ hdvd]
  · have hsize : size i = 1 := Nat.le_antisymm hone hpos
    unfold digitIn
    rw [hsize, Nat.mod_one, Nat.mod_one]

omit [DecidableEq ι] in
/-- The digits do not depend on the names of the axes. -/
theorem digitIn_image (hinj : Set.InjOn e s)
    (hord : ∀ i ∈ s, ∀ j ∈ s, (order' (e i) < order' (e j) ↔ order i < order j))
    (hsize : ∀ i ∈ s, size' (e i) = size i) (hi : i ∈ s) :
    digitIn (s.image e) order' size' p (e i) = digitIn s order size p i := by
  have hstride : strideIn (s.image e) order' size' (e i) = strideIn s order size i := by
    unfold strideIn
    rw [Finset.prod_filter, Finset.prod_filter, Finset.prod_image hinj]
    apply Finset.prod_congr rfl
    intro j hj
    simp only [hord i hi j hj, hsize j hj]
  unfold digitIn
  rw [hstride, hsize i hi]

end Inside

/-! ## Splitting an axis -/

section Split

variable {κ : Type} [DecidableEq κ] {e : ι → κ} {a : ι} {b : κ} {order' : κ → β} {size' : κ → ℕ}

/-- An order of the axes after axis `a` is split into itself, now outside, and `b` inside it. -/
structure SplitOrder (s : Finset ι) (e : ι → κ) (a : ι) (b : κ) (order : ι → α) (order' : κ → β) :
    Prop where
  lt_iff : ∀ i ∈ s, ∀ j ∈ s, order' (e i) < order' (e j) ↔ order i < order j
  lt_inner : ∀ i ∈ s, order' (e i) < order' b ↔ order i ≤ order a
  inner_lt : ∀ j ∈ s, order' b < order' (e j) ↔ order a < order j

/-- The sizes after the split: those of the two parts multiply to the old one. -/
structure SplitSize (s : Finset ι) (e : ι → κ) (a : ι) (b : κ) (size : ι → ℕ) (size' : κ → ℕ) :
    Prop where
  other : ∀ i ∈ s, i ≠ a → size' (e i) = size i
  parts : size' (e a) * size' b = size a

variable (hinj : Set.InjOn e s) (hb : b ∉ s.image e) (ha : a ∈ s)
  (hord : SplitOrder s e a b order order') (hsize : SplitSize s e a b size size')
include hinj hb

omit [DecidableEq ι] in
/-- A stride after the split, from the new axis and the old ones. -/
theorem strideIn_insert_image (k : κ) :
    strideIn (insert b (s.image e)) order' size' k =
      (if order' k < order' b then size' b else 1) *
        ∏ j ∈ s, if order' k < order' (e j) then size' (e j) else 1 := by
  unfold strideIn
  rw [Finset.prod_filter, Finset.prod_insert hb, Finset.prod_image hinj]

include hord hsize

omit [DecidableEq ι] in
/-- The axes inside the split axis are those inside it before. -/
theorem strideIn_split_inner :
    strideIn (insert b (s.image e)) order' size' b = strideIn s order size a := by
  rw [strideIn_insert_image hinj hb, if_neg (lt_irrefl _), Nat.one_mul, strideIn,
    Finset.prod_filter]
  apply Finset.prod_congr rfl
  intro j hj
  simp only [hord.inner_lt j hj]
  split
  · rename_i hlt
    exact hsize.other j hj (fun heq => lt_irrefl _ (heq ▸ hlt))
  · rfl

include ha

omit [DecidableEq ι] in
theorem strideIn_split_outer :
    strideIn (insert b (s.image e)) order' size' (e a) = strideIn s order size a * size' b := by
  rw [← strideIn_split_inner hinj hb hord hsize, strideIn_insert_image hinj hb,
    strideIn_insert_image hinj hb, if_pos ((hord.lt_inner a ha).2 le_rfl), if_neg (lt_irrefl _),
    Nat.one_mul, Nat.mul_comm]
  congr 1
  apply Finset.prod_congr rfl
  intro j hj
  simp only [hord.inner_lt j hj, hord.lt_iff a ha j hj]

/-- The split axis counts for the other axes as before. -/
theorem strideIn_split_other {i : ι} (hinjo : Set.InjOn order s) (hi : i ∈ s) (hne : i ≠ a) :
    strideIn (insert b (s.image e)) order' size' (e i) = strideIn s order size i := by
  have hle : order i ≤ order a ↔ order i < order a :=
    ⟨fun h => lt_of_le_of_ne h fun heq => hne (hinjo hi ha heq), le_of_lt⟩
  have hrest : ∏ j ∈ s.erase a, (if order' (e i) < order' (e j) then size' (e j) else 1) =
      ∏ j ∈ s.erase a, if order i < order j then size j else 1 := by
    apply Finset.prod_congr rfl
    intro j hj
    have hjs : j ∈ s := Finset.mem_of_mem_erase hj
    simp only [hsize.other j hjs (Finset.ne_of_mem_erase hj), hord.lt_iff i hi j hjs]
  rw [strideIn_insert_image hinj hb, strideIn, Finset.prod_filter]
  rw [← Finset.mul_prod_erase s _ ha, ← Finset.mul_prod_erase s (fun j => ite _ _ _) ha, hrest,
    ← Nat.mul_assoc]
  congr 1
  simp only [hord.lt_inner i hi, hord.lt_iff i hi a ha, hle]
  split
  · rw [Nat.mul_comm, hsize.parts]
  · rfl

end Split

end PyTorchSim.Library
