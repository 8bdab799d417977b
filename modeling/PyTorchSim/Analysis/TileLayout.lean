import Mathlib.Data.List.GetD
import PyTorchSim.Frontend.TileDesc
import PyTorchSim.Library.Strides

/-!
# The layout of a tile

The strides that the loop over the sorted axes computes are the products of the sizes of the axes
inside each axis.
-/

set_option autoImplicit false

namespace PyTorchSim.Analysis

open PyTorchSim.Frontend PyTorchSim.Library

/-- The entry of a list at a place, and 0 behind its end. -/
abbrev entry (list : List ℕ) (place : ℕ) : ℕ := list.getD place 0

theorem entry_eq_getElem {list : List ℕ} {place : ℕ} (h : place < list.length) :
    entry list place = list[place] := List.getD_eq_getElem _ _ h

theorem entry_map {list : List ℕ} {f : ℕ → ℕ} {place : ℕ} (h : place < list.length) :
    entry (list.map f) place = f (entry list place) := by
  simp [entry, h]

/-- The axis order names each axis once, and the strides are up to date. -/
structure LaidOut (T : MLIRMultiDimTile) : Prop where
  order_perm : T.tileAxisOrder.Perm (List.range T.tileSize.length)
  stride_eq : T.tileStride = tileStrides T.tileAxisOrder T.tileSize

variable {order sizes : List ℕ}

/-! ## The loop over the sorted axes -/

@[simp] theorem length_foldl_placeStride (pairs : List (ℕ × ℕ × ℕ)) (acc : List ℕ × ℕ) :
    (pairs.foldl placeStride acc).1.length = acc.1.length := by
  induction pairs generalizing acc with
  | nil => rfl
  | cons pair pairs ih => rw [List.foldl_cons, ih, placeStride, List.length_set]

theorem length_tileStrides (order sizes : List ℕ) :
    (tileStrides order sizes).length = sizes.length := by
  simp [tileStrides]

/-- The loop leaves the strides of the other axes as they are. -/
theorem foldl_placeStride_frame {pairs : List (ℕ × ℕ × ℕ)} {acc : List ℕ × ℕ} {axis : ℕ}
    (hother : ∀ pair ∈ pairs, pair.2.2 ≠ axis) :
    entry (pairs.foldl placeStride acc).1 axis = entry acc.1 axis := by
  induction pairs generalizing acc with
  | nil => rfl
  | cons pair pairs ih =>
    rw [List.foldl_cons, ih (fun q hq => hother q (List.mem_cons_of_mem _ hq)), placeStride]
    simp only [entry, List.getD_eq_getElem?_getD]
    rw [List.getElem?_set_ne (hother pair List.mem_cons_self)]

/-- The loop gives each axis the product of the sizes of the axes before it. -/
theorem foldl_placeStride_mem {pairs : List (ℕ × ℕ × ℕ)} {acc : List ℕ × ℕ}
    (hsorted : pairs.Pairwise fun a b => b.1 < a.1) (hnodup : (pairs.map (·.2.2)).Nodup)
    (hlt : ∀ pair ∈ pairs, pair.2.2 < acc.1.length) :
    ∀ pair ∈ pairs, entry (pairs.foldl placeStride acc).1 pair.2.2 =
      acc.2 * ((pairs.filter fun q => pair.1 < q.1).map (·.2.1)).prod := by
  induction pairs generalizing acc with
  | nil => simp
  | cons head pairs ih =>
    rw [List.pairwise_cons] at hsorted
    rw [List.map_cons, List.nodup_cons] at hnodup
    intro pair hpair
    rw [List.foldl_cons]
    rcases List.mem_cons.1 hpair with rfl | hmem
    · -- no axis lies before the first one
      have hnone : (pair :: pairs).filter (fun q => pair.1 < q.1) = [] := by
        rw [List.filter_eq_nil_iff]
        intro q hq
        rcases List.mem_cons.1 hq with rfl | hq
        · simp
        · simpa using Nat.le_of_lt (hsorted.1 q hq)
      have hother : ∀ q ∈ pairs, q.2.2 ≠ pair.2.2 := by
        intro q hq heq
        exact hnodup.1 (heq ▸ List.mem_map_of_mem hq)
      rw [foldl_placeStride_frame hother, hnone, placeStride]
      simp [entry, hlt pair List.mem_cons_self]
    · have hhead : head.1 > pair.1 := hsorted.1 pair hmem
      have hlen : ∀ q ∈ pairs, q.2.2 < (placeStride acc head).1.length := by
        intro q hq
        rw [placeStride, List.length_set]
        exact hlt q (List.mem_cons_of_mem _ hq)
      rw [ih hsorted.2 hnodup.2 hlen pair hmem, List.filter_cons_of_pos (by simpa using hhead),
        List.map_cons, List.prod_cons, placeStride, Nat.mul_assoc]

/-! ## The strides of a tile -/

theorem zip_axes (hlen : order.length = sizes.length) :
    order.zip (sizes.zip (List.range order.length)) =
      (List.range sizes.length).map fun j => (entry order j, entry sizes j, j) := by
  apply List.ext_getElem
  · simp [hlen]
  · intro j hj hj'
    simp only [List.length_map, List.length_range] at hj'
    simp [entry, hj', hlen]

theorem sortedPairs_perm (hlen : order.length = sizes.length) :
    (sortedPairs order sizes).Perm
      ((List.range sizes.length).map fun j => (entry order j, entry sizes j, j)) := by
  rw [← zip_axes hlen]
  exact List.perm_insertionSort _ _

theorem mem_sortedPairs (hlen : order.length = sizes.length) {pair : ℕ × ℕ × ℕ} :
    pair ∈ sortedPairs order sizes ↔
      ∃ j < sizes.length, (entry order j, entry sizes j, j) = pair := by
  rw [(sortedPairs_perm hlen).mem_iff]
  simp

theorem entry_inj {list : List ℕ} {i j : ℕ} (hnodup : list.Nodup) (hi : i < list.length)
    (hj : j < list.length) (heq : entry list i = entry list j) : i = j := by
  rw [entry_eq_getElem hi, entry_eq_getElem hj] at heq
  exact (hnodup.getElem_inj_iff).1 heq

theorem entry_injOn (hnodup : order.Nodup) (hlen : order.length = sizes.length) :
    Set.InjOn (entry order) (Finset.range sizes.length : Set ℕ) := by
  intro i hi j hj heq
  rw [Finset.coe_range, Set.mem_Iio, ← hlen] at hi hj
  exact entry_inj hnodup hi hj heq

theorem sortedPairs_pairwise (hnodup : order.Nodup) (hlen : order.length = sizes.length) :
    (sortedPairs order sizes).Pairwise fun a b => b.1 < a.1 := by
  have hle : (sortedPairs order sizes).Pairwise fun a b => b.1 ≤ a.1 := by
    apply List.pairwise_insertionSort
  have hne : (sortedPairs order sizes).Pairwise fun a b => a.1 ≠ b.1 := by
    rw [← List.pairwise_map (f := Prod.fst) (R := (· ≠ ·))]
    change ((sortedPairs order sizes).map Prod.fst).Nodup
    rw [((sortedPairs_perm hlen).map Prod.fst).nodup_iff, List.map_map]
    apply List.Nodup.map_on ?_ List.nodup_range
    intro i hi j hj heq
    exact entry_injOn hnodup hlen (by simpa using hi) (by simpa using hj) heq
  exact (hle.and hne).imp fun h => lt_of_le_of_ne h.1 (Ne.symm h.2)

/-- The strides of a tile are those of its axis order. -/
theorem entry_tileStrides (hnodup : order.Nodup) (hlen : order.length = sizes.length) {i : ℕ}
    (hi : i < sizes.length) :
    entry (tileStrides order sizes) i =
      strideIn (Finset.range sizes.length) (entry order) (entry sizes) i := by
  have hmem : (entry order i, entry sizes i, i) ∈ sortedPairs order sizes :=
    (mem_sortedPairs hlen).2 ⟨i, hi, rfl⟩
  have hindex : ((sortedPairs order sizes).map (·.2.2)).Nodup := by
    rw [((sortedPairs_perm hlen).map (·.2.2)).nodup_iff, List.map_map]
    simpa [Function.comp_def] using List.nodup_range
  have hlt : ∀ pair ∈ sortedPairs order sizes,
      pair.2.2 < (List.replicate sizes.length 1, 1).1.length := by
    intro pair hpair
    obtain ⟨j, hj, rfl⟩ := (mem_sortedPairs hlen).1 hpair
    simpa using hj
  have hloop := foldl_placeStride_mem (sortedPairs_pairwise hnodup hlen) hindex hlt _ hmem
  have hperm := (((sortedPairs_perm hlen).filter
    fun q => decide (entry order i < q.1)).map (·.2.1)).prod_eq
  rw [tileStrides, hloop, Nat.one_mul, hperm, List.filter_map, List.map_map]
  rfl

end PyTorchSim.Analysis
