import PyTorchSim.Analysis.TileLayout
import PyTorchSim.Frontend.ImplicitDims

/-!
# Constraints on the axes of a tile

The dividers of an axis are applied one after the other.  Those other than one have the effect of
the least of them, whatever their order.  The constraint sets are paired with the axes by their
position.
-/

set_option autoImplicit false

namespace PyTorchSim.Analysis

open PyTorchSim.Frontend

variable {T : MLIRMultiDimTile} {dividers ranges : List ℕ} {constraints : List (List ℕ)}
  {idx axis d e : ℕ}

/-- The constraint of an axis. -/
abbrev constraintAt (T : MLIRMultiDimTile) (idx : ℕ) :
    TileConstraint := T.tileConstraint.getD idx {}

/-- The least divider other than one. -/
def leastDivider (dividers : List ℕ) : Option ℕ := (dividers.filter (· ≠ 1)).min?

/-! ## The dividers of one axis -/

theorem leastDivider_ne_one (hleast : d ∈ leastDivider dividers) : d ≠ 1 := by
  have hmem : d ∈ dividers.filter (· ≠ 1) := List.min?_mem hleast
  simpa using (List.mem_filter.1 hmem).2

theorem applyDivider_one (T : MLIRMultiDimTile) (idx : ℕ) : T.applyDivider idx 1 = T := if_pos rfl

theorem applyDivider_of_fixed (hd : d ≠ 1) (hfixed : (constraintAt T idx).fixed = true) :
    T.applyDivider idx d =
      if d < entry T.tileSize idx then { T with tileSize := T.tileSize.set idx d } else T := by
  unfold MLIRMultiDimTile.applyDivider
  rw [if_neg hd]
  simp only [hfixed, Bool.not_true, Bool.false_eq_true, if_false]

theorem applyDivider_of_free (hd : d ≠ 1) (hfree : (constraintAt T idx).fixed = false) :
    T.applyDivider idx d =
      { T with
        tileConstraint := T.tileConstraint.set idx { constraintAt T idx with fixed := true }
        tileSize := T.tileSize.set idx d } := by
  unfold MLIRMultiDimTile.applyDivider
  rw [if_neg hd]
  simp only [hfree, Bool.not_false, if_true]

/-- A tile whose axes have constraints. -/
structure Constrained (T : MLIRMultiDimTile) (nr : ℕ) : Prop where
  size_len : T.tileSize.length = nr
  constraint_len : T.tileConstraint.length = nr

theorem Constrained.applyDivider {nr : ℕ} (h : Constrained T nr) :
    Constrained (T.applyDivider idx d) nr := by
  obtain ⟨hsize, hconstraint⟩ := h
  unfold MLIRMultiDimTile.applyDivider
  split
  · exact ⟨hsize, hconstraint⟩
  · simp only
    split
    · exact ⟨by rw [List.length_set, hsize], by rw [List.length_set, hconstraint]⟩
    · split
      · exact ⟨by rw [List.length_set, hsize], hconstraint⟩
      · exact ⟨hsize, hconstraint⟩

/-- Two dividers of an axis have the effect of the smaller one. -/
theorem applyDivider_applyDivider {nr : ℕ} (h : Constrained T nr) (hidx : idx < nr) (hd : d ≠ 1)
    (he : e ≠ 1) :
    (T.applyDivider idx d).applyDivider idx e = T.applyDivider idx (min d e) := by
  have hmin : min d e ≠ 1 := by
    rcases Nat.le_total d e with hle | hle
    · rw [Nat.min_eq_left hle]
      exact hd
    · rw [Nat.min_eq_right hle]
      exact he
  have hsize : idx < T.tileSize.length := h.size_len ▸ hidx
  have hset : ∀ value, entry (T.tileSize.set idx value) idx = value := by
    intro value
    rw [entry_eq_getElem (by rw [List.length_set]; exact hsize), List.getElem_set_self]
  cases hfixed : (constraintAt T idx).fixed with
  | false =>
    have hconstraint : idx < T.tileConstraint.length := h.constraint_len ▸ hidx
    rw [applyDivider_of_free hd hfixed, applyDivider_of_free hmin hfixed, applyDivider_of_fixed he]
    · simp only [hset, List.set_set]
      split
      · rename_i hlt
        rw [Nat.min_eq_right (Nat.le_of_lt hlt)]
      · rename_i hge
        rw [Nat.min_eq_left (Nat.le_of_not_lt hge)]
    · simp [constraintAt, hconstraint]
  | true =>
    rw [applyDivider_of_fixed hd hfixed, applyDivider_of_fixed hmin hfixed]
    by_cases hlt : d < entry T.tileSize idx
    · have hnext :
        (constraintAt { T with tileSize := T.tileSize.set idx d } idx).fixed = true := hfixed
      rw [if_pos hlt, if_pos (Nat.lt_of_le_of_lt (Nat.min_le_left d e) hlt),
        applyDivider_of_fixed he hnext]
      simp only [hset, List.set_set]
      split
      · rename_i hlt'
        rw [Nat.min_eq_right (Nat.le_of_lt hlt')]
      · rename_i hge
        rw [Nat.min_eq_left (Nat.le_of_not_lt hge)]
    · rw [if_neg hlt, applyDivider_of_fixed he hfixed]
      by_cases hlt' : e < entry T.tileSize idx
      · rw [Nat.min_eq_right (by omega)]
      · rw [if_neg hlt', if_neg (by omega)]

/-- The dividers of an axis have the effect of the least of them. -/
theorem foldl_applyDivider {nr : ℕ} (h : Constrained T nr) (hidx : idx < nr) (dividers : List ℕ) :
    dividers.foldl (fun T divider => T.applyDivider idx divider) T =
      (leastDivider dividers).elim T (T.applyDivider idx) := by
  induction dividers generalizing T with
  | nil => rfl
  | cons d dividers ih =>
    rw [List.foldl_cons, ih h.applyDivider]
    by_cases hd : d = 1
    · have hskip : leastDivider (d :: dividers) = leastDivider dividers := by
        simp [leastDivider, hd]
      rw [hskip, hd, applyDivider_one]
    · have hleast : leastDivider (d :: dividers) =
          some ((leastDivider dividers).elim d (min d)) := by
        unfold leastDivider
        rw [List.filter_cons_of_pos (by simp [hd]), List.min?_cons]
      rw [hleast]
      cases hrest : leastDivider dividers with
      | none => rfl
      | some e => exact applyDivider_applyDivider h hidx hd (leastDivider_ne_one hrest)

/-! ## The pairing of the constraints with the axes -/

/-- What the constraints of one axis do. -/
def applyLeast (T : MLIRMultiDimTile) (item : ℕ × Option ℕ × ℕ) : MLIRMultiDimTile :=
  item.2.1.elim T (T.applyDivider item.1)

theorem Constrained.applyLeast {nr : ℕ} (h : Constrained T nr) (item : ℕ × Option ℕ × ℕ) :
    Constrained (applyLeast T item) nr := by
  unfold PyTorchSim.Analysis.applyLeast
  cases item.2.1 with
  | none => exact h
  | some d => exact h.applyDivider

theorem applyLeast_frame (item : ℕ × Option ℕ × ℕ) (hne : item.1 ≠ axis) :
    entry (applyLeast T item).tileSize axis = entry T.tileSize axis ∧
      constraintAt (applyLeast T item) axis = constraintAt T axis := by
  unfold applyLeast
  cases item.2.1 with
  | none => exact ⟨rfl, rfl⟩
  | some d =>
    simp only [Option.elim, MLIRMultiDimTile.applyDivider]
    split
    · exact ⟨rfl, rfl⟩
    · split
      · simp [entry, constraintAt, List.getD, List.getElem?_set_ne hne]
      · split
        · simp [entry, List.getD, List.getElem?_set_ne hne]
        · exact ⟨rfl, rfl⟩

/-- An axis without a fixed size gets the divider, and is fixed. -/
theorem applyLeast_self {nr : ℕ} (h : Constrained T nr) (hidx : idx < nr)
    (hfree : (constraintAt T idx).fixed = false) {least : Option ℕ} (hleast : ∀ d ∈ least, d ≠ 1)
    (size : ℕ) :
    entry (applyLeast T (idx, least, size)).tileSize idx = least.getD (entry T.tileSize idx) ∧
      (constraintAt (applyLeast T (idx, least, size)) idx).fixed = least.isSome := by
  unfold applyLeast
  cases least with
  | none => exact ⟨rfl, hfree⟩
  | some d =>
    have hsize : idx < T.tileSize.length := h.size_len ▸ hidx
    have hconstraint : idx < T.tileConstraint.length := h.constraint_len ▸ hidx
    simp only [Option.elim]
    rw [applyDivider_of_free (hleast d rfl) hfree]
    simp [entry, constraintAt, hsize, hconstraint]

/-- Constraints of other axes change nothing on an axis. -/
theorem foldl_applyLeast_frame (items : List (ℕ × Option ℕ × ℕ))
    (haxis : axis ∉ items.map Prod.fst) :
    entry (items.foldl applyLeast T).tileSize axis = entry T.tileSize axis ∧
      constraintAt (items.foldl applyLeast T) axis = constraintAt T axis := by
  induction items generalizing T with
  | nil => exact ⟨rfl, rfl⟩
  | cons item items ih =>
    rw [List.map_cons, List.mem_cons, not_or] at haxis
    have hstep := applyLeast_frame (T := T) item (Ne.symm haxis.1)
    have hrest := ih (T := applyLeast T item) haxis.2
    rw [List.foldl_cons]
    exact ⟨hrest.1.trans hstep.1, hrest.2.trans hstep.2⟩

/-- Each axis without a fixed size gets its own divider. -/
theorem foldl_applyLeast_mem {nr : ℕ} (h : Constrained T nr) {items : List (ℕ × Option ℕ × ℕ)}
    (hnodup : (items.map Prod.fst).Nodup) {item : ℕ × Option ℕ × ℕ} (hitem : item ∈ items)
    (hidx : item.1 < nr) (hfree : (constraintAt T item.1).fixed = false)
    (hleast : ∀ d ∈ item.2.1, d ≠ 1) :
    entry (items.foldl applyLeast T).tileSize item.1 = item.2.1.getD (entry T.tileSize item.1) ∧
      (constraintAt (items.foldl applyLeast T) item.1).fixed = item.2.1.isSome := by
  induction items generalizing T with
  | nil => cases hitem
  | cons first items ih =>
    rw [List.map_cons, List.nodup_cons] at hnodup
    rw [List.foldl_cons]
    rcases List.mem_cons.1 hitem with hfirst | hrest
    · have hself := applyLeast_self h hidx hfree hleast item.2.2
      have hframe := foldl_applyLeast_frame (T := applyLeast T first) items hnodup.1
      rw [← hfirst] at hframe ⊢
      exact ⟨hframe.1.trans hself.1, (congrArg _ hframe.2).trans hself.2⟩
    · have hne : first.1 ≠ item.1 := by
        intro heq
        exact hnodup.1 (heq ▸ List.mem_map_of_mem hrest)
      have hstep := applyLeast_frame (T := T) first hne
      have htail := ih (h.applyLeast first) hnodup.2 hrest (by rw [hstep.2]; exact hfree)
      rw [hstep.1] at htail
      exact htail

/-- The constraint sets that `zip` pairs with the axes, each by its least divider. -/
def pairedLeast (constraints : List (List ℕ)) (ranges : List ℕ) : List (ℕ × Option ℕ × ℕ) :=
  (List.range constraints.length).zip ((constraints.map leastDivider).zip ranges)

theorem map_fst_pairedLeast (constraints : List (List ℕ)) (ranges : List ℕ) :
    (pairedLeast constraints ranges).map Prod.fst =
      List.range (min constraints.length ranges.length) := by
  apply List.ext_getElem
  · simp [pairedLeast]
  · intro i _ _
    simp [pairedLeast]

theorem mem_pairedLeast {constraints : List (List ℕ)} (hconstraint : axis < constraints.length)
    (hrange : axis < ranges.length) :
    (axis, leastDivider constraints[axis], ranges[axis]) ∈ pairedLeast constraints ranges := by
  apply List.mem_iff_getElem.2
  refine ⟨axis, ?_, ?_⟩
  · simp [pairedLeast, hconstraint, hrange]
  · simp [pairedLeast]

theorem foldl_dividers {nr : ℕ} (h : Constrained T nr) (items : List (ℕ × List ℕ × ℕ))
    (hidx : ∀ item ∈ items, item.1 < nr) :
    items.foldl
      (fun T item => item.2.1.foldl (fun T divider => T.applyDivider item.1 divider) T) T =
      (items.map (Prod.map id (Prod.map leastDivider id))).foldl applyLeast T := by
  induction items generalizing T with
  | nil => rfl
  | cons item items ih =>
    rw [List.foldl_cons, List.map_cons, List.foldl_cons,
      foldl_applyDivider h (hidx item List.mem_cons_self)]
    exact ih (h.applyLeast (Prod.map id (Prod.map leastDivider id) item))
      fun other hother => hidx other (List.mem_cons_of_mem item hother)

theorem applyConstraints_eq {nr : ℕ} (h : Constrained T nr) (hranges : ranges.length ≤ nr) :
    T.applyConstraints constraints ranges =
      ((pairedLeast constraints ranges).foldl applyLeast T).updateTileStride := by
  have hmap : pairedLeast constraints ranges =
      ((List.range constraints.length).zip (constraints.zip ranges)).map
        (Prod.map id (Prod.map leastDivider id)) := by
    rw [pairedLeast, ← List.zip_map, ← List.zip_map, List.map_id, List.map_id]
  unfold MLIRMultiDimTile.applyConstraints
  rw [hmap, foldl_dividers h]
  intro item hitem
  have hfst : item.1 ∈ (pairedLeast constraints ranges).map Prod.fst := by
    rw [hmap, List.map_map]
    exact List.mem_map_of_mem hitem
  rw [map_fst_pairedLeast, List.mem_range] at hfst
  omega

/-- The constraint sets are applied to the axes by their position. -/
theorem entry_applyConstraints {nr : ℕ} (constraints : List (List ℕ)) (h : Constrained T nr)
    (hranges : ranges.length ≤ nr) (hfree : (constraintAt T axis).fixed = false)
    (haxis : axis < ranges.length) :
    entry (T.applyConstraints constraints ranges).tileSize axis =
        (constraints[axis]?.bind leastDivider).getD (entry T.tileSize axis) ∧
      (constraintAt (T.applyConstraints constraints ranges) axis).fixed =
        (constraints[axis]?.bind leastDivider).isSome := by
  rw [applyConstraints_eq h hranges]
  change entry ((pairedLeast constraints ranges).foldl applyLeast T).tileSize axis = _ ∧
    (constraintAt ((pairedLeast constraints ranges).foldl applyLeast T) axis).fixed = _
  by_cases hconstraint : axis < constraints.length
  · have hmem := mem_pairedLeast hconstraint haxis
    rw [List.getElem?_eq_getElem hconstraint, Option.bind_some]
    apply foldl_applyLeast_mem h _ hmem (Nat.lt_of_lt_of_le haxis hranges) hfree
    · intro d hd
      exact leastDivider_ne_one hd
    · rw [map_fst_pairedLeast]
      exact List.nodup_range
  · have houtside : axis ∉ (pairedLeast constraints ranges).map Prod.fst := by
      rw [map_fst_pairedLeast, List.mem_range]
      omega
    have hframe := foldl_applyLeast_frame (T := T) (pairedLeast constraints ranges) houtside
    rw [hframe.1, hframe.2, List.getElem?_eq_none (Nat.not_lt.1 hconstraint)]
    exact ⟨rfl, hfree⟩

end PyTorchSim.Analysis
