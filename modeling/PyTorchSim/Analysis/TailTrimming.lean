import Mathlib.Tactic.Positivity
import PyTorchSim.Analysis.TileLayout
import PyTorchSim.Frontend.TileTrim
import PyTorchSim.Library.Runs

/-!
# Trimming respects the constraints

The search only compares sizes that the constraint of the axis has adjusted.  An axis that must
divide its dimension has no padding, so the search is not reached there, in which the adjustment
could fail.
-/

set_option autoImplicit false

namespace PyTorchSim.Analysis

open PyTorchSim.Frontend PyTorchSim.Library MLIRMultiDimTile

variable {constraint : TileConstraint} {size dim candidate : ℕ} {beta : ℚ}

/-- A size that the constraint admits. -/
structure AdmittedSize (constraint : TileConstraint) (dim size : ℕ) : Prop where
  pos : 0 < size
  multiple : constraint.multipleOf ∣ size
  divides : constraint.mustDivideDim = true → size ∣ dim

/-- The weight of the iterations on an axis. -/
def iterationWeight (constraint : TileConstraint) :
    ℚ := if constraint.mustDivideDim then 0 else 1 / 2

/-- The share of the padding. -/
def paddingShare (size dim : ℕ) : ℚ := ((size - dim % size) % size : ℕ) / dim

/-- The padding ratio plus the iteration penalty. -/
def weightedCost (constraint : TileConstraint) (dim size : ℕ) : ℚ :=
  paddingShare size dim + iterationWeight constraint * (dim / size)

theorem getPaddingRatio_eq (hsize : 0 < size) (hdim : 0 < dim) :
    getPaddingRatio size dim = .ok (paddingShare size dim) := by
  unfold getPaddingRatio
  rw [if_neg (by omega)]
  rfl

theorem tileCost_eq (hsize : 0 < size) (hdim : 0 < dim) :
    tileCost (iterationWeight constraint) size dim = .ok (weightedCost constraint dim size) := by
  unfold tileCost weightedCost
  rw [getPaddingRatio_eq hsize hdim]
  change Except.ok (1 * paddingShare size dim + _) = _
  rw [one_mul]

/-- A size that divides the dimension has no padding. -/
theorem paddingShare_of_dvd (h : size ∣ dim) : paddingShare size dim = 0 := by
  unfold paddingShare
  rw [Nat.mod_eq_zero_of_dvd h, Nat.sub_zero, Nat.mod_self, Nat.cast_zero, zero_div]

/-- Without a dimension to divide, the adjustment rounds down, and up to the least multiple. -/
theorem adjust_eq (hfixed : constraint.fixed = false) (hfree : constraint.mustDivideDim = false)
    (old new dim : ℕ) :
    constraint.adjust old new dim =
      .ok (max (new - new % constraint.multipleOf) constraint.multipleOf) := by
  simp only [TileConstraint.adjust, hfixed, hfree, Bool.false_eq_true, if_false, Bool.not_false,
    if_true]

/-- The adjusted size of a smaller candidate is admitted and no larger than the tile. -/
theorem admitted_adjusted (hfree : constraint.mustDivideDim = false)
    (h : AdmittedSize constraint dim size) (hle : candidate ≤ size) :
    AdmittedSize constraint dim
        (max (candidate - candidate % constraint.multipleOf) constraint.multipleOf) ∧
      max (candidate - candidate % constraint.multipleOf) constraint.multipleOf ≤ size := by
  have hpos : 0 < constraint.multipleOf := Nat.pos_of_dvd_of_pos h.multiple h.pos
  refine ⟨⟨?_, ?_, ?_⟩, ?_⟩
  · exact Nat.lt_of_lt_of_le hpos (Nat.le_max_right _ _)
  · rcases Nat.le_total (candidate - candidate % constraint.multipleOf) constraint.multipleOf with
      hmin | hmin
    · rw [Nat.max_eq_right hmin]
    · rw [Nat.max_eq_left hmin]
      exact Nat.dvd_sub_mod candidate
  · intro hmust
    rw [hfree] at hmust
    cases hmust
  · exact Nat.max_le.2 ⟨(Nat.sub_le _ _).trans hle, Nat.le_of_dvd h.pos h.multiple⟩

/-- What holds of the best size throughout the search. -/
structure BestSoFar (constraint : TileConstraint) (dim size : ℕ) (best : BestTile) : Prop where
  admitted : AdmittedSize constraint dim best.size
  le : best.size ≤ size
  cost_eq : best.cost = weightedCost constraint dim best.size
  cost_le : best.cost ≤ weightedCost constraint dim size

theorem tryCandidate_keeps (hfixed : constraint.fixed = false)
    (hfree : constraint.mustDivideDim = false) (hdim : 0 < dim)
    (h : AdmittedSize constraint dim size) (hle : candidate ≤ size) {best : BestTile}
    (hbest : BestSoFar constraint dim size best) :
    ∃ best', tryCandidate constraint (iterationWeight constraint) size dim best candidate =
        .ok best' ∧ BestSoFar constraint dim size best' := by
  obtain ⟨hadmitted, hsmaller⟩ := admitted_adjusted hfree h hle
  unfold tryCandidate
  rw [adjust_eq hfixed hfree]
  change ∃ best', (tileCost (iterationWeight constraint) _ dim >>= _) = .ok best' ∧ _
  rw [tileCost_eq hadmitted.pos hdim]
  refine ⟨_, rfl, ?_⟩
  split
  · rename_i hless
    exact ⟨hadmitted, hsmaller, rfl, hless.le.trans hbest.cost_le⟩
  · exact hbest

/-- An axis is trimmed to a size that its constraint admits, no larger and no more costly. -/
theorem trimAxis_spec (hdim : 0 < dim)
    (h : constraint.fixed = false → AdmittedSize constraint dim size) :
    ∃ size', trimAxis constraint dim size = .ok size' ∧ (constraint.fixed = true → size' = size) ∧
      size' ≤ size ∧
      (constraint.fixed = false → AdmittedSize constraint dim size' ∧
        weightedCost constraint dim size' ≤ weightedCost constraint dim size) := by
  cases hfixed : constraint.fixed with
  | true =>
    refine ⟨size, ?_, fun _ => rfl, Nat.le_refl size, fun hnot => by cases hnot⟩
    unfold trimAxis
    rw [hfixed]
    rfl
  | false =>
    have hadmitted := h hfixed
    have hsame : AdmittedSize constraint dim size ∧
        weightedCost constraint dim size ≤ weightedCost constraint dim size := ⟨hadmitted, le_rfl⟩
    have htrim : trimAxis constraint dim size =
        if paddingShare size dim < tailRatioThreshold then .ok size
        else (((List.range' 1 (size - 1)).reverse).foldlM
          (tryCandidate constraint (iterationWeight constraint) size dim)
          ⟨size, 1 * paddingShare size dim + iterationWeight constraint * (dim / size)⟩ >>=
            fun best => .ok best.size) := by
      unfold trimAxis
      rw [hfixed, getPaddingRatio_eq hadmitted.pos hdim]
      rfl
    rw [htrim]
    split
    · exact ⟨size, rfl, fun hnot => (by cases hnot), Nat.le_refl size, fun _ => hsame⟩
    · rename_i hpadded
      have hfree : constraint.mustDivideDim = false := by
        by_contra hmust
        rw [Bool.not_eq_false] at hmust
        rw [paddingShare_of_dvd (hadmitted.divides hmust)] at hpadded
        exact hpadded (by norm_num [tailRatioThreshold])
      have hinit : BestSoFar constraint dim size
          ⟨size, 1 * paddingShare size dim + iterationWeight constraint * (dim / size)⟩ := by
        have hcost : 1 * paddingShare size dim + iterationWeight constraint * (dim / size) =
            weightedCost constraint dim size := by
          rw [one_mul]
          rfl
        exact ⟨hadmitted, Nat.le_refl size, hcost, hcost.le⟩
      have hstep : ∀ best, ∀ candidate ∈ (List.range' 1 (size - 1)).reverse,
          BestSoFar constraint dim size best →
          ∃ best', tryCandidate constraint (iterationWeight constraint) size dim best candidate =
            .ok best' ∧ BestSoFar constraint dim size best' := by
        intro best candidate hmem hkept
        rw [List.mem_reverse, List.mem_range'_1] at hmem
        have hle : candidate ≤ size := by omega
        exact tryCandidate_keeps hfixed hfree hdim hadmitted hle hkept
      obtain ⟨best, hbest, hkept⟩ := foldlM_keeps _ hstep hinit
      rw [hbest]
      refine ⟨best.size, rfl, fun hnot => (by cases hnot), hkept.le, fun _ => ⟨hkept.admitted, ?_⟩⟩
      rw [← hkept.cost_eq]
      exact hkept.cost_le

/-! ## All axes -/

/-- What trimming makes of an axis: a fixed one keeps its size, the others get one that their
constraint admits, no larger and no more costly. -/
structure Trimmed (constraint : TileConstraint) (dim size size' : ℕ) : Prop where
  fixed : constraint.fixed = true → size' = size
  le : size' ≤ size
  admitted : constraint.fixed = false → AdmittedSize constraint dim size'
  cost_le : constraint.fixed = false →
    weightedCost constraint dim size' ≤ weightedCost constraint dim size

/-- A tile with trimmed axes: those of a dimension, each from the size it had. -/
structure TrimmedTile (T : MLIRMultiDimTile) (ranges : List ℕ) (tile : MLIRMultiDimTile) :
    Prop where
  frame : tile = { T with tileSize := tile.tileSize }
  length_eq : tile.tileSize.length = T.tileSize.length
  trimmed : ∀ i < ranges.length, i < T.tileSize.length →
    Trimmed (T.tileConstraint.getD i {}) (entry ranges i) (entry T.tileSize i)
      (entry tile.tileSize i)
  rest : ∀ i, ranges.length ≤ i → entry tile.tileSize i = entry T.tileSize i

variable {T : MLIRMultiDimTile} {ranges : List ℕ}

/-- The tile that the trimming gets. -/
structure TrimInput (T : MLIRMultiDimTile) (ranges : List ℕ) : Prop where
  dim_pos : ∀ dim ∈ ranges, 0 < dim
  admitted : ∀ i < ranges.length, i < T.tileSize.length →
    (T.tileConstraint.getD i {}).fixed = false →
      AdmittedSize (T.tileConstraint.getD i {}) (entry ranges i) (entry T.tileSize i)

theorem TrimInput.trimmedTile_self (h : TrimInput T ranges) : TrimmedTile T ranges T :=
  ⟨rfl, rfl, fun i hi hi' => ⟨fun _ => rfl, Nat.le_refl _, h.admitted i hi hi', fun _ => le_rfl⟩,
    fun _ _ => rfl⟩

/-- A new size of one axis. -/
theorem TrimmedTile.set {tile : MLIRMultiDimTile} (h : TrimmedTile T ranges tile) {k size' : ℕ}
    (hk : k < ranges.length)
    (hnew : Trimmed (T.tileConstraint.getD k {}) (entry ranges k) (entry T.tileSize k) size') :
    TrimmedTile T ranges { tile with tileSize := tile.tileSize.set k size' } := by
  have hother : ∀ i, i ≠ k → entry (tile.tileSize.set k size') i = entry tile.tileSize i := by
    intro i hne
    simp only [entry, List.getD_eq_getElem?_getD]
    rw [List.getElem?_set_ne (Ne.symm hne)]
  refine ⟨?_, ?_, ?_, ?_⟩
  · rw [h.frame]
  · rw [List.length_set, h.length_eq]
  · intro i hi hi'
    by_cases hik : i = k
    · subst hik
      have hset : entry (tile.tileSize.set i size') i = size' := by
        rw [entry_eq_getElem (by rw [List.length_set, h.length_eq]; exact hi'),
          List.getElem_set_self]
      rw [hset]
      exact hnew
    · rw [hother i hik]
      exact h.trimmed i hi hi'
  · intro i hi
    rw [hother i (by omega)]
    exact h.rest i hi

/-- Trimming the tail of a tile raises no error.  Fixed axes stay, no axis grows, and the sizes are
again such as the constraints admit, at no higher cost. -/
theorem trimLargeTail_respects (h : TrimInput T ranges) :
    ∃ tile, T.trimLargeTail ranges = .ok tile ∧ TrimmedTile T ranges tile := by
  apply foldlM_keeps (I := TrimmedTile T ranges) _ ?_ h.trimmedTile_self
  rintro tile ⟨i, dim, size⟩ hmem hkept
  -- the index, the dimension and the size of one axis
  obtain ⟨k, hk, heq⟩ := List.mem_iff_getElem.1 hmem
  simp only [List.length_zip, List.length_range] at hk
  simp only [List.getElem_zip, List.getElem_range, Prod.mk.injEq] at heq
  obtain ⟨rfl, rfl, rfl⟩ := heq
  have hranges : k < ranges.length := by omega
  have hsize : k < T.tileSize.length := by omega
  have hadmitted := h.admitted k hranges hsize
  rw [entry_eq_getElem hranges, entry_eq_getElem hsize] at hadmitted
  obtain ⟨size', htrim, hfixed, hle, hnew⟩ :=
    trimAxis_spec (h.dim_pos _ (List.getElem_mem hranges)) hadmitted
  refine ⟨{ tile with tileSize := tile.tileSize.set k size' }, ?_, ?_⟩
  · simp only
    rw [htrim]
    rfl
  · apply hkept.set hranges
    rw [entry_eq_getElem hranges, entry_eq_getElem hsize]
    exact ⟨hfixed, hle, fun hfree => (hnew hfree).1, fun hfree => (hnew hfree).2⟩

/-- Tiles of eight for ten and seventeen elements; the first axis is in steps of two. -/
theorem trimLargeTail_respects_tens :
    TrimInput (MLIRMultiDimTile.make [8, 8] 4 0 2 none) [10, 17] ∧
      ∃ tile, (MLIRMultiDimTile.make [8, 8] 4 0 2 none).trimLargeTail [10, 17] = .ok tile ∧
        TrimmedTile (MLIRMultiDimTile.make [8, 8] 4 0 2 none) [10, 17] tile := by
  have hinput : TrimInput (MLIRMultiDimTile.make [8, 8] 4 0 2 none) [10, 17] := by
    refine ⟨by decide, ?_⟩
    intro i hi _ _
    obtain rfl | rfl : i = 0 ∨ i = 1 := by
      simp only [List.length_cons, List.length_nil] at hi
      omega
    · exact ⟨by decide, by decide, by decide⟩
    · exact ⟨by decide, by decide, by decide⟩
  exact ⟨hinput, trimLargeTail_respects hinput⟩

end PyTorchSim.Analysis
