import PyTorchSim.Analysis.TileLayout
import PyTorchSim.Frontend.TileRecompile
import PyTorchSim.Library.Runs

/-!
# Tiles that divide their dimensions

The adjustment of a tile takes the largest divisor of each dimension that is not above the tile's
size. The result passes the check that asked for it, since the split axis is either a multiple of
the lane stride or the lane stride becomes one.  Of two recompilations for this reason another step
has changed the tile in between.
-/

set_option autoImplicit false

namespace PyTorchSim.Analysis

open PyTorchSim.Frontend PyTorchSim.Library

variable {T : MLIRMultiDimTile} {dims ranges : List ℕ} {d t i : ℕ}

/-! ## One axis -/

theorem adjustOne_cases (d t : ℕ) : MLIRMultiDimTile.adjustOne d t = 1 ∨
    MLIRMultiDimTile.adjustOne d t ∣ d ∧ 1 ≤ MLIRMultiDimTile.adjustOne d t ∧
      MLIRMultiDimTile.adjustOne d t ≤ t := by
  unfold MLIRMultiDimTile.adjustOne
  cases hfind : (List.range' 1 t).reverse.find? (fun candidate => d % candidate == 0) with
  | none => exact Or.inl rfl
  | some candidate =>
    right
    have hmem := List.mem_of_find?_eq_some hfind
    have hdvd := List.find?_some hfind
    rw [List.mem_reverse, List.mem_range'_1] at hmem
    rw [beq_iff_eq] at hdvd
    exact ⟨Nat.dvd_of_mod_eq_zero hdvd, hmem.1, by simpa [Nat.lt_one_add_iff] using hmem.2⟩

theorem adjustOne_dvd (d t : ℕ) : MLIRMultiDimTile.adjustOne d t ∣ d := by
  rcases adjustOne_cases d t with hone | h
  · rw [hone]
    exact Nat.one_dvd d
  · exact h.1

theorem adjustOne_pos (d t : ℕ) : 0 < MLIRMultiDimTile.adjustOne d t := by
  rcases adjustOne_cases d t with hone | h
  · rw [hone]
    exact Nat.one_pos
  · exact h.2.1

theorem adjustOne_le (ht : 0 < t) : MLIRMultiDimTile.adjustOne d t ≤ t := by
  rcases adjustOne_cases d t with hone | h
  · rw [hone]
    exact ht
  · exact h.2.2

/-- A size that divides its dimension is kept. -/
theorem adjustOne_of_dvd (ht : 0 < t) (hdvd : t ∣ d) : MLIRMultiDimTile.adjustOne d t = t := by
  obtain ⟨n, rfl⟩ : ∃ n, t = n + 1 := ⟨t - 1, by omega⟩
  unfold MLIRMultiDimTile.adjustOne
  rw [List.range'_1_concat, List.reverse_append, List.reverse_singleton, List.singleton_append,
    List.find?_cons_of_pos]
  · exact Nat.add_comm 1 n
  · rw [beq_iff_eq, Nat.add_comm]
    exact Nat.mod_eq_zero_of_dvd hdvd

/-! ## The adjusted tile -/

/-- The sizes that the adjustment finds. -/
def adjustedSizes (T : MLIRMultiDimTile) (dims : List ℕ) : List ℕ :=
  List.zipWith MLIRMultiDimTile.adjustOne dims T.tileSize

/-- The lane stride after the adjustment. -/
def adjustedStride (T : MLIRMultiDimTile) (dims : List ℕ) : ℕ :=
  if entry (adjustedSizes T dims) T.vmap.vlaneSplitAxis % T.vmap.vlaneStride ≠ 0 then 1
  else T.vmap.vlaneStride

/-- The tile to which the adjusted sizes are to be given. -/
def relaxedTile (T : MLIRMultiDimTile) (dims : List ℕ) : MLIRMultiDimTile :=
  { T with
    tileConstraint := T.tileConstraint.map fun c => { c with mustDivideDim := true }
    vmap := { T.vmap with vlaneStride := adjustedStride T dims } }

/-- The tile after `set_tile_size(adjust_tile_to_divisible(dims))`. -/
def adjustedTile (T : MLIRMultiDimTile) (dims : List ℕ) : MLIRMultiDimTile :=
  (relaxedTile T dims).setTileSize (adjustedSizes T dims) none

theorem adjustTileToDivisible_eq (hlen : dims.length = T.tileSize.length) :
    T.adjustTileToDivisible dims = .ok (adjustedSizes T dims, relaxedTile T dims) := by
  unfold MLIRMultiDimTile.adjustTileToDivisible relaxedTile
  rw [if_neg (not_not.2 hlen)]
  by_cases hremain : entry (adjustedSizes T dims) T.vmap.vlaneSplitAxis % T.vmap.vlaneStride = 0
  · have hstride : adjustedStride T dims = T.vmap.vlaneStride := if_neg (not_not.2 hremain)
    rw [hstride]
    exact if_neg (not_not.2 hremain)
  · have hstride : adjustedStride T dims = 1 := if_pos hremain
    rw [hstride]
    exact if_pos hremain

theorem adjustTileToDivisible_ok {result : List ℕ × MLIRMultiDimTile}
    (h : T.adjustTileToDivisible dims = .ok result) : dims.length = T.tileSize.length := by
  by_contra hne
  unfold MLIRMultiDimTile.adjustTileToDivisible at h
  rw [if_pos hne] at h
  cases h

section Adjusted

variable (hlen : dims.length = T.tileSize.length)
include hlen

theorem length_adjustedSizes : (adjustedSizes T dims).length = T.tileSize.length := by
  rw [adjustedSizes, List.length_zipWith, hlen, Nat.min_self]

theorem entry_adjustedSizes (hi : i < T.tileSize.length) :
    entry (adjustedSizes T dims) i =
      MLIRMultiDimTile.adjustOne (entry dims i) (entry T.tileSize i) := by
  have hdims : i < dims.length := hlen ▸ hi
  rw [entry_eq_getElem (by rw [length_adjustedSizes hlen]; exact hi), entry_eq_getElem hdims,
    entry_eq_getElem hi]
  exact List.getElem_zipWith

omit hlen in
/-- The adjusted size of the split axis is a multiple of the lane stride. -/
theorem adjustedStride_dvd :
    adjustedStride T dims ∣ entry (adjustedSizes T dims) T.vmap.vlaneSplitAxis := by
  unfold adjustedStride
  split
  · exact Nat.one_dvd _
  · rename_i hdvd
    exact Nat.dvd_of_mod_eq_zero (not_not.1 hdvd)

theorem adjustedSizes_dvd (i : ℕ) : entry (adjustedSizes T dims) i ∣ entry dims i := by
  by_cases hi : i < T.tileSize.length
  · rw [entry_adjustedSizes hlen hi]
    exact adjustOne_dvd _ _
  · have hdims : entry dims i = 0 := by
      simp [entry, hlen, Nat.not_lt.1 hi]
    rw [hdims]
    exact Nat.dvd_zero _

/-- The adjusted tile passes the check. -/
theorem isDimDividable_adjustedTile : (adjustedTile T dims).isDimDividable dims = .ok true := by
  have hsize : (adjustedTile T dims).tileSize = adjustedSizes T dims := rfl
  have hlen' : dims.length = (adjustedTile T dims).tileSize.length := by
    rw [hsize, length_adjustedSizes hlen, hlen]
  have hround : (adjustedTile T dims).roundedDims dims = dims := by
    unfold MLIRMultiDimTile.roundedDims
    have hremain : dims.getD (adjustedTile T dims).vmap.vlaneSplitAxis 0 %
        (adjustedTile T dims).vmap.vlaneStride = 0 := by
      apply Nat.mod_eq_zero_of_dvd
      exact adjustedStride_dvd.trans (adjustedSizes_dvd hlen _)
    simp only [hremain, ne_eq, not_true_eq_false, if_false]
  unfold MLIRMultiDimTile.isDimDividable
  rw [if_neg (not_not.2 hlen'), hround, hsize]
  congr 1
  rw [List.all_eq_true]
  intro pair hpair
  obtain ⟨k, hk, rfl⟩ := List.mem_iff_getElem.1 hpair
  have hk' : k < dims.length ∧ k < (adjustedSizes T dims).length := by simpa using hk
  have hdvd := adjustedSizes_dvd hlen k
  rw [entry_eq_getElem hk'.2, entry_eq_getElem hk'.1] at hdvd
  simpa using Nat.mod_eq_zero_of_dvd hdvd

/-- Adjusting again changes nothing. -/
theorem adjustTileToDivisible_adjustedTile :
    (adjustedTile T dims).adjustTileToDivisible dims =
      .ok (adjustedSizes T dims, adjustedTile T dims) := by
  have hsize : (adjustedTile T dims).tileSize = adjustedSizes T dims := rfl
  have hlen' : dims.length = (adjustedTile T dims).tileSize.length := by
    rw [hsize, length_adjustedSizes hlen, hlen]
  have hsizes : adjustedSizes (adjustedTile T dims) dims = adjustedSizes T dims := by
    apply List.ext_getElem
    · rw [length_adjustedSizes hlen', hsize]
    · intro k hk hk'
      have hkT : k < T.tileSize.length := length_adjustedSizes hlen ▸ hk'
      rw [← entry_eq_getElem hk, ← entry_eq_getElem hk', entry_adjustedSizes hlen' (hsize ▸ hk'),
        hsize]
      apply adjustOne_of_dvd ?_ (adjustedSizes_dvd hlen k)
      rw [entry_adjustedSizes hlen hkT]
      exact adjustOne_pos _ _
  have hstride :
    adjustedStride (adjustedTile T dims) dims = (adjustedTile T dims).vmap.vlaneStride := by
    unfold adjustedStride
    rw [hsizes]
    apply if_neg
    rw [not_not]
    exact Nat.mod_eq_zero_of_dvd adjustedStride_dvd
  rw [adjustTileToDivisible_eq hlen', hsizes]
  congr 2
  unfold relaxedTile
  rw [hstride]
  simp only [adjustedTile, relaxedTile, MLIRMultiDimTile.setTileSize,
    MLIRMultiDimTile.updateTileStride, List.map_map, Function.comp_def]

end Adjusted

/-! ## Recompilations -/

variable {constraints : List (List ℕ)} {accesses : List TileAccess} {retries : ℕ}
  {signal : RecompileSignal} {history : CompileHistory}

/-- A signal for a tile that does not divide the dimensions leaves one that does. -/
theorem checkDividable_some (h : checkDividable ranges T = .ok (some signal)) :
    signal.reason = .notDividable ∧ signal.tile.isDimDividable ranges = .ok true := by
  unfold checkDividable at h
  obtain ⟨dividable, -, h⟩ := bind_eq_ok.1 h
  cases dividable with
  | true => cases h
  | false =>
    obtain ⟨result, hadjust, h⟩ := bind_eq_ok.1 h
    have hlen := adjustTileToDivisible_ok hadjust
    rw [adjustTileToDivisible_eq hlen] at hadjust
    cases hadjust
    cases h
    exact ⟨rfl, isDimDividable_adjustedTile hlen⟩

/-- A tile that divides the dimensions passes the check. -/
theorem checkDividable_of_dividable (h : T.isDimDividable ranges = .ok true) :
    checkDividable ranges T = .ok none := by
  unfold checkDividable
  rw [h]
  rfl

theorem checkFloorDiv_reason {dimIdx divisor : ℕ}
    (h : checkFloorDiv dimIdx divisor T = some signal) :
    signal.reason = .divisor := by
  unfold checkFloorDiv at h
  simp only at h
  split at h
  · split at h <;> cases h <;> rfl
  · cases h

theorem checkModularIndexing_reason {dimIdx floorDivisor modDivisor : ℕ}
    (h : checkModularIndexing dimIdx floorDivisor modDivisor T = some signal) :
    signal.reason = .divisor := by
  unfold checkModularIndexing at h
  simp only at h
  split at h
  · cases h
    rfl
  · split at h <;> cases h
    rfl

theorem checkAccess_some {access : TileAccess}
    (h : checkAccess ranges T access = .ok (some signal))
    (hreason : signal.reason = .notDividable) :
    checkDividable ranges T = .ok (some signal) := by
  cases access with
  | indexExpr => exact h
  | indirectIndexing => exact h
  | floorDiv dimIdx divisor =>
    have hdivisor := checkFloorDiv_reason (Except.ok.inj h)
    rw [hreason] at hdivisor
    cases hdivisor
  | modularIndexing dimIdx floorDivisor modDivisor =>
    have hdivisor := checkModularIndexing_reason (Except.ok.inj h)
    rw [hreason] at hdivisor
    cases hdivisor

/-- A signal of the nodes for a tile that does not divide the dimensions comes from the check. -/
theorem runNodes_some (h : runNodes ranges T accesses = .ok (some signal))
    (hreason : signal.reason = .notDividable) : checkDividable ranges T = .ok (some signal) := by
  induction accesses with
  | nil => cases h
  | cons access accesses ih =>
    obtain ⟨result, haccess, hrest⟩ := bind_eq_ok.1 h
    cases result with
    | some found =>
      cases hrest
      exact checkAccess_some haccess hreason
    | none => exact ih hrest

/-- The first signal of a compilation is that of its first attempt. -/
theorem compileNodes_head
    (h : compileNodes constraints ranges accesses retries T = .ok history)
    (hk : 0 < history.signals.length) :
    runNodes ranges T accesses = .ok (some history.signals[0]) := by
  cases retries with
  | zero =>
    rw [compileNodes] at h
    obtain ⟨result, hnodes, h⟩ := bind_eq_ok.1 h
    cases result with
    | none =>
      cases h
      exact absurd hk (Nat.not_lt_zero _)
    | some signal =>
      cases h
      exact hnodes
  | succ retries =>
    rw [compileNodes] at h
    obtain ⟨result, hnodes, h⟩ := bind_eq_ok.1 h
    cases result with
    | none =>
      cases h
      exact absurd hk (Nat.not_lt_zero _)
    | some signal =>
      obtain ⟨rest, -, h⟩ := bind_eq_ok.1 h
      cases h
      exact hnodes

/-- Of two signals in a row for this reason, the tile was changed by the constraints in between. -/
theorem compileNodes_adjacent
    (h : compileNodes constraints ranges accesses retries T = .ok history) {k : ℕ}
    (hk : k + 1 < history.signals.length)
    (hfirst : history.signals[k].reason = .notDividable)
    (hsecond : history.signals[k + 1].reason = .notDividable) :
    recomputeTileSize constraints ranges history.signals[k].tile ≠ history.signals[k].tile := by
  induction retries generalizing T history k with
  | zero =>
    rw [compileNodes] at h
    obtain ⟨result, hnodes, h⟩ := bind_eq_ok.1 h
    cases result with
    | none =>
      cases h
      exact absurd hk (Nat.not_lt_zero _)
    | some signal =>
      cases h
      exact absurd hk (by simp)
  | succ retries ih =>
    rw [compileNodes] at h
    obtain ⟨result, hnodes, h⟩ := bind_eq_ok.1 h
    cases result with
    | none =>
      cases h
      exact absurd hk (Nat.not_lt_zero _)
    | some signal =>
      obtain ⟨rest, hrest, h⟩ := bind_eq_ok.1 h
      cases h
      cases k with
      | succ k => exact ih hrest (by simpa using hk) hfirst hsecond
      | zero =>
        intro heq
        have hpass := (checkDividable_some (runNodes_some hnodes hfirst)).2
        have hnext := compileNodes_head hrest (by simpa using hk)
        have hcheck := runNodes_some hnext hsecond
        rw [List.getElem_cons_zero] at heq
        rw [heq, checkDividable_of_dividable hpass] at hcheck
        cases hcheck

/-- A step between the signals `i` and `j` of a compilation that changes the tile: a signal of an
index term's divisor, or the constraints of the implicit dimensions. -/
def ChangedBetween (constraints : List (List ℕ)) (ranges : List ℕ) (signals : List RecompileSignal)
    (i j : ℕ) : Prop :=
  ∃ k, ∃ h : k + 1 < signals.length, i ≤ k ∧ k < j ∧
    (signals[k + 1].reason = .divisor ∨
      recomputeTileSize constraints ranges signals[k].tile ≠ signals[k].tile)

/-- The adjustment of a tile converges: the adjusted tile passes the check, its sizes are positive
divisors of the dimensions that are not above the old ones, and adjusting it again changes
nothing.  Of two recompilations for this reason another step has changed the tile in between. -/
theorem adjust_converges (hlen : dims.length = T.tileSize.length)
    (hpos : ∀ size ∈ T.tileSize, 0 < size) :
    T.adjustTileToDivisible dims = .ok (adjustedSizes T dims, relaxedTile T dims) ∧
    (adjustedTile T dims).isDimDividable dims = .ok true ∧
    (∀ i < T.tileSize.length, 0 < entry (adjustedTile T dims).tileSize i ∧
      entry (adjustedTile T dims).tileSize i ≤ entry T.tileSize i ∧
      entry (adjustedTile T dims).tileSize i ∣ entry dims i) ∧
    (adjustedTile T dims).adjustTileToDivisible dims =
      .ok ((adjustedTile T dims).tileSize, adjustedTile T dims) ∧
    ∀ constraints accesses retries start history,
      compileNodes constraints dims accesses retries start = .ok history →
      ∀ i j, i < j → ∀ hi : i < history.signals.length, ∀ hj : j < history.signals.length,
        history.signals[i].reason = .notDividable → history.signals[j].reason = .notDividable →
        ChangedBetween constraints dims history.signals i j := by
  refine ⟨adjustTileToDivisible_eq hlen, isDimDividable_adjustedTile hlen, ?_,
    adjustTileToDivisible_adjustedTile hlen, ?_⟩
  · intro i hi
    have hsize : (adjustedTile T dims).tileSize = adjustedSizes T dims := rfl
    rw [hsize]
    refine ⟨?_, ?_, adjustedSizes_dvd hlen i⟩
    · rw [entry_adjustedSizes hlen hi]
      exact adjustOne_pos _ _
    · rw [entry_adjustedSizes hlen hi]
      apply adjustOne_le
      rw [entry_eq_getElem hi]
      exact hpos _ (List.getElem_mem _)
  · intro constraints accesses retries start history h i j hij hi hj hfirst hsecond
    have hnext : i + 1 < history.signals.length := Nat.lt_of_le_of_lt hij hj
    cases hreason : history.signals[i + 1].reason with
    | divisor => exact ⟨i, hnext, Nat.le_refl i, hij, Or.inl hreason⟩
    | notDividable =>
      exact ⟨i, hnext, Nat.le_refl i, hij, Or.inr (compileNodes_adjacent h hnext hfirst hreason)⟩

/-- A tile of sixteen columns for ten. -/
theorem adjust_converges_ten :
    (adjustedTile (MLIRMultiDimTile.make [16] 4 0 2 none) [10]).isDimDividable [10] = .ok true :=
  (adjust_converges (T := MLIRMultiDimTile.make [16] 4 0 2 none) rfl (by decide)).2.1

/-- A kernel over ten elements that reads element `i / 4` and the index `i`: the divisor asks for
sixteen elements, the index for ten, and the check for the index fails three times. -/
theorem compileNodes_index_thrice :
    (compileNodes [] [10] [.floorDiv 0 4, .indexExpr] maxRetryCompile
      (MLIRMultiDimTile.make [16] 4 0 2 none)).toOption.map
        (fun history => (history.signals.map (·.reason), history.compiled)) =
      some ([.notDividable, .divisor, .notDividable, .divisor, .notDividable, .divisor], none) := by
  decide +kernel

end PyTorchSim.Analysis
