import Mathlib.Data.Nat.ModEq
import PyTorchSim.Analysis.TileLayout
import PyTorchSim.Frontend.TileRecompile
import PyTorchSim.Library.Runs

/-!
# Adjusting a tile to a modular index

A term with a floor divisor and a modulus wants an axis of the tile to be a multiple of the divisor
and to divide the divisor times the modulus.  The first step rounds the size up to a multiple of the
divisor, the second one looks for a smaller size that fits, and takes the product where it finds
none.
-/

set_option autoImplicit false

namespace PyTorchSim.Analysis

open PyTorchSim.Frontend PyTorchSim.Library

variable {T : MLIRMultiDimTile} {signal : RecompileSignal} {ranges : List ℕ} {access : TileAccess}
  {dimIdx floorDivisor modDivisor size : ℕ}

/-- The size that a modular index wants. -/
def FitsModular (floorDivisor modDivisor size : ℕ) : Prop :=
  floorDivisor ∣ size ∧ size ∣ floorDivisor * modDivisor

/-! ## The retries of a kernel with one access -/

theorem runNodes_single : runNodes ranges T [access] = checkAccess ranges T access := by
  rw [runNodes]
  cases checkAccess ranges T access with
  | error message => rfl
  | ok result =>
    cases result with
    | none => rfl
    | some signal => rfl

/-- An attempt without a signal compiles the tile. -/
theorem compileNodes_none (retries : ℕ) (h : checkAccess ranges T access = .ok none) :
    compileNodes [] ranges [access] retries T = .ok ⟨[], some T⟩ := by
  cases retries <;> rw [compileNodes, runNodes_single, h] <;> rfl

/-- A signal is followed by an attempt with its tile. -/
theorem compileNodes_some {retries : ℕ} {history : CompileHistory}
    (h : checkAccess ranges T access = .ok (some signal))
    (hrest : compileNodes [] ranges [access] retries signal.tile = .ok history) :
    compileNodes [] ranges [access] (retries + 1) T =
      .ok ⟨signal :: history.signals, history.compiled⟩ := by
  have hsame : recomputeTileSize [] ranges signal.tile = signal.tile := if_neg (not_not_intro rfl)
  rw [compileNodes, bind_eq_ok]
  refine ⟨some signal, by rw [runNodes_single, h], ?_⟩
  apply bind_eq_ok.2
  refine ⟨history, ?_, rfl⟩
  rw [hsame]
  exact hrest

/-! ## The two steps -/

theorem entry_fixTileDim (size : ℕ) (hdim : dimIdx < T.tileSize.length) :
    entry (fixTileDim T dimIdx size).tileSize dimIdx = size := by
  change entry (T.tileSize.set dimIdx size) dimIdx = size
  rw [entry_eq_getElem (by rwa [List.length_set]), List.getElem_set_self]

theorem length_fixTileDim : (fixTileDim T dimIdx size).tileSize.length = T.tileSize.length :=
  List.length_set ..

/-- The checks pass exactly on the sizes that fit. -/
theorem checkModularIndexing_none
    (h : FitsModular floorDivisor modDivisor (entry T.tileSize dimIdx)) :
    checkModularIndexing dimIdx floorDivisor modDivisor T = none := by
  have hmod : entry T.tileSize dimIdx % floorDivisor = 0 := Nat.mod_eq_zero_of_dvd h.1
  have hdvd : modDivisor * floorDivisor % entry T.tileSize dimIdx = 0 := by
    rw [Nat.mul_comm]
    exact Nat.mod_eq_zero_of_dvd h.2
  unfold checkModularIndexing
  rw [if_neg (not_not_intro hmod), if_neg (not_not_intro hdvd)]

/-- The first step makes the size a multiple of the floor divisor. -/
theorem checkModularIndexing_first (modDivisor : ℕ) (h : ¬ floorDivisor ∣ entry T.tileSize dimIdx) :
    ∃ size, floorDivisor ∣ size ∧ checkModularIndexing dimIdx floorDivisor modDivisor T =
      some ⟨.divisor, fixTileDim T dimIdx size⟩ := by
  have hmod : entry T.tileSize dimIdx % floorDivisor ≠ 0 := fun hzero =>
    h (Nat.dvd_of_mod_eq_zero hzero)
  refine ⟨_, ?_, if_pos hmod⟩
  exact Dvd.dvd.mul_left (Dvd.intro _ rfl) _

/-- The size of the second step fits. -/
theorem fitsModular_modularTileSize (size : ℕ) :
    FitsModular floorDivisor modDivisor (modularTileSize size floorDivisor modDivisor) := by
  unfold modularTileSize
  simp only
  generalize hfind : List.find? _ _ = found
  cases found with
  | none => exact ⟨Dvd.intro_left _ rfl, by rw [Nat.mul_comm]; exact dvd_refl _⟩
  | some newSize =>
    have hfits := List.find?_some hfind
    simp only [Bool.and_eq_true, decide_eq_true_eq, beq_iff_eq] at hfits
    obtain ⟨⟨-, hmod⟩, hfloorMod⟩ := hfits
    exact ⟨Nat.dvd_of_mod_eq_zero hfloorMod, Dvd.dvd.mul_left (Nat.dvd_of_mod_eq_zero hmod) _⟩

/-- The second step makes the size fit. -/
theorem checkModularIndexing_second (h : floorDivisor ∣ entry T.tileSize dimIdx)
    (hnot : ¬ entry T.tileSize dimIdx ∣ floorDivisor * modDivisor) :
    ∃ size, FitsModular floorDivisor modDivisor size ∧
      checkModularIndexing dimIdx floorDivisor modDivisor T =
        some ⟨.divisor, fixTileDim T dimIdx size⟩ := by
  have hmod : entry T.tileSize dimIdx % floorDivisor = 0 := Nat.mod_eq_zero_of_dvd h
  have hdvd : modDivisor * floorDivisor % entry T.tileSize dimIdx ≠ 0 := by
    intro hzero
    rw [Nat.mul_comm] at hzero
    exact hnot (Nat.dvd_of_mod_eq_zero hzero)
  refine ⟨_, fitsModular_modularTileSize (entry T.tileSize dimIdx), ?_⟩
  unfold checkModularIndexing
  rw [if_neg (not_not_intro hmod), if_pos hdvd]

/-! ## The adjustment of a tile -/

/-- A multiple of the floor divisor is adjusted at most once. -/
theorem compileNodes_multiple (retries : ℕ) (ranges : List ℕ) (modDivisor : ℕ)
    (hdim : dimIdx < T.tileSize.length) (hfloor : floorDivisor ∣ entry T.tileSize dimIdx) :
    ∃ history T',
      compileNodes [] ranges [.modularIndexing dimIdx floorDivisor modDivisor] (retries + 1) T =
        .ok history ∧
      history.signals.length ≤ 1 ∧ history.compiled = some T' ∧
      FitsModular floorDivisor modDivisor (entry T'.tileSize dimIdx) := by
  by_cases hmod : entry T.tileSize dimIdx ∣ floorDivisor * modDivisor
  · have hcheck := checkModularIndexing_none ⟨hfloor, hmod⟩
    exact ⟨_, T, compileNodes_none _ (congrArg Except.ok hcheck), Nat.zero_le 1, rfl, hfloor, hmod⟩
  · obtain ⟨size, hfits, hcheck⟩ := checkModularIndexing_second hfloor hmod
    rw [← entry_fixTileDim size hdim] at hfits
    have hnext : compileNodes [] ranges [.modularIndexing dimIdx floorDivisor modDivisor] retries
        (fixTileDim T dimIdx size) = .ok ⟨[], some (fixTileDim T dimIdx size)⟩ :=
      compileNodes_none retries (congrArg Except.ok (checkModularIndexing_none hfits))
    exact ⟨_, _, compileNodes_some (congrArg Except.ok hcheck) hnext, Nat.le_refl 1, rfl, hfits⟩

/-- The adjustment stops after at most two signals, with a size that fits. -/
theorem compileNodes_modularIndexing (retries : ℕ) (ranges : List ℕ) (floorDivisor modDivisor : ℕ)
    (hdim : dimIdx < T.tileSize.length) :
    ∃ history T',
      compileNodes [] ranges [.modularIndexing dimIdx floorDivisor modDivisor] (retries + 2) T =
        .ok history ∧
      history.signals.length ≤ 2 ∧ history.compiled = some T' ∧
      FitsModular floorDivisor modDivisor (entry T'.tileSize dimIdx) := by
  by_cases hfloor : floorDivisor ∣ entry T.tileSize dimIdx
  · obtain ⟨history, T', hrun, hlen, hcompiled, hfits⟩ :=
      compileNodes_multiple (retries + 1) ranges modDivisor hdim hfloor
    exact ⟨history, T', hrun, Nat.le_succ_of_le hlen, hcompiled, hfits⟩
  · obtain ⟨size, hsize, hcheck⟩ := checkModularIndexing_first modDivisor hfloor
    have hdim' : dimIdx < (fixTileDim T dimIdx size).tileSize.length := by
      rwa [length_fixTileDim]
    rw [← entry_fixTileDim size hdim] at hsize
    obtain ⟨history, T', hrun, hlen, hcompiled, hfits⟩ :=
      compileNodes_multiple retries ranges modDivisor hdim' hsize
    exact ⟨_, T', compileNodes_some (congrArg Except.ok hcheck) hrun, Nat.succ_le_succ hlen,
      hcompiled, hfits⟩

/-- A term with positive divisor and modulus is settled within the retries of the kernel: after at
most two adjustments the size of the axis is positive, a multiple of the divisor, and divides the
divisor times the modulus.  A tile with such a size is compiled as it is. -/
theorem modularIndexing_settles (ranges : List ℕ) (hfloor : 0 < floorDivisor)
    (hmod : 0 < modDivisor)
    (hsize : 0 < entry T.tileSize dimIdx) :
    (∃ history T',
      compileNodes [] ranges [.modularIndexing dimIdx floorDivisor modDivisor] maxRetryCompile T =
        .ok history ∧
      history.signals.length ≤ 2 ∧ history.compiled = some T' ∧ 0 < entry T'.tileSize dimIdx ∧
      FitsModular floorDivisor modDivisor (entry T'.tileSize dimIdx)) ∧
    (FitsModular floorDivisor modDivisor (entry T.tileSize dimIdx) →
      compileNodes [] ranges [.modularIndexing dimIdx floorDivisor modDivisor] maxRetryCompile T =
        .ok ⟨[], some T⟩) := by
  have hdim : dimIdx < T.tileSize.length := by
    by_contra hnot
    have hzero : entry T.tileSize dimIdx = 0 := List.getD_eq_default _ _ (Nat.le_of_not_lt hnot)
    exact hsize.ne' hzero
  constructor
  · obtain ⟨history, T', hrun, hlen, hcompiled, hfits⟩ :=
      compileNodes_modularIndexing 3 ranges floorDivisor modDivisor hdim
    have hpos :
      0 < entry T'.tileSize dimIdx := Nat.pos_of_dvd_of_pos hfits.2 (Nat.mul_pos hfloor hmod)
    exact ⟨history, T', hrun, hlen, hcompiled, hpos, hfits⟩
  · intro hfits
    exact compileNodes_none _ (congrArg Except.ok (checkModularIndexing_none hfits))

/-- The term `(i // 3) % 4` on a tile of twelve, which fits. -/
theorem modularIndexing_settles_twelve :
    FitsModular 3 4 12 ∧
      compileNodes [] [24] [.modularIndexing 0 3 4] maxRetryCompile
          (MLIRMultiDimTile.make [12] 2 0 2 none) =
        .ok ⟨[], some (MLIRMultiDimTile.make [12] 2 0 2 none)⟩ :=
  have hfits : FitsModular 3 4 12 := ⟨by decide, by decide⟩
  ⟨hfits, (modularIndexing_settles (T := MLIRMultiDimTile.make [12] 2 0 2 none) [24] (by decide)
    (by decide) (by decide)).2 hfits⟩

end PyTorchSim.Analysis
