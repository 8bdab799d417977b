import PyTorchSim.Analysis.CatTiles
import PyTorchSim.Frontend.CatProgram
import PyTorchSim.Library.Writes

/-!
# The concatenation kernel

A tile of the kernel is a box of coordinates of the output, given by the loop variables and the
coordinates in the tile.  The boxes cover the output, and what is written at a coordinate is the
element of the input that the coordinate belongs to.  The buffers of inputs with one name are
declared once, so their tiles have to have the same extent.
-/

set_option autoImplicit false

namespace PyTorchSim.Analysis

open Frontend Frontend.CatTemplate Frontend.CatProgram Library

/-! ## Coordinates of tiles -/

section Coordinates

variable {axes : List ℕ} {c : List ℕ} {range : ℕ → List ℕ}

/-- The choices of one coordinate for each of some axes. -/
theorem mem_product_map (hnodup : axes.Nodup) :
    c ∈ product (axes.map range) ↔
      ∃ g : ℕ → ℕ, c = axes.map g ∧ (∀ d ∈ axes, g d ∈ range d) ∧ ∀ d ∉ axes, g d = 0 := by
  induction axes generalizing c with
  | nil =>
    constructor
    · intro hc
      exact ⟨fun _ => 0, by simpa [product] using hc, by simp, fun _ _ => rfl⟩
    · rintro ⟨g, rfl, -, -⟩
      simp [product]
  | cons d axes ih =>
    obtain ⟨hd, hnodup⟩ := List.nodup_cons.1 hnodup
    simp only [List.map_cons, product, List.mem_flatMap, List.mem_map]
    constructor
    · rintro ⟨n, hn, rest, hrest, rfl⟩
      obtain ⟨g, rfl, hg, hzero⟩ := (ih hnodup).1 hrest
      refine ⟨Function.update g d n, ?_, ?_, ?_⟩
      · rw [Function.update_self]
        congr 1
        apply List.map_congr_left
        intro d' hd'
        have hne : d' ≠ d := fun heq => hd (heq ▸ hd')
        rw [Function.update_of_ne hne]
      · intro d' hd'
        rcases List.mem_cons.1 hd' with rfl | hd'
        · rwa [Function.update_self]
        · have hne : d' ≠ d := fun heq => hd (heq ▸ hd')
          rw [Function.update_of_ne hne]
          exact hg d' hd'
      · intro d' hd'
        obtain ⟨hne, hd'⟩ := not_or.1 (mt List.mem_cons.2 hd')
        rw [Function.update_of_ne hne]
        exact hzero d' hd'
    · rintro ⟨g, rfl, hg, -⟩
      refine ⟨g d, hg d (List.mem_cons_self ..), axes.map g, ?_, rfl⟩
      refine (ih hnodup).2 ⟨fun d' => if d' ∈ axes then g d' else 0, ?_, ?_, ?_⟩
      · exact List.map_congr_left fun d' hd' => (if_pos hd').symm
      · intro d' hd'
        simp only [if_pos hd']
        exact hg d' (List.mem_cons_of_mem d hd')
      · exact fun d' hd' => if_neg hd'

/-- The part of an address that the coordinates of a tile make. -/
theorem dot_map (axes : List ℕ) (stride : ℕ → ℤ) (g : ℕ → ℕ) :
    dot (axes.map stride) (axes.map g) = (axes.map fun d => stride d * (g d : ℤ)).sum := by
  rw [dot, List.zipWith_map, List.zipWith_self]

/-- Axes without a coordinate add nothing. -/
theorem sum_map_filter_of_zero (axes : List ℕ) (p : ℕ → Bool) (f : ℕ → ℤ)
    (hzero : ∀ d ∈ axes, p d = false → f d = 0) :
    ((axes.filter p).map f).sum = (axes.map f).sum := by
  induction axes with
  | nil => rfl
  | cons d axes ih =>
    have hrest := ih fun d' hd' => hzero d' (List.mem_cons_of_mem d hd')
    cases hp : p d with
    | true => rw [List.filter_cons_of_pos hp, List.map_cons, List.sum_cons, hrest, List.map_cons,
        List.sum_cons]
    | false =>
      rw [List.filter_cons_of_neg (by simp [hp]), hrest, List.map_cons, List.sum_cons,
        hzero d (List.mem_cons_self ..) hp, zero_add]

/-- The address of an element. -/
def elementAddress (x : CatInput) (rank : ℕ) (coord : ℕ → ℕ) : ℤ :=
  ((List.range rank).map fun d => x.stride.getD d 0 * (coord d : ℤ)).sum + x.offset

theorem elementAddress_congr {x : CatInput} {rank : ℕ} {coord coord' : ℕ → ℕ}
    (h : ∀ d < rank, coord d = coord' d) :
    elementAddress x rank coord = elementAddress x rank coord' := by
  rw [elementAddress, elementAddress]
  congr 2
  apply List.map_congr_left
  intro d hd
  rw [h d (List.mem_range.1 hd)]

end Coordinates

/-! ## The copies -/

section Copies

variable {t : CatTemplate} {kernel : CatKernel} {tileInfo : List ℕ}

/-- The axes that are left out are left out of every list. -/
theorem filterMap_tiledAxes {β : Type} (dim : ℕ) (excluded axes : List ℕ) (f g : ℕ → β) :
    (axes.filterMap fun d =>
      if d = dim then some (f d) else if tileIdx dim d ∈ excluded then none else some (g d)) =
      (axes.filter fun d => d = dim ∨ tileIdx dim d ∉ excluded).map
        fun d => if d = dim then f d else g d := by
  induction axes with
  | nil => rfl
  | cons d axes ih =>
    rw [List.filterMap_cons, ih]
    by_cases hd : d = dim
    · rw [List.filter_cons_of_pos (by simp [hd]), List.map_cons]
      simp only [if_pos hd]
    · by_cases hmem : tileIdx dim d ∈ excluded
      · rw [List.filter_cons_of_neg (by simp [hd, hmem])]
        simp only [if_neg hd, if_pos hmem]
      · rw [List.filter_cons_of_pos (by simp [hmem]), List.map_cons]
        simp only [if_neg hd, if_neg hmem]

/-- The axes of a tile, for a candidate. -/
def candidateAxes (t : CatTemplate) (tileInfo : List ℕ) : List ℕ :=
  (List.range t.rank).filter fun d =>
    d = t.dim ∨ tileIdx t.dim d ∉ (computeExcludedDims tileInfo).1

/-- The size of the tile of input `i` along an axis. -/
def axisSize (t : CatTemplate) (kernel : CatKernel) (tileInfo : List ℕ) (i d : ℕ) : ℕ :=
  if d = t.dim then inputShare t kernel tileInfo i
  else (computeExcludedDims tileInfo).2.getD (tileIdx t.dim d) 0

theorem candidateAxes_nodup : (candidateAxes t tileInfo).Nodup :=
  List.nodup_range.filter _

theorem inputTileShape_eq (i : ℕ) :
    inputTileShape t kernel tileInfo i =
      (candidateAxes t tileInfo).map (axisSize t kernel tileInfo i) :=
  filterMap_tiledAxes t.dim _ _ (fun _ => inputShare t kernel tileInfo i)
    fun d => (computeExcludedDims tileInfo).2.getD (tileIdx t.dim d) 0

theorem dramStrides_eq (t : CatTemplate) (tileInfo : List ℕ) (stride : List ℤ) :
    dramStrides t.rank t.dim (computeExcludedDims tileInfo).1 stride =
      (candidateAxes t tileInfo).map fun d => stride.getD d 0 := by
  rw [dramStrides, filterMap_tiledAxes t.dim _ _ (fun d => stride.getD d 0)
    fun d => stride.getD d 0]
  simp only [ite_self]
  rfl

/-- The copy of input `i`. -/
def copyOf (t : CatTemplate) (kernel : CatKernel) (tileInfo : List ℕ) (i : ℕ) (x : CatInput) :
    CatCopy where
  dramName := x.name
  tile := inputTileShape t kernel tileInfo i
  extent := t.extent x
  tileDim := inputShare t kernel tileInfo i
  cumOffset := cumulativeOffset t i
  inputOffset := x.offset
  inputStrides := (List.range t.rank).map fun d => x.stride.getD d 0
  inputDramStrides := (candidateAxes t tileInfo).map fun d => x.stride.getD d 0
  outputOffset := t.outputNode.offset
  outputStrides := (List.range t.rank).map fun d => t.outputNode.stride.getD d 0
  outputDramStrides := (candidateAxes t tileInfo).map fun d => t.outputNode.stride.getD d 0

theorem copies_renderCat (t : CatTemplate) (kernel : CatKernel) (tileInfo : List ℕ) :
    (renderCat t kernel tileInfo).copies = t.inputNodes.mapIdx (copyOf t kernel tileInfo) := by
  rw [renderCat]
  apply List.ext_getElem
  · simp
  · intro i hi hi'
    have hn : i < t.numInputs := by simpa [numInputs] using hi
    have hshare : (t.calculateInputTileSizes kernel (computeExcludedDims tileInfo).2).getD i 0 =
        inputShare t kernel tileInfo i :=
      getD_shareExtents _ _ i (by simpa [numInputs] using hn)
    simp only [List.getElem_mapIdx, hshare, dramStrides_eq]
    rfl

theorem tiledAxes_renderCat :
    (renderCat t kernel tileInfo).tiledAxes = candidateAxes t tileInfo := rfl

/-- **The tile of a step**, as coordinates `g` in the tile. -/
theorem mem_moved {index c : List ℕ} {indexLocal i : ℕ} {x : CatInput} :
    c ∈ (renderCat t kernel tileInfo).moved (copyOf t kernel tileInfo i x) index indexLocal ↔
      ∃ g : ℕ → ℕ, c = (candidateAxes t tileInfo).map g ∧
        (∀ d ∈ candidateAxes t tileInfo, g d < axisSize t kernel tileInfo i d ∧
          (renderCat t kernel tileInfo).loopValue index indexLocal d + g d <
            (renderCat t kernel tileInfo).loopBound (copyOf t kernel tileInfo i x) d) ∧
        ∀ d ∉ candidateAxes t tileInfo, g d = 0 := by
  have hlist : (copyOf t kernel tileInfo i x).tile =
      (candidateAxes t tileInfo).map (axisSize t kernel tileInfo i) := inputTileShape_eq i
  rw [moved, tiledAxes_renderCat, hlist, List.zipWith_map_left, List.zipWith_self,
    mem_product_map candidateAxes_nodup]
  simp only [List.mem_range, lt_min_iff, Nat.lt_sub_iff_add_lt']

/-- The part of an address that a tile makes is added to that of the loops. -/
theorem tileAddress_eq (stride : List ℤ) (offset : ℤ) (loop g : ℕ → ℕ)
    (hzero : ∀ d ∉ candidateAxes t tileInfo, g d = 0) :
    dot ((List.range t.rank).map fun d => stride.getD d 0) ((List.range t.rank).map loop) + offset +
      dot ((candidateAxes t tileInfo).map fun d => stride.getD d 0)
        ((candidateAxes t tileInfo).map g) =
      ((List.range t.rank).map fun d => stride.getD d 0 * ((loop d + g d : ℕ) : ℤ)).sum +
        offset := by
  have htile : ((candidateAxes t tileInfo).map fun d => stride.getD d 0 * (g d : ℤ)).sum =
      ((List.range t.rank).map fun d => stride.getD d 0 * (g d : ℤ)).sum := by
    apply sum_map_filter_of_zero
    intro d hd hout
    have hnot : d ∉ candidateAxes t tileInfo := by
      rw [candidateAxes, List.mem_filter, hout]
      simp
    rw [hzero d hnot]
    simp
  rw [dot_map, dot_map, htile]
  simp only [Nat.cast_add, mul_add]
  rw [List.sum_map_add]
  ring

/-! ### The writes of the kernel -/

variable {α : Type}

/-- What a step writes: addresses of the output with elements of the input. -/
def stepWrites (p : CatProgram) (dram : String → ℤ → α) (copy : CatCopy) (index : List ℕ)
    (indexLocal : ℕ) : List (ℤ × α) :=
  (p.moved copy index indexLocal).map fun c =>
    (p.outputDramOffset copy index indexLocal + dot copy.outputDramStrides c,
      dram copy.dramName
        (p.inputDramOffset copy index indexLocal + dot copy.inputDramStrides c))

theorem copyTile_y (p : CatProgram) (dram : String → ℤ → α) (copy : CatCopy) (index : List ℕ)
    (s : CatState α) (indexLocal : ℕ) :
    (p.copyTile dram copy index s indexLocal).y =
      writes Prod.fst Prod.snd (stepWrites p dram copy index indexLocal) s.y := by
  rw [stepWrites, writes_map]
  -- the stored tile is the one that was loaded
  refine writes_congr fun c hc => ?_
  exact writes_of_mem (fun c' _ heq => by rw [← show id c' = c from heq]; rfl) ⟨c, hc, rfl⟩

def allWrites (p : CatProgram) (dram : String → ℤ → α) : List (ℤ × α) :=
  (product (List.zipWith loopRange p.outputSizes p.tileSizes)).flatMap fun index =>
    p.copies.flatMap fun copy =>
      (loopRange copy.extent copy.tileDim).flatMap (stepWrites p dram copy index)

/-- **The kernel is a row of writes.** -/
theorem run_y (p : CatProgram) (dram : String → ℤ → α) (s : CatState α) :
    (p.run dram s).y = writes Prod.fst Prod.snd (allWrites p dram) s.y := by
  apply foldl_writes CatState.y
  intro s index
  apply foldl_writes CatState.y
  intro s copy
  apply foldl_writes CatState.y
  exact fun s indexLocal => copyTile_y p dram copy index s indexLocal

/-- The loops of the kernel: index values for the axes that are not concatenated, an input, and a
place on the concatenated axis; and coordinates in the tile. -/
structure IsStep (t : CatTemplate) (kernel : CatKernel) (tileInfo index : List ℕ)
    (i indexLocal : ℕ) (g : ℕ → ℕ) : Prop where
  input : i < t.numInputs
  index_mem : index ∈
    product (List.zipWith loopRange t.outputSizes (computeExcludedDims tileInfo).2)
  local_mem : indexLocal ∈ loopRange ((t.inputNodes.map t.extent).getD i 0)
    (inputShare t kernel tileInfo i)
  tile : ∀ d ∈ candidateAxes t tileInfo, g d < axisSize t kernel tileInfo i d
  bound : ∀ d ∈ candidateAxes t tileInfo,
    (renderCat t kernel tileInfo).loopValue index indexLocal d + g d <
      if d = t.dim then (t.inputNodes.map t.extent).getD i 0
      else t.outputSizes.getD (tileIdx t.dim d) 0
  outside : ∀ d ∉ candidateAxes t tileInfo, g d = 0

/-- The input of a copy. -/
def inputAt (t : CatTemplate) (i : ℕ) : CatInput := t.inputNodes.getD i t.outputNode

/-- **The writes of the kernel**, each by the coordinates of an element. -/
theorem mem_allWrites {dram : String → ℤ → α} {w : ℤ × α} :
    w ∈ allWrites (renderCat t kernel tileInfo) dram ↔
      ∃ index i indexLocal g, IsStep t kernel tileInfo index i indexLocal g ∧
        w = (elementAddress t.outputNode t.rank fun d =>
            (renderCat t kernel tileInfo).loopValue index (indexLocal + cumulativeOffset t i) d +
              g d,
          dram (inputAt t i).name (elementAddress (inputAt t i) t.rank fun d =>
            (renderCat t kernel tileInfo).loopValue index indexLocal d + g d)) := by
  have hextent : ∀ i, i < t.numInputs →
      t.extent (inputAt t i) = (t.inputNodes.map t.extent).getD i 0 := by
    intro i hi
    rw [inputAt, List.getD_eq_getElem _ _ (by simpa [numInputs] using hi),
      List.getD_eq_getElem _ _ (by simpa [numInputs] using hi), List.getElem_map]
    rfl
  have hcopy : ∀ copy, copy ∈ (renderCat t kernel tileInfo).copies ↔
      ∃ i < t.numInputs, copyOf t kernel tileInfo i (inputAt t i) = copy := by
    intro copy
    rw [copies_renderCat, List.mem_mapIdx]
    constructor
    · rintro ⟨i, hi, rfl⟩
      exact ⟨i, hi, by rw [inputAt, List.getD_eq_getElem _ _ hi]⟩
    · rintro ⟨i, hi, rfl⟩
      exact ⟨i, hi, by rw [inputAt, List.getD_eq_getElem _ _ hi]⟩
  have hpair : ∀ index i indexLocal (g : ℕ → ℕ), (∀ d ∉ candidateAxes t tileInfo, g d = 0) →
      ((renderCat t kernel tileInfo).outputDramOffset (copyOf t kernel tileInfo i (inputAt t i))
          index indexLocal + dot (copyOf t kernel tileInfo i (inputAt t i)).outputDramStrides
            ((candidateAxes t tileInfo).map g),
        dram (copyOf t kernel tileInfo i (inputAt t i)).dramName
          ((renderCat t kernel tileInfo).inputDramOffset
            (copyOf t kernel tileInfo i (inputAt t i)) index indexLocal +
            dot (copyOf t kernel tileInfo i (inputAt t i)).inputDramStrides
              ((candidateAxes t tileInfo).map g))) =
      (elementAddress t.outputNode t.rank fun d =>
          (renderCat t kernel tileInfo).loopValue index (indexLocal + cumulativeOffset t i) d + g d,
        dram (inputAt t i).name (elementAddress (inputAt t i) t.rank fun d =>
          (renderCat t kernel tileInfo).loopValue index indexLocal d + g d)) := by
    intro index i indexLocal g hzero
    congr 1
    · exact tileAddress_eq t.outputNode.stride t.outputNode.offset _ g hzero
    · congr 1
      exact tileAddress_eq (inputAt t i).stride (inputAt t i).offset _ g hzero
  simp only [allWrites, List.mem_flatMap, stepWrites, List.mem_map]
  constructor
  · rintro ⟨index, hindex, copy, hmem, indexLocal, hlocal, c, hc, rfl⟩
    obtain ⟨i, hi, rfl⟩ := (hcopy copy).1 hmem
    obtain ⟨g, rfl, hg, hzero⟩ := mem_moved.1 hc
    refine ⟨index, i, indexLocal, g, ⟨hi, hindex, ?_, fun d hd => (hg d hd).1, fun d hd => ?_,
      hzero⟩, hpair index i indexLocal g hzero⟩
    · rw [← hextent i hi]
      exact hlocal
    · rw [← hextent i hi]
      exact (hg d hd).2
  · rintro ⟨index, i, indexLocal, g, hstep, rfl⟩
    refine ⟨index, hstep.index_mem, _, (hcopy _).2 ⟨i, hstep.input, rfl⟩, indexLocal, ?_,
      (candidateAxes t tileInfo).map g, mem_moved.2 ⟨g, rfl, fun d hd => ⟨hstep.tile d hd, ?_⟩,
        hstep.outside⟩, hpair index i indexLocal g hstep.outside⟩
    · have hlocal := hstep.local_mem
      rw [← hextent i hstep.input] at hlocal
      exact hlocal
    · have hbound := hstep.bound d hd
      rw [← hextent i hstep.input] at hbound
      exact hbound

end Copies

/-! ## Ranges one behind the other -/

section Ranges

variable {l : List ℕ} {c i j : ℕ}

/-- The place lies in range `i`, when ranges of the lengths `l` follow one another. -/
def LiesIn (l : List ℕ) (i c : ℕ) : Prop :=
  (l.take i).sum ≤ c ∧ c < (l.take i).sum + l.getD i 0

theorem sum_take_succ (l : List ℕ) (i : ℕ) :
    (l.take (i + 1)).sum = (l.take i).sum + l.getD i 0 := by
  induction l generalizing i with
  | nil => simp
  | cons n l ih =>
    cases i with
    | zero => simp
    | succ i => rw [List.take_succ_cons, List.sum_cons, ih, List.take_succ_cons, List.sum_cons,
        List.getD_cons_succ, Nat.add_assoc]

theorem sum_take_mono (l : List ℕ) (h : i ≤ j) : (l.take i).sum ≤ (l.take j).sum := by
  induction j, h using Nat.le_induction with
  | base => exact le_rfl
  | succ j _ ih =>
    rw [sum_take_succ]
    omega

/-- Every place lies in a range. -/
theorem exists_liesIn (hc : c < l.sum) : ∃ i < l.length, LiesIn l i c := by
  by_contra hnone
  push Not at hnone
  have hall : ∀ i ≤ l.length, (l.take i).sum ≤ c := by
    intro i hi
    induction i with
    | zero => simp
    | succ i ih =>
      have hle := ih (by omega)
      have hout := hnone i (by omega)
      rw [LiesIn, not_and, not_lt] at hout
      rw [sum_take_succ]
      exact hout hle
  have hsum := hall l.length le_rfl
  rw [List.take_length] at hsum
  omega

/-- A place lies in one range only. -/
theorem liesIn_unique (hi : LiesIn l i c) (hj : LiesIn l j c) : i = j := by
  rcases Nat.lt_trichotomy i j with hlt | heq | hgt
  · have hle := sum_take_mono l (Nat.succ_le_of_lt hlt)
    rw [sum_take_succ] at hle
    exact absurd (hle.trans hj.1) (not_le.2 hi.2)
  · exact heq
  · have hle := sum_take_mono l (Nat.succ_le_of_lt hgt)
    rw [sum_take_succ] at hle
    exact absurd (hle.trans hi.1) (not_le.2 hj.2)

theorem liesIn_lt (hi : LiesIn l i c) : c < l.sum := by
  have hle : (l.take (i + 1)).sum ≤ l.sum := by
    have hmono := sum_take_mono l (le_max_left (i + 1) l.length)
    rwa [List.take_of_length_le (le_max_right (i + 1) l.length)] at hmono
  rw [sum_take_succ] at hle
  exact hi.2.trans_le hle

/-- The values of a loop variable lie below its bound. -/
theorem lt_of_mem_loopRange {size step v : ℕ} (hstep : 0 < step) (hv : v ∈ loopRange size step) :
    v < size := by
  obtain ⟨m, hm, rfl⟩ := List.mem_map.1 hv
  have hnot := mt (ceilDiv_le_iff hstep).2 (not_le.2 (List.mem_range.1 hm))
  omega

/-- The loop reaches the tile of every place. -/
theorem mem_loopRange_of_lt {size step : ℕ} (hstep : 0 < step) (hc : c < size) :
    c / step * step ∈ loopRange size step := by
  refine List.mem_map.2 ⟨c / step, List.mem_range.2 (not_le.1 fun hle => ?_), rfl⟩
  have hcover := (ceilDiv_le_iff hstep).1 hle
  have htile := Nat.div_mul_le_self c step
  omega

end Ranges

/-! ## The boxes of the steps -/

section Boxes

variable {t : CatTemplate} {kernel : CatKernel} {tileInfo : List ℕ} {coord : ℕ → ℕ} {i : ℕ}

/-- Coordinates of an element of the output. -/
def InOutput (t : CatTemplate) (coord : ℕ → ℕ) : Prop :=
  ∀ d < t.rank, coord d < t.outputNode.sizes.getD d 0

/-- The extents of the inputs. -/
def extents (t : CatTemplate) : List ℕ := t.inputNodes.map t.extent

/-- The coordinates in an input of an element of the output. -/
def inputCoord (t : CatTemplate) (i : ℕ) (coord : ℕ → ℕ) (d : ℕ) : ℕ :=
  if d = t.dim then coord d - cumulativeOffset t i else coord d

/-- A concatenation: inputs of positive extents, one behind the other along the concatenated axis,
and an output whose elements have addresses of their own. -/
structure WellFormedCat (t : CatTemplate) : Prop where
  dim_lt : t.dim < t.rank
  extent_pos : ∀ n ∈ extents t, 0 < n
  total : (extents t).sum = t.outputNode.sizes.getD t.dim 0
  sizes_pos : ∀ n ∈ t.outputSizes, 0 < n
  injective : ∀ coord coord', InOutput t coord → InOutput t coord' →
    elementAddress t.outputNode t.rank coord = elementAddress t.outputNode t.rank coord' →
    ∀ d < t.rank, coord d = coord' d

/-- A tile with a positive size for each axis. -/
structure PositiveTile (t : CatTemplate) (tileInfo : List ℕ) : Prop where
  length : t.outputSizes.length ≤ tileInfo.length
  pos : ∀ k < t.outputSizes.length, 0 < (computeExcludedDims tileInfo).2.getD k 0

theorem cumulativeOffset_eq (t : CatTemplate) (i : ℕ) :
    cumulativeOffset t i = ((extents t).take i).sum := by
  rw [cumulativeOffset, extents, List.map_take]

/-- The sizes of the axes that are not concatenated. -/
theorem getD_outputSizes {d : ℕ} (hd : d ≠ t.dim) :
    t.outputSizes.getD (tileIdx t.dim d) 0 = t.outputNode.sizes.getD d 0 := by
  rw [CatTemplate.outputSizes, List.getD_eq_getElem?_getD, List.getD_eq_getElem?_getD,
    List.getElem?_eraseIdx,
    tileIdx]
  rcases Nat.lt_or_gt_of_ne hd with hlt | hgt
  · rw [if_pos hlt, if_pos hlt]
  · rw [if_neg hgt.not_gt, if_neg (by omega), Nat.sub_add_cancel (by omega)]

theorem tileIdx_lt (hdim : t.dim < t.rank) {d : ℕ} (hd : d < t.rank) (hne : d ≠ t.dim) :
    tileIdx t.dim d < t.outputSizes.length := by
  rw [CatTemplate.outputSizes, List.length_eraseIdx_of_lt hdim, tileIdx]
  have hrank : t.outputNode.sizes.length = t.rank := rfl
  split <;> omega

theorem inputShare_pos (hwf : WellFormedCat t) (hi : i < t.numInputs) :
    0 < inputShare t kernel tileInfo i := by
  have hextent : 0 < (t.inputNodes.map t.extent).getD i 0 := by
    rw [List.getD_eq_getElem _ _ (by simpa [numInputs] using hi)]
    exact hwf.extent_pos _ (List.getElem_mem _)
  rw [inputShare, share]
  split <;> omega

/-- The index values of a step, as a function of the axis. -/
theorem mem_index_iff (htile : PositiveTile t tileInfo) {index : List ℕ} :
    index ∈ product (List.zipWith loopRange t.outputSizes (computeExcludedDims tileInfo).2) ↔
      ∃ h : ℕ → ℕ, index = (List.range t.outputSizes.length).map h ∧
        ∀ k < t.outputSizes.length, h k ∈ loopRange (t.outputSizes.getD k 0)
          ((computeExcludedDims tileInfo).2.getD k 0) := by
  have hlen : t.outputSizes.length ≤ (computeExcludedDims tileInfo).2.length := by
    rw [length_computeExcludedDims]
    exact htile.length
  have hranges : List.zipWith loopRange t.outputSizes (computeExcludedDims tileInfo).2 =
      (List.range t.outputSizes.length).map fun k =>
        loopRange (t.outputSizes.getD k 0) ((computeExcludedDims tileInfo).2.getD k 0) := by
    apply List.ext_getElem
    · simp [hlen]
    · intro k hk hk'
      have hk'' : k < t.outputSizes.length := by simpa using hk'
      rw [List.getElem_zipWith, List.getElem_map, List.getElem_range,
        List.getD_eq_getElem _ _ hk'', List.getD_eq_getElem _ _ (hk''.trans_le hlen)]
  rw [hranges, mem_product_map List.nodup_range]
  constructor
  · rintro ⟨h, rfl, hh, -⟩
    exact ⟨h, rfl, fun k hk => hh k (List.mem_range.2 hk)⟩
  · rintro ⟨h, rfl, hh⟩
    refine ⟨fun k => if k < t.outputSizes.length then h k else 0, ?_, ?_, ?_⟩
    · exact List.map_congr_left fun k hk => (if_pos (List.mem_range.1 hk)).symm
    · intro k hk
      have hk' := List.mem_range.1 hk
      simp only [if_pos hk']
      exact hh k hk'
    · intro k hk
      exact if_neg fun hlt => hk (List.mem_range.2 hlt)

theorem loopValue_map (h : ℕ → ℕ) (loc : ℕ) {d : ℕ} (hdim : t.dim < t.rank) (hd : d < t.rank) :
    (renderCat t kernel tileInfo).loopValue ((List.range t.outputSizes.length).map h) loc d =
      if d = t.dim then loc else h (tileIdx t.dim d) := by
  change (if d = t.dim then loc
    else ((List.range t.outputSizes.length).map h).getD (tileIdx t.dim d) 0) = _
  split
  · rfl
  · next hne =>
    have hidx := tileIdx_lt hdim hd hne
    rw [List.getD_eq_getElem _ _ (by simpa using hidx), List.getElem_map, List.getElem_range]

theorem dim_mem_candidateAxes (hdim : t.dim < t.rank) : t.dim ∈ candidateAxes t tileInfo := by
  rw [candidateAxes, List.mem_filter]
  exact ⟨List.mem_range.2 hdim, by simp⟩

/-- An axis that is left out has tiles of size 1. -/
theorem size_of_not_mem_candidateAxes (hdim : t.dim < t.rank) (htile : PositiveTile t tileInfo)
    {d : ℕ} (hd : d < t.rank) (hout : d ∉ candidateAxes t tileInfo) :
    d ≠ t.dim ∧ (computeExcludedDims tileInfo).2.getD (tileIdx t.dim d) 0 = 1 := by
  rw [candidateAxes, List.mem_filter, not_and] at hout
  have hparts := hout (List.mem_range.2 hd)
  rw [decide_eq_true_eq, not_or, not_not] at hparts
  obtain ⟨hne, hmem⟩ := hparts
  exact ⟨hne, getD_of_excluded ((tileIdx_lt hdim hd hne).trans_le htile.length) hmem⟩

/-- **The boxes lie in the output**, in the range of their input. -/
theorem IsStep.bounds (hwf : WellFormedCat t) (htile : PositiveTile t tileInfo)
    {index : List ℕ} {indexLocal : ℕ} {g : ℕ → ℕ}
    (hstep : IsStep t kernel tileInfo index i indexLocal g)
    (hcoord : ∀ d, coord d = (renderCat t kernel tileInfo).loopValue index
      (indexLocal + cumulativeOffset t i) d + g d) :
    InOutput t coord ∧ LiesIn (extents t) i (coord t.dim) ∧
      ∀ d < t.rank, inputCoord t i coord d =
        (renderCat t kernel tileInfo).loopValue index indexLocal d + g d := by
  obtain ⟨h, rfl, hh⟩ := (mem_index_iff htile).1 hstep.index_mem
  have hdim := hwf.dim_lt
  have hconcat := hstep.bound t.dim (dim_mem_candidateAxes hdim)
  rw [loopValue_map h _ hdim hdim, if_pos rfl, if_pos rfl] at hconcat
  have hcoordDim : coord t.dim = indexLocal + cumulativeOffset t i + g t.dim := by
    rw [hcoord, loopValue_map h _ hdim hdim, if_pos rfl]
  have hrange : LiesIn (extents t) i (coord t.dim) := by
    rw [LiesIn, ← cumulativeOffset_eq, hcoordDim, extents]
    omega
  refine ⟨fun d hd => ?_, hrange, fun d hd => ?_⟩
  · by_cases hne : d = t.dim
    · rw [hne, ← hwf.total]
      exact liesIn_lt hrange
    · rw [hcoord, loopValue_map h _ hdim hd, if_neg hne]
      by_cases hmem : d ∈ candidateAxes t tileInfo
      · have hbound := hstep.bound d hmem
        rw [loopValue_map h _ hdim hd, if_neg hne, if_neg hne, getD_outputSizes hne] at hbound
        exact hbound
      · have hidx := tileIdx_lt hdim hd hne
        rw [hstep.outside d hmem, ← getD_outputSizes hne, Nat.add_zero]
        exact lt_of_mem_loopRange (htile.pos _ hidx) (hh _ hidx)
  · rw [loopValue_map h _ hdim hd, inputCoord]
    split
    · next heq =>
      subst heq
      rw [hcoordDim]
      omega
    · next hne => rw [hcoord, loopValue_map h _ hdim hd, if_neg hne]

/-- The axis of the output that the outer loop `k` runs over. -/
def outerAxis (dim k : ℕ) : ℕ := if k < dim then k else k + 1

theorem outerAxis_tileIdx {dim d : ℕ} (hne : d ≠ dim) : outerAxis dim (tileIdx dim d) = d := by
  rw [tileIdx, outerAxis]
  rcases Nat.lt_or_gt_of_ne hne with hlt | hgt
  · rw [if_pos hlt, if_pos hlt]
  · rw [if_neg hgt.not_gt, if_neg (by omega)]
    omega

theorem outerAxis_ne (dim k : ℕ) : outerAxis dim k ≠ dim := by
  rw [outerAxis]
  split <;> omega

theorem tileIdx_outerAxis (dim k : ℕ) : tileIdx dim (outerAxis dim k) = k := by
  rw [outerAxis]
  by_cases hlt : k < dim
  · rw [if_pos hlt, tileIdx, if_pos hlt]
  · rw [if_neg hlt, tileIdx, if_neg (by omega)]
    omega

/-- **The boxes cover the output.** -/
theorem exists_isStep (hwf : WellFormedCat t) (htile : PositiveTile t tileInfo)
    (hin : InOutput t coord) (hi : i < t.numInputs) (hrange : LiesIn (extents t) i (coord t.dim)) :
    ∃ index indexLocal g, IsStep t kernel tileInfo index i indexLocal g ∧
      ∀ d < t.rank, (renderCat t kernel tileInfo).loopValue index
        (indexLocal + cumulativeOffset t i) d + g d = coord d := by
  have hdim := hwf.dim_lt
  have hshare : 0 < inputShare t kernel tileInfo i := inputShare_pos hwf hi
  have haxis : ∀ d, d ≠ t.dim → outerAxis t.dim (tileIdx t.dim d) = d :=
    fun d hne => outerAxis_tileIdx hne
  have haxisLt : ∀ k < t.outputSizes.length, outerAxis t.dim k < t.rank := by
    intro k hk
    rw [CatTemplate.outputSizes, List.length_eraseIdx_of_lt hdim] at hk
    have hrank : t.outputNode.sizes.length = t.rank := rfl
    rw [outerAxis]
    split <;> omega
  let tile (k : ℕ) : ℕ := (computeExcludedDims tileInfo).2.getD k 0
  let h (k : ℕ) : ℕ := coord (outerAxis t.dim k) / tile k * tile k
  let place := coord t.dim - cumulativeOffset t i
  let loc := place / inputShare t kernel tileInfo i * inputShare t kernel tileInfo i
  let g (d : ℕ) : ℕ :=
    if d ∈ candidateAxes t tileInfo then
      coord d - if d = t.dim then loc + cumulativeOffset t i else h (tileIdx t.dim d)
    else 0
  have hplace : place < (t.inputNodes.map t.extent).getD i 0 := by
    have hlow := hrange.1
    have hhigh := hrange.2
    rw [← cumulativeOffset_eq] at hlow hhigh
    rw [extents] at hhigh
    simp only [place]
    omega
  have hlow : cumulativeOffset t i ≤ coord t.dim := by
    rw [cumulativeOffset_eq]
    exact hrange.1
  have hloc : loc ≤ place := Nat.div_mul_le_self _ _
  have hlocLt : place < loc + inputShare t kernel tileInfo i := by
    have hmod := Nat.mod_lt place hshare
    have hsplit := Nat.div_add_mod' place (inputShare t kernel tileInfo i)
    simp only [loc]
    omega
  have hh :
    ∀ k < t.outputSizes.length, h k ≤ coord (outerAxis t.dim k) ∧ coord
      (outerAxis t.dim k) < h k + tile k := by
    intro k hk
    have hmod := Nat.mod_lt (coord (outerAxis t.dim k)) (htile.pos k hk)
    have hsplit := Nat.div_add_mod' (coord (outerAxis t.dim k)) (tile k)
    refine ⟨Nat.div_mul_le_self _ _, ?_⟩
    simp only [h, tile] at hsplit ⊢
    omega
  refine ⟨(List.range t.outputSizes.length).map h, loc, g, ⟨hi, ?_, ?_, ?_, ?_, ?_⟩, ?_⟩
  · refine (mem_index_iff htile).2 ⟨h, rfl, fun k hk => ?_⟩
    have hbelow := hin (outerAxis t.dim k) (haxisLt k hk)
    rw [← getD_outputSizes (outerAxis_ne t.dim k), tileIdx_outerAxis] at hbelow
    exact mem_loopRange_of_lt (htile.pos k hk) hbelow
  · exact mem_loopRange_of_lt hshare hplace
  · intro d hd
    have hdr : d < t.rank := List.mem_range.1 (List.mem_of_mem_filter hd)
    simp only [g, if_pos hd, axisSize]
    by_cases hne : d = t.dim
    · subst hne
      simp only [if_true, place] at hlocLt ⊢
      omega
    · obtain ⟨hle, hlt⟩ := hh _ (tileIdx_lt hdim hdr hne)
      rw [haxis d hne] at hle hlt
      simp only [if_neg hne]
      simp only [tile] at hlt
      omega
  · intro d hd
    have hdr : d < t.rank := List.mem_range.1 (List.mem_of_mem_filter hd)
    rw [loopValue_map h _ hdim hdr]
    simp only [g, if_pos hd]
    by_cases hne : d = t.dim
    · subst hne
      simp only [if_true, place] at hloc hplace ⊢
      omega
    · obtain ⟨hle, -⟩ := hh _ (tileIdx_lt hdim hdr hne)
      rw [haxis d hne] at hle
      simp only [if_neg hne]
      have hbelow := hin d hdr
      rw [← getD_outputSizes hne] at hbelow
      omega
  · exact fun d hd => if_neg hd
  · intro d hd
    rw [loopValue_map h _ hdim hd]
    by_cases hmem : d ∈ candidateAxes t tileInfo
    · simp only [g, if_pos hmem]
      by_cases hne : d = t.dim
      · subst hne
        simp only [if_true, place] at hloc ⊢
        omega
      · obtain ⟨hle, -⟩ := hh _ (tileIdx_lt hdim hd hne)
        rw [haxis d hne] at hle
        simp only [if_neg hne]
        omega
    · obtain ⟨hne, hone⟩ := size_of_not_mem_candidateAxes hdim htile hd hmem
      simp only [g, if_neg hmem, if_neg hne, h, tile, hone, haxis d hne, Nat.div_one, mul_one,
        Nat.add_zero]

end Boxes

/-! ## The types of the buffers -/

section Types

variable {t : CatTemplate} {kernel : CatKernel} {tileInfo : List ℕ}

theorem lookup_map {β : Type} (tile : ℕ → String × β) {l : List ℕ} {name : String}
    (hmem : ∃ j ∈ l, (tile j).1 = name) :
    ∃ j ∈ l, (tile j).1 = name ∧ (l.map tile).lookup name = some (tile j).2 := by
  induction l with
  | nil =>
    obtain ⟨j, hj, -⟩ := hmem
    simp at hj
  | cons j l ih =>
    rw [List.map_cons, List.lookup_cons]
    by_cases hname : (tile j).1 = name
    · refine ⟨j, List.mem_cons_self .., hname, ?_⟩
      rw [show (name == (tile j).1) = true by simp [hname]]
    · have hrest : ∃ j ∈ l, (tile j).1 = name := by
        obtain ⟨j', hj', heq⟩ := hmem
        rcases List.mem_cons.1 hj' with rfl | hj'
        · exact absurd heq hname
        · exact ⟨j', hj', heq⟩
      obtain ⟨j', hj', heq, hlookup⟩ := ih hrest
      refine ⟨j', List.mem_cons_of_mem j hj', heq, ?_⟩
      rw [show (name == (tile j).1) = false by simpa using fun h : name = _ => hname h.symm]
      exact hlookup

/-- The tiles of inputs with one name have the same extent along the concatenated axis. -/
def SharedTilesAgree (t : CatTemplate) (kernel : CatKernel) (tileInfo : List ℕ) : Prop :=
  ∀ i < t.numInputs, ∀ j < t.numInputs, (inputAt t i).name = (inputAt t j).name →
    inputShare t kernel tileInfo i = inputShare t kernel tileInfo j

theorem getD_inputNames {i : ℕ} (hi : i < t.numInputs) :
    (inputNames t).getD i "" = (inputAt t i).name := by
  rw [inputNames, inputAt, List.getD_eq_getElem _ _ (by simpa [numInputs] using hi),
    List.getD_eq_getElem _ _ (by simpa [numInputs] using hi), List.getElem_map]
  rfl

/-- The declared type of the buffer of an input is that of some input of its name. -/
theorem lookup_buffers {i : ℕ} (hi : i < t.numInputs) :
    ∃ j < t.numInputs, (inputAt t j).name = (inputAt t i).name ∧
      (renderCat t kernel tileInfo).buffers.lookup (inputAt t i).name =
        some (inputTileShape t kernel tileInfo j) := by
  have hbuffers : (renderCat t kernel tileInfo).buffers =
      ((List.range t.numInputs).filter fun i => ∀ j < i,
        (inputNames t).getD j "" ≠ (inputNames t).getD i "").map fun i =>
          ((inputNames t).getD i "", inputTileShape t kernel tileInfo i) := by
    change uniqueTileDescs (t.inputTiles kernel tileInfo) = _
    rw [inputTiles_eq, uniqueTileDescs_range]
  have hexists : ∃ j, (inputNames t).getD j "" = (inputNames t).getD i "" := ⟨i, rfl⟩
  have hfind := Nat.find_spec hexists
  have hle : Nat.find hexists ≤ i := Nat.find_min' hexists rfl
  have hmem : ∃ j ∈ (List.range t.numInputs).filter fun i => ∀ j < i,
      (inputNames t).getD j "" ≠ (inputNames t).getD i "",
        (inputNames t).getD j "" = (inputAt t i).name := by
    refine ⟨Nat.find hexists, List.mem_filter.2 ⟨List.mem_range.2 (hle.trans_lt hi), ?_⟩,
      hfind.trans (getD_inputNames hi)⟩
    rw [decide_eq_true_eq]
    intro j hj hsame
    exact Nat.find_min hexists hj (hsame.trans hfind)
  obtain ⟨j, hj, hname, hlookup⟩ := lookup_map
    (fun i => ((inputNames t).getD i "", inputTileShape t kernel tileInfo i)) hmem
  have hjn : j < t.numInputs := List.mem_range.1 (List.mem_of_mem_filter hj)
  refine ⟨j, hjn, ?_, ?_⟩
  · rw [← getD_inputNames hjn]
    exact hname
  · rw [hbuffers]
    exact hlookup

theorem inputTileShape_eq_iff (hdim : t.dim < t.rank) {i j : ℕ} :
    inputTileShape t kernel tileInfo i = inputTileShape t kernel tileInfo j ↔
      inputShare t kernel tileInfo i = inputShare t kernel tileInfo j := by
  constructor
  · intro h
    rw [inputTileShape_eq, inputTileShape_eq] at h
    have hsize := List.map_inj_left.1 h t.dim (dim_mem_candidateAxes hdim)
    simpa only [axisSize, if_true] using hsize
  · intro h
    rw [inputTileShape, inputTileShape, h]

/-- **When the kernel is accepted.** -/
theorem wellTyped_iff (hdim : t.dim < t.rank) :
    (renderCat t kernel tileInfo).wellTyped = true ↔ SharedTilesAgree t kernel tileInfo := by
  have hall : (renderCat t kernel tileInfo).wellTyped = true ↔ ∀ i < t.numInputs,
      (renderCat t kernel tileInfo).buffers.lookup (inputAt t i).name =
        some (inputTileShape t kernel tileInfo i) := by
    rw [wellTyped, copies_renderCat, List.all_eq_true]
    simp only [List.mem_mapIdx, decide_eq_true_eq]
    constructor
    · intro h i hi
      have hcopy := h (copyOf t kernel tileInfo i t.inputNodes[i]) ⟨i, hi, rfl⟩
      rw [inputAt, List.getD_eq_getElem _ _ hi]
      exact hcopy
    · rintro h copy ⟨i, hi, rfl⟩
      have hlookup := h i hi
      rw [inputAt, List.getD_eq_getElem _ _ hi] at hlookup
      exact hlookup
  rw [hall]
  constructor
  · intro h i hi j hj hname
    have hsame := (h i hi).symm.trans (hname ▸ h j hj)
    exact (inputTileShape_eq_iff hdim).1 (Option.some.inj hsame)
  · intro h i hi
    obtain ⟨j, hj, hname, hlookup⟩ := lookup_buffers hi
    rw [hlookup, (inputTileShape_eq_iff hdim).2 (h j hj i hi hname)]

end Types

/-! ## The tiles that are returned -/

section Candidates

variable {t : CatTemplate} {kernel : CatKernel} {tileInfo : List ℕ}

theorem pos_computeExcludedDims (hpos : ∀ n ∈ tileInfo, 0 < n) {k : ℕ} (hk : k < tileInfo.length) :
    0 < (computeExcludedDims tileInfo).2.getD k 0 := by
  have hentry : 0 < tileInfo.getD k 0 := by
    rw [List.getD_eq_getElem _ _ hk]
    exact hpos _ (List.getElem_mem hk)
  rw [computeExcludedDims]
  split
  · exact hentry
  · rw [getD_foldl_set_one _ _ _ hk]
    split
    · exact Nat.one_pos
    · exact hentry

/-- Every tile that is returned has positive sizes. -/
theorem positiveTile_of_candidate (hlanes : 0 < kernel.vectorLane)
    (hsizes : ∀ n ∈ t.outputSizes, 0 < n) {tiles : List (List ℕ)}
    (hcand : t.getTileCandidates kernel = .ok tiles) (htile : tileInfo ∈ tiles) :
    PositiveTile t tileInfo := by
  have hparts : t.outputSizes.length ≤ tileInfo.length ∧ ∀ n ∈ tileInfo, 0 < n := by
    rw [getTileCandidates] at hcand
    split at hcand
    · cases hcand
    · split at hcand
      · next hrank =>
        cases hcand
        rw [List.mem_singleton.1 htile, hrank]
        exact ⟨by simp, by simp⟩
      · cases hcand
        have hmem := (List.mem_insertionSort _).1 (List.mem_of_mem_take htile)
        split at hmem
        · rw [List.mem_singleton.1 hmem]
          exact ⟨by simp, fun n hn => by rw [List.eq_of_mem_replicate hn]; exact Nat.one_pos⟩
        · obtain ⟨hlen, hpos, -⟩ := of_mem_fittingTiles hlanes hsizes hmem
          exact ⟨hlen.ge, hpos⟩
  exact ⟨hparts.1, fun k hk => pos_computeExcludedDims hparts.2 (hk.trans_le hparts.1)⟩

end Candidates

/-! ## The kernel -/

section Kernel

variable {t : CatTemplate} {kernel : CatKernel} {tileInfo : List ℕ}

/-- The kernel is accepted, and after it the output holds at every coordinate the element of the
input whose range the coordinate lies in, and nothing else of the memory has changed. -/
def CatExact (α : Type) (t : CatTemplate) (kernel : CatKernel) (tileInfo : List ℕ) : Prop :=
  (renderCat t kernel tileInfo).wellTyped = true ∧
    ∀ (dram : String → ℤ → α) (s : CatState α),
      (∀ coord, InOutput t coord → ∃ i < t.numInputs, LiesIn (extents t) i (coord t.dim) ∧
        ((renderCat t kernel tileInfo).run dram s).y
            (elementAddress t.outputNode t.rank coord) =
          dram (inputAt t i).name
            (elementAddress (inputAt t i) t.rank (inputCoord t i coord))) ∧
      ∀ a, (∀ coord, InOutput t coord → elementAddress t.outputNode t.rank coord ≠ a) →
        ((renderCat t kernel tileInfo).run dram s).y a = s.y a

/-- **The copies are exact**, in a kernel that is accepted. -/
theorem run_exact {α : Type} (hwf : WellFormedCat t) (htile : PositiveTile t tileInfo)
    (dram : String → ℤ → α) (s : CatState α) :
    (∀ coord, InOutput t coord → ∃ i < t.numInputs, LiesIn (extents t) i (coord t.dim) ∧
      ((renderCat t kernel tileInfo).run dram s).y (elementAddress t.outputNode t.rank coord) =
        dram (inputAt t i).name (elementAddress (inputAt t i) t.rank (inputCoord t i coord))) ∧
    ∀ a, (∀ coord, InOutput t coord → elementAddress t.outputNode t.rank coord ≠ a) →
      ((renderCat t kernel tileInfo).run dram s).y a = s.y a := by
  have hdim := hwf.dim_lt
  rw [run_y]
  constructor
  · intro coord hin
    have hplace : coord t.dim < (extents t).sum := by
      rw [hwf.total]
      exact hin t.dim hdim
    obtain ⟨i, hi, hrange⟩ := exists_liesIn hplace
    have hi' : i < t.numInputs := by simpa [extents, numInputs] using hi
    refine ⟨i, hi', hrange, writes_of_mem ?_ ?_⟩
    · intro w hw hkey
      obtain ⟨index, j, indexLocal, g, hstep, rfl⟩ := mem_allWrites.1 hw
      obtain ⟨hin', hrange', hinput⟩ := hstep.bounds hwf htile (fun _ => rfl)
      -- the write is to the same element, so it is from the same input
      have hsame := hwf.injective _ _ hin' hin hkey
      rw [hsame t.dim hdim] at hrange'
      have hij : j = i := liesIn_unique hrange' hrange
      subst hij
      change dram (inputAt t j).name _ = dram (inputAt t j).name _
      congr 1
      apply elementAddress_congr
      intro d hd
      rw [← hinput d hd, inputCoord, inputCoord, hsame d hd]
    · have hbox : ∃ index indexLocal g, IsStep t kernel tileInfo index i indexLocal g ∧
          ∀ d < t.rank, (renderCat t kernel tileInfo).loopValue index
            (indexLocal + cumulativeOffset t i) d + g d = coord d :=
        exists_isStep hwf htile hin hi' hrange
      obtain ⟨index, indexLocal, g, hstep, hcoord⟩ := hbox
      refine ⟨_, mem_allWrites.2 ⟨index, i, indexLocal, g, hstep, rfl⟩, ?_⟩
      exact elementAddress_congr hcoord
  · intro a hout
    apply writes_of_not_mem
    intro w hw
    obtain ⟨index, j, indexLocal, g, hstep, rfl⟩ := mem_allWrites.1 hw
    exact hout _ (hstep.bounds hwf htile (fun _ => rfl)).1

/-- **When the concatenation kernel is exact**: for every tile that is returned, exactly if the
tiles of inputs with one name have the same extent along the concatenated axis. -/
theorem catKernel_exact_iff {α : Type} (hwf : WellFormedCat t) (hlanes : 0 < kernel.vectorLane)
    {tiles : List (List ℕ)} (hcand : t.getTileCandidates kernel = .ok tiles)
    (htile : tileInfo ∈ tiles) :
    CatExact α t kernel tileInfo ↔ SharedTilesAgree t kernel tileInfo := by
  have hpositive := positiveTile_of_candidate hlanes hwf.sizes_pos hcand htile
  rw [CatExact, wellTyped_iff hwf.dim_lt]
  constructor
  · exact fun h => h.1
  · exact fun h => ⟨h, fun dram s => run_exact hwf hpositive dram s⟩

/-- Two matrices side by side. -/
def sideBySide (name name' : String) (rows cols cols' : ℕ) : CatTemplate where
  inputNodes := [⟨name, ⟨"f32", 4⟩, [rows, cols], [cols, 1], 0⟩,
    ⟨name', ⟨"f32", 4⟩, [rows, cols'], [cols', 1], 0⟩]
  outputNode := ⟨"buf2", ⟨"f32", 4⟩, [rows, cols + cols'], [cols + cols', 1], 0⟩
  dim := 1

theorem sideBySide_wellFormed {name name' : String} {rows cols cols' : ℕ} (hrows : 0 < rows)
    (hcols : 0 < cols) (hcols' : 0 < cols') :
    WellFormedCat (sideBySide name name' rows cols cols') := by
  refine ⟨Nat.one_lt_two, ?_, ?_, ?_, ?_⟩
  · simp [extents, sideBySide, CatTemplate.extent, hcols, hcols']
  · simp [extents, sideBySide, CatTemplate.extent]
  · simp [CatTemplate.outputSizes, sideBySide, hrows]
  · intro coord coord' hin hin' hsame d hd
    have hcol : coord 1 < cols + cols' := hin 1 Nat.one_lt_two
    have hcol' : coord' 1 < cols + cols' := hin' 1 Nat.one_lt_two
    have hplace : (cols + cols') * coord 0 + coord 1 = (cols + cols') * coord' 0 + coord' 1 := by
      have haddress : ((cols + cols' : ℕ) : ℤ) * coord 0 + coord 1 =
          ((cols + cols' : ℕ) : ℤ) * coord' 0 + coord' 1 := by
        simpa [elementAddress, CatTemplate.rank, sideBySide, List.range,
          List.range.loop] using hsame
      exact_mod_cast haddress
    have hrow : coord 0 = coord' 0 := by
      have hdiv := congrArg (· / (cols + cols')) hplace
      simpa [Nat.mul_add_div (show 0 < cols + cols' by omega), Nat.div_eq_of_lt hcol,
        Nat.div_eq_of_lt hcol'] using hdiv
    rw [hrow] at hplace
    have hd' : d < 2 := hd
    rcases Nat.lt_or_ge d 1 with hzero | hone
    · rw [Nat.lt_one_iff.1 hzero, hrow]
    · rw [show d = 1 by omega]
      omega

theorem catKernel_exact_iff_sideBySide :
    CatExact ℕ (sideBySide "buf0" "buf1" 2 3 1) ⟨4, 64⟩ [2] ↔
      SharedTilesAgree (sideBySide "buf0" "buf1" 2 3 1) ⟨4, 64⟩ [2] :=
  catKernel_exact_iff (sideBySide_wellFormed (by decide) (by decide) (by decide)) (by decide)
    (show _ = Except.ok [[2], [1]] by decide +kernel) (by decide)

/-- A matrix next to itself: the second tile is shorter than the first, and the buffer has the type
of the first. -/
theorem not_catExact_sameInput :
    ∃ tiles, (sideBySide "buf0" "buf0" 16 100000 100000).getTileCandidates ⟨128, 131072⟩ =
        .ok tiles ∧ [16] ∈ tiles ∧
      WellFormedCat (sideBySide "buf0" "buf0" 16 100000 100000) ∧
      ¬ CatExact ℕ (sideBySide "buf0" "buf0" 16 100000 100000) ⟨128, 131072⟩ [16] := by
  refine ⟨[[16], [8], [4], [2]], by decide +kernel, by decide,
    sideBySide_wellFormed (by decide) (by decide) (by decide), fun h => ?_⟩
  have htyped := h.1
  revert htyped
  decide +kernel

end Kernel

end PyTorchSim.Analysis
