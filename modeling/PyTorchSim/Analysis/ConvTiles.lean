import Mathlib.Tactic.Ring
import PyTorchSim.Frontend.ConvTemplates
import PyTorchSim.Library.CeilDiv
import PyTorchSim.Library.RowMajor
import PyTorchSim.Library.TiledLoops
import PyTorchSim.Library.Writes

/-!
# The tiles of a convolution

The tiles are stacks of matrices whose columns go round the lanes.  Where the lanes share the
columns evenly, a tile lies in the lanes as the views of the matrices expect it: the rows of a
column one behind the other, then the columns of a lane, then the matrices.

In any program whose views of the output do not overlap, the accumulation loops add to an element of
a tile the products of the views that belong to it, and the kernel is a row of writes of finished
tiles.
-/

set_option autoImplicit false

namespace PyTorchSim.Analysis

open Finset Frontend Frontend.CatProgram Library
open PyTorchSim.Model (getSpadSizePerLane)

/-! ## Shared columns -/

/-- The number of columns in a lane. -/
def perLane (vectorLane size : ℕ) : ℕ := (size + vectorLane - 1) / vectorLane

/-- The lanes share the columns evenly, or each has at most one. -/
structure LaneShaped (vectorLane size : ℕ) : Prop where
  lanes_pos : 0 < vectorLane
  pos : 0 < size
  shared : size ≤ vectorLane ∨ vectorLane ∣ size

namespace LaneShaped

variable {vectorLane size : ℕ} (h : LaneShaped vectorLane size)
include h

theorem perLane_cases : size ≤ vectorLane ∧ perLane vectorLane size = 1 ∨
    size = perLane vectorLane size * vectorLane := by
  have hlanes := h.lanes_pos
  have hpos := h.pos
  rcases h.shared with hle | ⟨q, hq⟩
  · left
    refine ⟨hle, ?_⟩
    unfold perLane
    apply Nat.div_eq_of_lt_le <;> omega
  · right
    have hsize : perLane vectorLane size = q := by
      unfold perLane
      rw [hq, Nat.add_sub_assoc hlanes, Nat.mul_add_div hlanes,
        Nat.div_eq_of_lt (Nat.sub_lt hlanes Nat.one_pos), Nat.add_zero]
    rw [hsize, Nat.mul_comm, hq]

theorem perLane_pos : 0 < perLane vectorLane size := by
  have hpos := h.pos
  rcases h.perLane_cases with ⟨-, hone⟩ | heq
  · omega
  · exact Nat.pos_of_mul_pos_right (heq ▸ hpos)

theorem div_lt {j : ℕ} (hj : j < size) : j / vectorLane < perLane vectorLane size := by
  rcases h.perLane_cases with ⟨hle, hone⟩ | heq
  · rw [hone, Nat.div_eq_of_lt (by omega)]
    exact Nat.one_pos
  · rw [Nat.div_lt_iff_lt_mul h.lanes_pos, ← heq]
    exact hj

/-- The columns of the lanes that are used. -/
theorem ceilDiv_used : size ⌈/⌉ min (size ⌈/⌉ 1) vectorLane = perLane vectorLane size := by
  have hone : size ⌈/⌉ 1 = size := by simp
  have hpos := h.pos
  rw [hone]
  rcases h.perLane_cases with ⟨hle, heq⟩ | heq
  · rw [Nat.min_eq_left hle, heq]
    simpa using mul_ceilDiv_self (k := 1) hpos
  · have hlanes := h.lanes_pos
    have hperLane := h.perLane_pos
    have hle : vectorLane ≤ size := by
      rw [heq]
      exact Nat.le_mul_of_pos_left _ hperLane
    rw [Nat.min_eq_right hle]
    exact Nat.ceilDiv_eq_add_pred_div ..

theorem div_perLane_mul : size / perLane vectorLane size * perLane vectorLane size = size := by
  rcases h.perLane_cases with ⟨-, hone⟩ | heq
  · simp [hone]
  · rw [Nat.div_mul_cancel]
    exact ⟨vectorLane, heq⟩

/-- The stride of a matrix in a lane. -/
theorem laneStride {rows : ℕ} (hrows : 0 < rows) (count : ℕ) :
    (if rows < count * rows * size then
        count * rows * size / (size / perLane vectorLane size)
      else count * rows * size) = count * rows * perLane vectorLane size := by
  have hdiv := h.div_perLane_mul
  have hperLane := h.perLane_pos
  have hpos := h.pos
  split_ifs with hlt
  · have hcoeff : 0 < size / perLane vectorLane size := by
      by_contra hzero
      rw [Nat.eq_zero_of_not_pos hzero, Nat.zero_mul] at hdiv
      omega
    calc
      count * rows * size / (size / perLane vectorLane size) =
          count * rows * perLane vectorLane size * (size / perLane vectorLane size) /
            (size / perLane vectorLane size) := by
        rw [Nat.mul_assoc (count * rows), Nat.mul_comm (perLane vectorLane size), hdiv]
      _ = count * rows * perLane vectorLane size := Nat.mul_div_cancel _ hcoeff
  · have hle : count * size ≤ 1 := by
      have hle : count * size * rows ≤ 1 * rows := by
        calc
          count * size * rows = count * rows * size := by ring
          _ ≤ 1 * rows := by omega
      exact Nat.le_of_mul_le_mul_right hle hrows
    rcases Nat.eq_zero_or_pos count with hzero | hcount
    · simp [hzero]
    · have hone : size = 1 := by
        have : size ≤ count * size := Nat.le_mul_of_pos_left _ hcount
        omega
      rw [hone] at hdiv ⊢
      rw [Nat.eq_one_of_dvd_one (Dvd.intro_left _ hdiv)]

end LaneShaped

/-! ## Stacks of matrices -/

/-- The lane and the place of an element of the matrix `(a, b)` of a stack of matrices with `rows`
rows and `size` columns. -/
def planePlace (vectorLane rows size width a b i j : ℕ) : ℕ × ℕ :=
  (j % vectorLane,
    ((a * width + b) * perLane vectorLane size + j / vectorLane) * rows + i)

/-- The digits of a number. -/
theorem digits_unique {n x y i i' : ℕ} (hi : i < n) (hi' : i' < n)
    (heq : x * n + i = y * n + i') : x = y ∧ i = i' := by
  have hn : 0 < n := by omega
  have hquotient := congrArg (· / n) heq
  have hrest := congrArg (· % n) heq
  simp only [Nat.mul_comm _ n, Nat.mul_add_div hn, Nat.mul_add_mod, Nat.div_eq_of_lt hi,
    Nat.div_eq_of_lt hi', Nat.mod_eq_of_lt hi, Nat.mod_eq_of_lt hi', Nat.add_zero]
    at hquotient hrest
  exact ⟨hquotient, hrest⟩

/-- The first digit of a number below a multiple. -/
theorem digits_lt_iff {rows columns x y i q : ℕ} (hi : i < rows) (hq : q < columns) :
    (x * columns + q) * rows + i < y * (columns * rows) ↔ x < y := by
  have hrows : 0 < rows := by omega
  have hcolumns : 0 < columns := by omega
  rw [← Nat.div_lt_iff_lt_mul (Nat.mul_pos hcolumns hrows), Nat.mul_comm columns rows,
    ← Nat.div_div_eq_div_mul, Nat.mul_comm _ rows, Nat.mul_add_div hrows, Nat.div_eq_of_lt hi,
    Nat.add_zero, Nat.mul_comm x, Nat.mul_add_div hcolumns, Nat.div_eq_of_lt hq, Nat.add_zero]

/-- No two elements of a stack share a place. -/
theorem planePlace_inj {vectorLane rows size width a b i j a' b' i' j' : ℕ}
    (h : LaneShaped vectorLane size) (hb : b < width) (hi : i < rows) (hj : j < size)
    (hb' : b' < width) (hi' : i' < rows) (hj' : j' < size)
    (heq : planePlace vectorLane rows size width a b i j =
      planePlace vectorLane rows size width a' b' i' j') :
    a = a' ∧ b = b' ∧ i = i' ∧ j = j' := by
  obtain ⟨hlane, hplace⟩ := Prod.mk.inj heq
  obtain ⟨hcolumns, hrow⟩ := digits_unique hi hi' hplace
  obtain ⟨hmatrix, hslot⟩ := digits_unique (h.div_lt hj) (h.div_lt hj') hcolumns
  obtain ⟨hfirst, hsecond⟩ := digits_unique hb hb' hmatrix
  refine ⟨hfirst, hsecond, hrow, ?_⟩
  rw [← Nat.div_add_mod j vectorLane, ← Nat.div_add_mod j' vectorLane, hlane, hslot]

/-- The space of matrices in a lane: at least two elements, as the source has it. -/
theorem getSpadSizePerLane_mul {vectorLane rows size count : ℕ} (h : LaneShaped vectorLane size)
    (hrows : 2 ≤ rows) (hcount : 0 < count) :
    getSpadSizePerLane vectorLane (count * rows) size =
      count * (perLane vectorLane size * rows) := by
  have hperLane := h.perLane_pos
  have hle : 2 ≤ count * (perLane vectorLane size * rows) := by
    calc
      2 ≤ rows := hrows
      _ ≤ perLane vectorLane size * rows := Nat.le_mul_of_pos_left _ hperLane
      _ ≤ count * (perLane vectorLane size * rows) := Nat.le_mul_of_pos_left _ hcount
  unfold getSpadSizePerLane
  rw [show count * rows * ((size + vectorLane - 1) / vectorLane) =
    count * (perLane vectorLane size * rows) by unfold perLane; ring]
  exact Nat.max_eq_left hle

/-- **A view of a matrix of a stack**: the offset maps of the templates lead to the matrix. -/
theorem viewPlace_eq {vectorLane rows size width : ℕ} (h : LaneShaped vectorLane size)
    (hrows : 2 ≤ rows) (hwidth : 0 < width) (a b i j : ℕ) :
    viewPlace vectorLane rows
        (getSpadSizePerLane vectorLane (width * rows) size * a +
          getSpadSizePerLane vectorLane rows size * b) i j =
      planePlace vectorLane rows size width a b i j := by
  have hone := getSpadSizePerLane_mul h hrows Nat.one_pos
  rw [Nat.one_mul] at hone
  rw [getSpadSizePerLane_mul h hrows hwidth, hone]
  unfold viewPlace planePlace
  congr 1
  ring

/-- **The place of an element** in a tile whose last axis goes round the lanes. -/
theorem place_matrices {vectorLane rows size height width : ℕ} (h : LaneShaped vectorLane size)
    (hrows : 0 < rows) (indexList : List ConvTerm) (offset a b i j : ℕ) :
    ConvDma.place ⟨[height, width, rows, size],
        [width * rows * size, rows * size, 1, rows], 3, indexList, offset⟩ vectorLane [a, b, i, j] =
      planePlace vectorLane rows size width a b i j := by
  have houter := h.laneStride hrows width
  have hinner := h.laneStride hrows 1
  rw [Nat.one_mul] at hinner
  have hrow : ¬ rows < 1 := by omega
  simp only [ConvDma.place, VectorLaneMapping.getTileStridePerLane,
    VectorLaneMapping.getTileSizePerLane, VectorLaneMapping.getUsedVlane, List.getD_cons_succ,
    List.getD_cons_zero, List.set_cons_succ, List.set_cons_zero, List.map_cons, List.map_nil,
    h.ceilDiv_used, houter, hinner, hrow, lt_irrefl, if_false, List.zipWith_cons_cons,
    List.zipWith_nil_right, List.sum_cons, List.sum_nil]
  unfold planePlace
  congr 1
  ring

/-- The place of an element of a tile of the output. -/
theorem place_output {vectorLane rows size height width : ℕ} (h : LaneShaped vectorLane size)
    (hrows : 0 < rows) (indexList : List ConvTerm) (offset a b i j : ℕ) :
    ConvDma.place ⟨[rows, size, height, width],
        [1, rows, width * rows * size, rows * size], 1, indexList, offset⟩ vectorLane [i, j, a, b] =
      planePlace vectorLane rows size width a b i j := by
  have houter := h.laneStride hrows width
  have hinner := h.laneStride hrows 1
  rw [Nat.one_mul] at hinner
  have hrow : ¬ rows < 1 := by omega
  simp only [ConvDma.place, VectorLaneMapping.getTileStridePerLane,
    VectorLaneMapping.getTileSizePerLane, VectorLaneMapping.getUsedVlane, List.getD_cons_succ,
    List.getD_cons_zero, List.set_cons_succ, List.set_cons_zero, List.map_cons, List.map_nil,
    h.ceilDiv_used, houter, hinner, hrow, lt_irrefl, if_false, List.zipWith_cons_cons,
    List.zipWith_nil_right, List.sum_cons, List.sum_nil]
  unfold planePlace
  congr 1
  ring

/-- The place of an element of a tile of the output of a single batch. -/
theorem place_singleBatchOutput {vectorLane rows size height : ℕ} (h : LaneShaped vectorLane size)
    (hrows : 0 < rows) (indexList : List ConvTerm) (offset a i j : ℕ) :
    ConvDma.place ⟨[1, size, height, rows],
        [height * rows * size, rows, rows * size, 1], 1, indexList, offset⟩ vectorLane
          [0, j, a, i] =
      planePlace vectorLane rows size 1 a 0 i j := by
  have hinner := h.laneStride hrows 1
  rw [Nat.one_mul] at hinner
  have hrow : ¬ rows < 1 := by omega
  simp only [ConvDma.place, VectorLaneMapping.getTileStridePerLane,
    VectorLaneMapping.getTileSizePerLane, VectorLaneMapping.getUsedVlane, List.getD_cons_succ,
    List.getD_cons_zero, List.set_cons_succ, List.set_cons_zero, List.map_cons, List.map_nil,
    h.ceilDiv_used, hinner, hrow, lt_irrefl, if_false, List.zipWith_cons_cons,
    List.zipWith_nil_right, List.sum_cons, List.sum_nil, Nat.mul_zero]
  unfold planePlace
  congr 1
  ring

/-! ## Loop nests -/

section Nests

variable {σ R : Type}

/-- The sum over the turns of a nest of loops. -/
def nestSum [AddCommMonoid R] (f : ConvIndex → R) : List ConvLoop → ConvIndex → R
  | [], index => f index
  | loop :: loops, index => ∑ q ∈ range (loop.bound ⌈/⌉ loop.step),
      nestSum f loops (Function.update index loop.var (q * loop.step))

theorem nestSum_zero [AddCommMonoid R] (loops : List ConvLoop) (index : ConvIndex) :
    nestSum (fun _ => (0 : R)) loops index = 0 := by
  induction loops generalizing index with
  | nil => rfl
  | cons loop loops ih => simp [nestSum, ih]

/-- The values of the variables in the turns of a nest of loops. -/
def nestPoints : List ConvLoop → ConvIndex → List ConvIndex
  | [], index => [index]
  | loop :: loops, index => (loopRange loop.bound loop.step).flatMap fun v =>
      nestPoints loops (Function.update index loop.var v)

/-- A nest leaves the variables alone that are not its own. -/
theorem apply_of_mem_nestPoints {var : ConvVar} {loops : List ConvLoop}
    (hvar : ∀ loop ∈ loops, var ≠ loop.var) {index point : ConvIndex}
    (hpoint : point ∈ nestPoints loops index) : point var = index var := by
  induction loops generalizing index with
  | nil =>
      rw [nestPoints, List.mem_singleton] at hpoint
      rw [hpoint]
  | cons loop loops ih =>
      rw [List.forall_mem_cons] at hvar
      rw [nestPoints, List.mem_flatMap] at hpoint
      obtain ⟨v, -, hpoint⟩ := hpoint
      rw [ih hvar.2 hpoint, Function.update_of_ne hvar.1]

/-- **A nest whose body adds** to what is seen of a state. -/
theorem runLoops_add [AddCommMonoid R] (view : σ → R) (body : ConvIndex → σ → σ)
    (f : ConvIndex → R) (loops : List ConvLoop) (index : ConvIndex) (s : σ)
    (hbody : ∀ point ∈ nestPoints loops index, ∀ s, view (body point s) = view s + f point) :
    view (runLoops body loops index s) = view s + nestSum f loops index := by
  induction loops generalizing index s with
  | nil => exact hbody index (List.mem_singleton_self index) s
  | cons loop loops ih =>
      rw [runLoops, loopRange, List.foldl_map]
      apply foldl_range_add view
      intro s q hq
      apply ih
      intro point hpoint
      apply hbody
      refine List.mem_flatMap.mpr ⟨q * loop.step, ?_, hpoint⟩
      exact List.mem_map_of_mem (List.mem_range.mpr hq)

/-- What the body keeps, the nest keeps. -/
theorem runLoops_keeps {β : Type} (view : σ → β) (body : ConvIndex → σ → σ)
    (hbody : ∀ index s, view (body index s) = view s) (loops : List ConvLoop) (index : ConvIndex)
    (s : σ) : view (runLoops body loops index s) = view s := by
  induction loops generalizing index s with
  | nil => exact hbody index s
  | cons loop loops ih =>
      rw [runLoops]
      generalize loopRange loop.bound loop.step = values
      induction values generalizing s with
      | nil => rfl
      | cons v values ihv => rw [List.foldl_cons, ihv, ih]

/-- The nest is a loop over its points. -/
theorem runLoops_eq_foldl (body : ConvIndex → σ → σ) (loops : List ConvLoop) (index : ConvIndex)
    (s : σ) :
    runLoops body loops index s =
      (nestPoints loops index).foldl (fun s point => body point s) s := by
  induction loops generalizing index s with
  | nil => rfl
  | cons loop loops ih =>
      rw [runLoops, nestPoints, List.foldl_flatMap]
      simp only [ih]

end Nests

namespace ConvProgram

variable {R : Type} [Semiring R] (p : ConvProgram)

/-! ## Loads -/

/-- What a load leaves at the place of an element, in a tile without shared places. -/
theorem load_place (t : ConvDma) (dram : ℕ → R) (index : ConvIndex) (buffer : ℕ × ℕ → R)
    {c : List ℕ} (hc : c ∈ t.coordinates)
    (hplaces : ∀ c' ∈ t.coordinates, t.place p.vectorLane c' = t.place p.vectorLane c → c' = c) :
    p.load t dram index buffer (t.place p.vectorLane c) =
      if p.inBounds t index c then dram (t.address index c) else 0 := by
  change writes (t.place p.vectorLane) _ t.coordinates buffer _ = _
  apply writes_of_mem
  · intro c' hc' hplace
    rw [hplaces c' hc' hplace]
  · exact ⟨c, hc, rfl⟩

/-! ## Products of views -/

/-- The place of an element of a tile of the output. -/
def cell (tileOH tileOW i j : ℕ) : ℕ × ℕ :=
  viewPlace p.vectorLane p.tileM (p.viewY tileOH tileOW) i j

/-- An element of a product of two views. -/
def viewDot (x w : ℕ × ℕ → R) (tileOH tileOW tileKH tileKW i j : ℕ) : R :=
  ∑ k ∈ range p.tileK,
    x (viewPlace p.vectorLane p.tileM (p.viewX tileOH tileOW tileKH tileKW) i k) *
      w (viewPlace p.vectorLane p.tileK (p.viewW tileKH tileKW) k j)

/-- The views of the output do not overlap. -/
def CellsDistinct : Prop :=
  ∀ a b i j a' b' i' j', a < p.tileOH → b < p.tileOW → i < p.tileM → j < p.tileN →
    a' < p.tileOH → b' < p.tileOW → i' < p.tileM → j' < p.tileN →
    cell p a b i j = cell p a' b' i' j' → a = a' ∧ b = b' ∧ i = i' ∧ j = j'

theorem matmul_apply (x w y : ℕ × ℕ → R) (offsetX offsetW offsetY : ℕ) (place : ℕ × ℕ) :
    p.matmul offsetX offsetW offsetY x w y place = y place +
      ∑ i ∈ range p.tileM, ∑ j ∈ range p.tileN,
        if place = viewPlace p.vectorLane p.tileM offsetY i j then
          ∑ k ∈ range p.tileK, x (viewPlace p.vectorLane p.tileM offsetX i k) *
            w (viewPlace p.vectorLane p.tileK offsetW k j)
        else 0 := by
  unfold ConvProgram.matmul
  apply foldl_range_add fun y : ℕ × ℕ → R => y place
  intro y i _
  apply foldl_range_add fun y : ℕ × ℕ → R => y place
  intro y j _
  by_cases hplace : place = viewPlace p.vectorLane p.tileM offsetY i j
  · simp [hplace]
  · simp [hplace]

/-- Only one element of the views lies at a cell. -/
theorem sum_cells (hcells : CellsDistinct p) (f : ℕ → ℕ → ℕ → ℕ → R) {a b i j : ℕ}
    (ha : a < p.tileOH) (hb : b < p.tileOW) (hi : i < p.tileM) (hj : j < p.tileN) :
    (∑ a' ∈ range p.tileOH, ∑ b' ∈ range p.tileOW, ∑ i' ∈ range p.tileM, ∑ j' ∈ range p.tileN,
      if cell p a b i j = cell p a' b' i' j' then f a' b' i' j' else 0) = f a b i j := by
  have hcell : ∀ a' ∈ range p.tileOH, ∀ b' ∈ range p.tileOW, ∀ i' ∈ range p.tileM,
      ∀ j' ∈ range p.tileN, (if cell p a b i j = cell p a' b' i' j' then f a' b' i' j' else 0) =
        if a = a' then (if b = b' then (if i = i' then (if j = j' then f a' b' i' j' else 0)
          else 0) else 0) else 0 := by
    intro a' ha' b' hb' i' hi' j' hj'
    rw [mem_range] at ha' hb' hi' hj'
    by_cases heq : cell p a b i j = cell p a' b' i' j'
    · obtain ⟨rfl, rfl, rfl, rfl⟩ := hcells _ _ _ _ _ _ _ _ ha hb hi hj ha' hb' hi' hj' heq
      simp
    · rw [if_neg heq]
      split_ifs with h₁ h₂ h₃ h₄
      · rw [h₁, h₂, h₃, h₄] at heq
        exact absurd rfl heq
      all_goals rfl
  rw [sum_congr rfl fun a' ha' => sum_congr rfl fun b' hb' => sum_congr rfl fun i' hi' =>
    sum_congr rfl fun j' hj' => hcell a' ha' b' hb' i' hi' j' hj']
  simp [ha, hb, hi, hj, Finset.sum_ite_irrel]

/-- **The inner loops**: an element of the tile gets the products of all views of its row and its
column. -/
theorem compute_cell (hcells : CellsDistinct p) (x w y : ℕ × ℕ → R) {a b i j : ℕ}
    (ha : a < p.tileOH) (hb : b < p.tileOW) (hi : i < p.tileM) (hj : j < p.tileN) :
    p.compute x w y (cell p a b i j) = y (cell p a b i j) +
      ∑ kh ∈ range p.tileKH, ∑ kw ∈ range p.tileKW, viewDot p x w a b kh kw i j := by
  unfold ConvProgram.compute
  apply foldl_range_add fun y : ℕ × ℕ → R => y (cell p a b i j)
  intro y kh _
  apply foldl_range_add fun y : ℕ × ℕ → R => y (cell p a b i j)
  intro y kw _
  rw [← sum_cells p hcells (fun a b i j => viewDot p x w a b kh kw i j) ha hb hi hj]
  apply foldl_range_add fun y : ℕ × ℕ → R => y (cell p a b i j)
  intro y a' _
  apply foldl_range_add fun y : ℕ × ℕ → R => y (cell p a b i j)
  intro y b' _
  exact matmul_apply p x w y _ _ _ _

/-! ## A tile of the output -/

variable (mem : ConvMemory R) (index : ConvIndex) (s : ConvState R)

/-- The elements that a tile stores. -/
def stored : List (List ℕ) := p.y.coordinates.filter (p.inBounds p.y index)

/-- The turns of the outer loops. -/
def outputPoints : List ConvIndex := nestPoints p.outerLoops fun _ => 0

/-- **An element of a finished tile**: what it started from, and the products of all turns of the
accumulation loops. -/
theorem outputTile_cell (hcells : CellsDistinct p) {a b i j : ℕ} (ha : a < p.tileOH)
    (hb : b < p.tileOW) (hi : i < p.tileM) (hj : j < p.tileN)
    (product : ConvIndex → ℕ → ℕ → ℕ → R)
    (hproduct : ∀ point ∈ nestPoints p.accumulationLoops index, ∀ xBuffer wBuffer,
      ∀ kh < p.tileKH, ∀ kw < p.tileKW, ∀ k < p.tileK,
        p.load p.x mem.x (p.applyMaps point) xBuffer
            (viewPlace p.vectorLane p.tileM (p.viewX a b kh kw) i k) *
          p.load p.w mem.w (p.applyMaps point) wBuffer
            (viewPlace p.vectorLane p.tileK (p.viewW kh kw) k j) = product point kh kw k) :
    (p.outputTile mem index s).yBuffer (cell p a b i j) =
      p.start mem index s.yBuffer (cell p a b i j) +
        nestSum (fun point => ∑ kh ∈ range p.tileKH, ∑ kw ∈ range p.tileKW,
          ∑ k ∈ range p.tileK, product point kh kw k) p.accumulationLoops index := by
  unfold ConvProgram.outputTile ConvProgram.store
  apply runLoops_add fun s : ConvState R => s.yBuffer (cell p a b i j)
  intro point hpoint s
  refine (compute_cell p hcells _ _ _ ha hb hi hj).trans ?_
  congr 1
  apply sum_congr rfl
  intro kh hkh
  apply sum_congr rfl
  intro kw hkw
  apply sum_congr rfl
  intro k hk
  exact hproduct point hpoint _ _ kh (mem_range.mp hkh) kw (mem_range.mp hkw) k (mem_range.mp hk)

theorem outputTile_y : (p.outputTile mem index s).y =
    writes (p.y.address index)
      (fun c => (p.outputTile mem index s).yBuffer (p.y.place p.vectorLane c)) (stored p index)
      s.y := by
  unfold ConvProgram.outputTile ConvProgram.store
  rw [runLoops_keeps ConvState.y]
  · rfl
  · intro index s
    rfl

/-! ## The output -/

/-- The tiles store the elements of a tensor at their places, and all of them. -/
structure Stores (shape : List ℕ) (element : ConvIndex → List ℕ → List ℕ) : Prop where
  inShape : ∀ point ∈ outputPoints p, ∀ c ∈ stored p point, InShape shape (element point c)
  address : ∀ point ∈ outputPoints p, ∀ c ∈ stored p point,
    p.y.address point c = ravel shape (element point c)
  covered : ∀ g, InShape shape g →
    ∃ point ∈ outputPoints p, ∃ c ∈ stored p point, element point c = g

variable {p} {shape : List ℕ} {element : ConvIndex → List ℕ → List ℕ}

/-- **The kernel leaves the values** that every tile stores, whatever is in the buffers, as long as
they keep what the tiles rely on. -/
theorem run_elements (hstores : Stores p shape element) (value : List ℕ → R)
    (inv : (ℕ × ℕ → R) → Prop)
    (hkeep : ∀ point ∈ outputPoints p, ∀ s : ConvState R, inv s.yBuffer →
      inv (p.outputTile mem point s).yBuffer)
    (hvalue : ∀ point ∈ outputPoints p, ∀ c ∈ stored p point, ∀ s : ConvState R, inv s.yBuffer →
      (p.outputTile mem point s).yBuffer (p.y.place p.vectorLane c) = value (element point c))
    (hs : inv s.yBuffer) (g : List ℕ) (hg : InShape shape g) :
    (p.run mem s).y (ravel shape g) = value g := by
  have hwrites := @foldl_writes_of_invariant (ℕ × R) ℕ R _ Prod.fst Prod.snd _ _ ConvState.y
    (fun s point => p.outputTile mem point s)
    (fun point => (stored p point).map fun c => (p.y.address point c, value (element point c)))
    (fun s => inv s.yBuffer) (outputPoints p) hkeep
    (by
      intro point hpoint s hs
      rw [outputTile_y, writes_map]
      apply writes_congr
      intro c hc
      exact hvalue point hpoint c hc s hs) s hs
  rw [ConvProgram.run, runLoops_eq_foldl]
  refine (congrFun hwrites _).trans ?_
  apply writes_of_mem
  · intro w hw hplace
    obtain ⟨point, hpoint, hw⟩ := List.mem_flatMap.mp hw
    obtain ⟨c, hc, rfl⟩ := List.mem_map.mp hw
    have hplace : ravel shape (element point c) = ravel shape g := by
      rw [← hstores.address point hpoint c hc]
      exact hplace
    have hsame := congrArg (unravel shape) hplace
    rw [unravel_ravel (hstores.inShape point hpoint c hc), unravel_ravel hg] at hsame
    dsimp only
    rw [hsame]
  · obtain ⟨point, hpoint, c, hc, rfl⟩ := hstores.covered g hg
    exact ⟨_, List.mem_flatMap.mpr ⟨point, hpoint, List.mem_map_of_mem hc⟩,
      hstores.address point hpoint c hc⟩

/-- **The kernel writes nothing else.** -/
theorem run_frame (hstores : Stores p shape element) (a : ℕ)
    (ha : ∀ g, InShape shape g → ravel shape g ≠ a) : (p.run mem s).y a = s.y a := by
  have hpoints : ∀ points : List ConvIndex, (∀ point ∈ points, point ∈ outputPoints p) →
      ∀ s : ConvState R,
        (points.foldl (fun s point => p.outputTile mem point s) s).y a = s.y a := by
    intro points hmem
    induction points with
    | nil => exact fun _ => rfl
    | cons point points ih =>
        intro s
        have hpoint := hmem point (List.mem_cons_self ..)
        rw [List.foldl_cons, ih fun point' h => hmem point' (List.mem_cons_of_mem _ h),
          outputTile_y]
        apply writes_of_not_mem
        intro c hc
        rw [hstores.address point hpoint c hc]
        exact ha _ (hstores.inShape point hpoint c hc)
  rw [ConvProgram.run, runLoops_eq_foldl]
  exact hpoints (outputPoints p) (fun _ h => h) s

end ConvProgram

end PyTorchSim.Analysis
