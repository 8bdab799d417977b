import PyTorchSim.Analysis.CatKernel
import PyTorchSim.Analysis.CatTiles
import PyTorchSim.Frontend.MatmulProgram
import PyTorchSim.Library.TiledLoops

/-!
# The tiles of a matrix multiplication

The kernel is a row of writes of finished tiles.  The accumulation loop adds to an element of a tile
the products of the parts of its row and its column, tile by tile, and what a tile has over the
bound of the loop is zero.  So where the writes go to the places of the elements, each element gets
its start and the whole of its sum.
-/

set_option autoImplicit false

namespace PyTorchSim.Analysis

open Finset Frontend Frontend.CatProgram Library

variable {R : Type} [Semiring R]

/-! ## Addresses -/

@[simp] theorem dramStride_loopTimes (loop stride : ℕ) :
    (loopTimes loop stride).dramStride = stride := by
  unfold loopTimes
  split_ifs with hzero hone
  · simp [AddressTerm.dramStride, hzero]
  · simp [AddressTerm.dramStride, hone]
  · simp [AddressTerm.dramStride]

@[simp] theorem value_loopTimes (index : List ℕ) (loop stride : ℕ) :
    (loopTimes loop stride).value index = stride * index.getD loop 0 := by
  unfold loopTimes
  split_ifs with hzero hone
  · simp [AddressTerm.value, hzero]
  · simp [AddressTerm.value, hone]
  · simp [AddressTerm.value]

/-! ## A finished tile -/

namespace MatmulProgram

variable (p : MatmulProgram) (mem : MatmulMemory R) (index : List ℕ)

/-- A tile of the output after the accumulation. -/
def finishedTile : List ℕ → R :=
  (loopRange p.accumulationLoop.1 p.accumulationLoop.2).foldl (fun y k =>
    p.matmul (p.load p.x mem.x (index ++ [k])) (p.load p.w mem.w (index ++ [k])) y)
    (p.start mem index)

theorem foldl_accumulate (l : List ℕ) (s : MatmulState R) :
    (l.foldl (p.accumulate mem index) s).yBuffer = l.foldl (fun y k =>
        p.matmul (p.load p.x mem.x (index ++ [k])) (p.load p.w mem.w (index ++ [k])) y) s.yBuffer ∧
      (l.foldl (p.accumulate mem index) s).y = s.y := by
  induction l generalizing s with
  | nil => simp
  | cons k l ih =>
      simp only [List.foldl_cons]
      exact ih (p.accumulate mem index s k)

/-- The writes of a tile of the output. -/
def tileWrites : List (ℕ × R) :=
  (p.moved p.y index).map fun c => (p.y.address index c, finishedTile p mem index c)

theorem outputTile_y (s : MatmulState R) :
    (p.outputTile mem s index).y = writes Prod.fst Prod.snd (tileWrites p mem index) s.y := by
  obtain ⟨hbuffer, hy⟩ := foldl_accumulate p mem index
    (loopRange p.accumulationLoop.1 p.accumulationLoop.2) { s with yBuffer := p.start mem index }
  rw [tileWrites, writes_map]
  unfold MatmulProgram.outputTile MatmulProgram.store
  rw [hbuffer, hy]
  rfl

/-- The values of the outer loops. -/
def outerTiles : List (List ℕ) := product (p.outerLoops.map fun l => loopRange l.1 l.2)

/-- **The kernel is a row of writes.** -/
theorem run_y (s : MatmulState R) :
    (p.run mem s).y =
      writes Prod.fst Prod.snd ((outerTiles p).flatMap (tileWrites p mem)) s.y := by
  apply foldl_writes MatmulState.y
  intro s index
  exact outputTile_y p mem index s

/-- **The elements of the output**: where every element that a tile stores is an element of the
output at its place, with its value, and every element is stored, the kernel leaves the values of
all elements, and changes nothing else. -/
theorem run_of_elements {G : Type} (dom : G → Prop) (place : G → ℕ) (value : G → R)
    (hstored : ∀ index ∈ outerTiles p, ∀ c ∈ p.moved p.y index,
      ∃ g, dom g ∧ p.y.address index c = place g ∧ finishedTile p mem index c = value g)
    (hcovered : ∀ g, dom g → ∃ index ∈ outerTiles p, ∃ c ∈ p.moved p.y index,
      p.y.address index c = place g)
    (hplaces : ∀ g g', dom g → dom g' → place g = place g' → g = g') (s : MatmulState R) :
    (∀ g, dom g → (p.run mem s).y (place g) = value g) ∧
      ∀ a, (∀ g, dom g → place g ≠ a) → (p.run mem s).y a = s.y a := by
  have hwrites : ∀ w ∈ (outerTiles p).flatMap (tileWrites p mem),
      ∃ g, dom g ∧ w.1 = place g ∧ w.2 = value g := by
    intro w hw
    obtain ⟨index, hindex, hw⟩ := List.mem_flatMap.mp hw
    obtain ⟨c, hc, rfl⟩ := List.mem_map.mp hw
    exact hstored index hindex c hc
  rw [run_y]
  constructor
  · intro g hg
    apply writes_of_mem
    · intro w hw hplace
      obtain ⟨g', hg', hkey, hvalue⟩ := hwrites w hw
      rw [hvalue, hplaces g' g hg' hg (hkey.symm.trans hplace)]
    · obtain ⟨index, hindex, c, hc, hplace⟩ := hcovered g hg
      exact ⟨_, List.mem_flatMap.mpr ⟨index, hindex, List.mem_map_of_mem hc⟩, hplace⟩
  · intro a ha
    apply writes_of_not_mem
    intro w hw hplace
    obtain ⟨g, hg, hkey, -⟩ := hwrites w hw
    exact ha g hg (hkey.symm.trans hplace)

/-! ## The accumulation -/

theorem matmul_apply (x w y : List ℕ → R) (i j : ℕ) :
    p.matmul x w y (p.lead ++ [i, j]) = y (p.lead ++ [i, j]) +
      ∑ k ∈ range p.accumulationLoop.2, x (p.lead ++ [i, k]) * w (p.lead ++ [k, j]) := by
  simp [MatmulProgram.matmul]

/-- **An element of a finished tile**: its start and the products of its row and its column, when
what the tiles have over the bound is zero. -/
theorem finishedTile_apply (i j : ℕ) (row col : ℕ → R) (hstep : 0 < p.accumulationLoop.2)
    (hproduct : ∀ q, ∀ k < p.accumulationLoop.2,
      p.load p.x mem.x (index ++ [q]) (p.lead ++ [i, k]) *
        p.load p.w mem.w (index ++ [q]) (p.lead ++ [k, j]) =
      if q + k < p.accumulationLoop.1 then row (q + k) * col (q + k) else 0) :
    finishedTile p mem index (p.lead ++ [i, j]) =
      p.start mem index (p.lead ++ [i, j]) +
        ∑ k ∈ range p.accumulationLoop.1, row k * col k := by
  have hloop : ∀ (l : List ℕ) (y : List ℕ → R),
      l.foldl (fun y k => p.matmul (p.load p.x mem.x (index ++ [k]))
        (p.load p.w mem.w (index ++ [k])) y) y (p.lead ++ [i, j]) =
      l.foldl (fun a q => a + ∑ k ∈ range p.accumulationLoop.2,
        if q + k < p.accumulationLoop.1 then row (q + k) * col (q + k) else 0)
        (y (p.lead ++ [i, j])) := by
    intro l
    induction l with
    | nil => simp
    | cons q l ih =>
        intro y
        rw [List.foldl_cons, List.foldl_cons, ih, matmul_apply]
        congr 2
        apply sum_congr rfl
        intro k hk
        exact hproduct q k (mem_range.mp hk)
  have hcover : p.accumulationLoop.1 ≤
      (p.accumulationLoop.1 ⌈/⌉ p.accumulationLoop.2) * p.accumulationLoop.2 := by
    rw [Nat.mul_comm]
    exact le_smul_ceilDiv hstep
  rw [finishedTile, hloop, loopRange, List.foldl_map, foldl_add_eq_sum
    (fun q => ∑ k ∈ range p.accumulationLoop.2, if q * p.accumulationLoop.2 + k <
      p.accumulationLoop.1 then row (q * p.accumulationLoop.2 + k) *
        col (q * p.accumulationLoop.2 + k) else 0),
    sum_masked_tiles (fun k => row k * col k) hcover]

end MatmulProgram

end PyTorchSim.Analysis
