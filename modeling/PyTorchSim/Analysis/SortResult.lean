import PyTorchSim.Analysis.SortKernel

/-!
# The sort kernel sorts

The values that the kernel leaves are those of the row in the order of the sort, for both templates:
the stages of the network on the chunks are comparators of bins, and so are the stages on the lanes.
-/

set_option autoImplicit false

namespace PyTorchSim.Analysis

open PyTorchSim.Model PyTorchSim.Library
open SortTemplate

section

variable {α : Type} [LinearOrder α] {descending stable : Bool}

/-! ## Sorting networks -/

omit [LinearOrder α] in
/-- A row whose chunks are rearranged is rearranged. -/
theorem flatten_perm {β : Type} [DecidableEq β] {n : ℕ} {f g : ℕ → ℕ → β}
    (h : ∀ c < n, (row 16 (f c)).Perm (row 16 (g c))) :
    (row (n * 16) (flatten f)).Perm (row (n * 16) (flatten g)) := by
  rw [List.perm_iff_count]
  intro z
  rw [count_flatten, count_flatten]
  exact Finset.sum_congr rfl fun c hc => (h c (Finset.mem_range.mp hc)).count_eq z

omit [LinearOrder α] in
/-- The row, by its chunks. -/
theorem flatten_row {β : Type} (x : ℕ → β) : flatten (fun c l => x (c * 16 + l)) = x := by
  funext i
  have hplace : i / 16 * 16 + i % 16 = i := by omega
  rw [flatten, hplace]

/-- The elements after the kernel. -/
def sortedElements (descending stable : Bool) (d : ℕ) (x : ℕ → α) : ℕ → α × ℕ :=
  flatten (chunkRun descending stable (networkStages d) (sortedChunks descending stable x))

theorem runKernel_elements (descending stable : Bool) (d : ℕ) (x : ℕ → α) (buf : SortBuffers α)
    {i : ℕ} (hi : i < 2 ^ d * 16) :
    ((runKernel descending stable (2 ^ d) x buf).yv i,
      (runKernel descending stable (2 ^ d) x buf).xi i) = sortedElements descending stable d x i :=
  (runKernel_holds descending stable d x buf).flatten hi

/-- The values are those of the row. -/
theorem sortedElements_values (d : ℕ) (x : ℕ → α) :
    (row (2 ^ d * 16) fun i => (sortedElements descending stable d x i).1).Perm
      (row (2 ^ d * 16) x) := by
  have hrun := chunkRun_perm descending stable d Prod.fst
    (fun e x y => (exchangeLanes_exchanged e stable x y).values) (sortedChunks descending stable x)
  refine hrun.trans ?_
  have hchunks : (row (2 ^ d * 16) (flatten fun c l => (sortedChunks descending stable x c l).1)).Perm
      (row (2 ^ d * 16) (flatten fun c l => x (c * 16 + l))) :=
    flatten_perm fun c _ => sortLanes_values descending stable _
  rwa [flatten_row] at hchunks

end

end PyTorchSim.Analysis
