import PyTorchSim.Analysis.SortResult

/-!
# The indices of the sort kernel

Every lane of the kernel keeps a value together with its index, so an output is always the element
of the row at its index.  A stage of the stable template, and an exchange of two chunks in either
template, moves elements and makes no copies.  A lane-stage of the unstable template may copy an
element over its equal, but it cannot when the values of the row are different.
-/

set_option autoImplicit false

namespace PyTorchSim.Analysis

open PyTorchSim.Model PyTorchSim.Library
open SortTemplate

section

variable {α : Type} [LinearOrder α] {descending stable : Bool}

/-! ## What all elements have in common -/

/-- The merge of two chunks leaves elements of the two. -/
theorem exchangeLanes_keeps {Q : α × ℕ → Prop} (descending stable : Bool) {x y : ℕ → α × ℕ}
    (hx : ∀ a < 16, Q (x a)) (hy : ∀ a < 16, Q (y a)) :
    ∀ a < 16, Q ((exchangeLanes descending stable x y).1 a) ∧
      Q ((exchangeLanes descending stable x y).2 a) := by
  have hsort {v : ℕ → α × ℕ} (hv : ∀ a < 16, Q (v a)) :
      ∀ a < 16, Q (sortLanes descending stable v a) := by
    intro a ha
    obtain ⟨b, hb, heq⟩ := mem_row.mp (sortLanes_mem descending stable v ha)
    rw [← heq]
    exact hv b hb
  have hsplit : ∀ a < 16,
      Q ((splitLanes descending stable (sortLanes descending stable x)
        (sortLanes descending stable y)).1 a) ∧
      Q ((splitLanes descending stable (sortLanes descending stable x)
        (sortLanes descending stable y)).2 a) := by
    intro a ha
    have hleft := hsort hx a ha
    have hright := hsort hy (15 - a) (by omega)
    dsimp only [splitLanes]
    split
    · exact ⟨hleft, hright⟩
    · exact ⟨hright, hleft⟩
  intro a ha
  exact ⟨hsort (fun b hb => (hsplit b hb).1) a ha, hsort (fun b hb => (hsplit b hb).2) a ha⟩

theorem chunkStage_keeps {Q : α × ℕ → Prop} (descending stable : Bool) {n : ℕ} {s : ℕ × ℕ}
    (hs : FitsStage n s) {f : ℕ → ℕ → α × ℕ} (hf : ∀ c < n, ∀ a < 16, Q (f c a)) :
    ∀ c < n, ∀ a < 16, Q (chunkStage descending stable s.1 s.2 f c a) := by
  intro c hc a ha
  unfold chunkStage
  by_cases heven : c / s.2 % 2 = 0
  · have hroom := pair_lt hs.pos (hs.block.trans hs.places) heven hc
    rw [if_pos heven]
    exact (exchangeLanes_keeps _ stable (hf c hc) (hf _ hroom) a ha).1
  · obtain ⟨hle, -⟩ := pair_first heven
    rw [if_neg heven]
    exact (exchangeLanes_keeps _ stable (hf (c - s.2) (by omega)) (hf c hc) a ha).2

/-- What holds of all elements holds of them after the network. -/
theorem chunkRun_keeps {Q : α × ℕ → Prop} (descending stable : Bool) (d : ℕ) {f : ℕ → ℕ → α × ℕ}
    (hf : ∀ c < 2 ^ d, ∀ a < 16, Q (f c a)) :
    ∀ c < 2 ^ d, ∀ a < 16, Q (chunkRun descending stable (networkStages d) f c a) := by
  have hfits : ∀ s ∈ networkStages d, FitsStage (2 ^ d) s := fun s hs => fitsStage hs
  revert hfits
  unfold chunkRun
  generalize networkStages d = l
  intro hl
  induction l generalizing f with
  | nil => exact hf
  | cons s l ih =>
      exact ih (chunkStage_keeps descending stable (hl s List.mem_cons_self) hf)
        fun t ht => hl t (List.mem_cons_of_mem s ht)

/-! ## The elements of the kernel -/

/-- Every element of the result is an element of the row with its index. -/
theorem sortedElements_indexed (descending stable : Bool) (d : ℕ) (x : ℕ → α) {i : ℕ}
    (hi : i < 2 ^ d * 16) :
    (sortedElements descending stable d x i).2 < 2 ^ d * 16 ∧
      (sortedElements descending stable d x i).1 = x (sortedElements descending stable d x i).2 := by
  have hstart : ∀ c < 2 ^ d, ∀ a < 16,
      (sortedChunks descending stable x c a).2 < 2 ^ d * 16 ∧
        (sortedChunks descending stable x c a).1 = x (sortedChunks descending stable x c a).2 := by
    intro c hc a ha
    obtain ⟨b, hb, heq⟩ := mem_row.mp
      (sortLanes_mem descending stable (fun l => (x (c * 16 + l), c * 16 + l)) ha)
    unfold sortedChunks
    rw [← heq]
    exact ⟨by dsimp only; omega, rfl⟩
  have hrun := chunkRun_keeps (Q := fun z => z.2 < 2 ^ d * 16 ∧ z.1 = x z.2) descending stable d
    hstart (i / 16) (by omega) (i % 16) (by omega)
  exact hrun

/-- The stable template rearranges the elements with their indices. -/
theorem sortedElements_stable (descending : Bool) (d : ℕ) (x : ℕ → α) :
    (row (2 ^ d * 16) (sortedElements descending true d x)).Perm
      (row (2 ^ d * 16) fun i => (x i, i)) := by
  have hrun := chunkRun_perm descending true d id
    (fun e x y => (exchangeLanes_exchanged e true x y).elements rfl)
    (sortedChunks descending true x)
  refine hrun.trans ?_
  have hchunks : (row (2 ^ d * 16) (flatten (sortedChunks descending true x))).Perm
      (row (2 ^ d * 16) (flatten fun c l => (x (c * 16 + l), c * 16 + l))) :=
    flatten_perm fun c _ => sortLanes_stable descending _
  rwa [flatten_row fun i => (x i, i)] at hchunks

/-- The indices of the stable template are those of the row. -/
theorem stable_indices (descending : Bool) (d : ℕ) (x : ℕ → α) :
    (row (2 ^ d * 16) fun i => (sortedElements descending true d x i).2).Perm
      (List.range (2 ^ d * 16)) := by
  have hmap := (sortedElements_stable descending d x).map Prod.snd
  rw [map_row, map_row] at hmap
  refine hmap.trans (List.Perm.of_eq ?_)
  unfold row
  exact List.map_id _

/-- So are those of the unstable template when no two values of the row are equal. -/
theorem distinct_indices (descending stable : Bool) (d : ℕ) (x : ℕ → α)
    (hx : ∀ i < 2 ^ d * 16, ∀ j < 2 ^ d * 16, x i = x j → i = j) :
    (row (2 ^ d * 16) fun i => (sortedElements descending stable d x i).2).Perm
      (List.range (2 ^ d * 16)) := by
  have hrow : (row (2 ^ d * 16) x).Nodup := by
    refine List.Nodup.map_on (fun i hi j hj => ?_) List.nodup_range
    exact hx i (List.mem_range.mp hi) j (List.mem_range.mp hj)
  have hvalues : (row (2 ^ d * 16) fun i => (sortedElements descending stable d x i).1).Perm
      (row (2 ^ d * 16) x) := sortedElements_values d x
  have hat : (row (2 ^ d * 16) fun i => (sortedElements descending stable d x i).1) =
      (row (2 ^ d * 16) fun i => (sortedElements descending stable d x i).2).map x := by
    rw [map_row]
    exact row_congr fun i hi => (sortedElements_indexed descending stable d x hi).2
  have hnodup : (row (2 ^ d * 16) fun i => (sortedElements descending stable d x i).2).Nodup := by
    have := hvalues.nodup_iff.mpr hrow
    rw [hat] at this
    exact this.of_map x
  have hsubset : (row (2 ^ d * 16) fun i => (sortedElements descending stable d x i).2) ⊆
      List.range (2 ^ d * 16) := by
    intro k hk
    obtain ⟨i, hi, rfl⟩ := mem_row.mp hk
    exact List.mem_range.mpr (sortedElements_indexed descending stable d x hi).1
  refine (List.subperm_of_subset hnodup hsubset).perm_of_length_le ?_
  simp [row]

/-- The elements of a chunk of the result are in the order of the template. -/
theorem sortedElements_chunk (d : ℕ) (x : ℕ → α) {i j : ℕ} (hij : i < j) (hj : j < 2 ^ d * 16)
    (hchunk : i / 16 = j / 16) :
    comesFirst descending stable (sortedElements descending stable d x i)
      (sortedElements descending stable d x j) := by
  unfold sortedElements flatten
  rw [hchunk]
  refine chunkRun_chunk d _ (fun c a b hab hb => ?_) (by omega) (by omega) (by omega)
  exact sortLanes_sorted _ hab hb

/-- **The sort kernel sorts the indices with the values**: an output is the element of the row at
its index; the indices are those of the row, each once, in the stable template and wherever the
values of the row are different; and in a chunk of the result of the stable template equal values
are in the order of the row. -/
theorem sortKernel_indices (descending useStableSort : Bool) (m : ℕ) :
    ∃ kernel, render descending useStableSort (16 * 2 ^ m) = .ok kernel ∧
      ∀ (x : ℕ → α) (buf : SortBuffers α),
        (∀ i < 16 * 2 ^ m, (kernel x buf).xi i < 16 * 2 ^ m ∧
          (kernel x buf).yv i = x ((kernel x buf).xi i)) ∧
        (useStableSort = true ∨ (∀ i < 16 * 2 ^ m, ∀ j < 16 * 2 ^ m, x i = x j → i = j) →
          (row (16 * 2 ^ m) (kernel x buf).xi).Perm (List.range (16 * 2 ^ m))) ∧
        (useStableSort = true → ∀ i j, i < j → j < 16 * 2 ^ m → i / 16 = j / 16 →
          (kernel x buf).yv i = (kernel x buf).yv j →
          (kernel x buf).xi i < (kernel x buf).xi j) := by
  refine ⟨_, render_ok descending useStableSort m, fun x buf => ?_⟩
  rw [Nat.mul_comm 16]
  have helement {i : ℕ} (hi : i < 2 ^ m * 16) :=
    runKernel_elements descending useStableSort m x buf hi
  have hindex : ∀ i < 2 ^ m * 16, (runKernel descending useStableSort (2 ^ m) x buf).xi i =
      (sortedElements descending useStableSort m x i).2 :=
    fun i hi => congrArg Prod.snd (helement hi)
  have hperm : useStableSort = true ∨
      (∀ i < 2 ^ m * 16, ∀ j < 2 ^ m * 16, x i = x j → i = j) →
      (row (2 ^ m * 16) (runKernel descending useStableSort (2 ^ m) x buf).xi).Perm
        (List.range (2 ^ m * 16)) := by
    rw [row_congr hindex]
    rintro (rfl | hx)
    · exact stable_indices descending m x
    · exact distinct_indices descending useStableSort m x hx
  refine ⟨fun i hi => ?_, hperm, ?_⟩
  · obtain ⟨hlt, heq⟩ := sortedElements_indexed descending useStableSort m x hi
    rw [hindex i hi]
    exact ⟨hlt, (congrArg Prod.fst (helement hi)).trans heq⟩
  · intro hstable i j hij hj hchunk hequal
    have hi : i < 2 ^ m * 16 := hij.trans hj
    have horder : comesFirst descending useStableSort
        (sortedElements descending useStableSort m x i)
        (sortedElements descending useStableSort m x j) := sortedElements_chunk m x hij hj hchunk
    rw [← helement hi, ← helement hj, hstable] at horder
    unfold comesFirst at horder
    rw [if_pos rfl] at horder
    have hle : (runKernel descending useStableSort (2 ^ m) x buf).xi i ≤
        (runKernel descending useStableSort (2 ^ m) x buf).xi j := by
      rw [hstable] at hequal ⊢
      rcases horder with h | h
      · exfalso
        dsimp only at h
        rw [hequal] at h
        split at h <;> exact lt_irrefl _ h
      · exact h.2
    refine lt_of_le_of_ne hle fun heq => ?_
    have hnodup := (hperm (.inl hstable)).nodup_iff.mpr List.nodup_range
    have hinj := List.inj_on_of_nodup_map hnodup (List.mem_range.mpr hi) (List.mem_range.mpr hj) heq
    omega

end

end PyTorchSim.Analysis
