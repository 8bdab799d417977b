import PyTorchSim.Analysis.ChunkExchange

/-!
# The network on the chunks

The chunks of a row are merged in the stages of a bitonic network.  A property that goes up with the
order of the merge is a mark, and a merge moves the marks of two chunks into the second one as far as
there is room: an exchange of bins of 16 cells.  So the network sorts the chunks.
-/

set_option autoImplicit false

namespace PyTorchSim.Analysis

open PyTorchSim.Model PyTorchSim.Library
open SortTemplate

section

variable {α : Type} [LinearOrder α] {descending stable : Bool} {x y x' y' : ℕ → α × ℕ}

section

variable {U : α × ℕ → Prop} [DecidablePred U]

end

/-- The direction of the block that a chunk is in. -/
def blockDescending (descending : Bool) (k c : ℕ) : Bool :=
  if c / k % 2 = 0 then descending else !descending

/-- A stage of the network on the chunks. -/
def chunkStage (descending stable : Bool) (k j : ℕ) (f : ℕ → ℕ → α × ℕ) (c : ℕ) : ℕ → α × ℕ :=
  if c / j % 2 = 0 then
    (exchangeLanes (blockDescending descending k c) stable (f c) (f (c + j))).1
  else (exchangeLanes (blockDescending descending k c) stable (f (c - j)) (f c)).2

/-- The stages of a list. -/
def chunkRun (descending stable : Bool) (l : List (ℕ × ℕ)) (f : ℕ → ℕ → α × ℕ) :
    ℕ → ℕ → α × ℕ :=
  l.foldl (fun f s => chunkStage descending stable s.1 s.2 f) f

/-- A chunk is sorted after a stage. -/
theorem chunkStage_sorted (descending stable : Bool) (k j : ℕ) (f : ℕ → ℕ → α × ℕ) (c : ℕ)
    {a b : ℕ} (hab : a < b) (hb : b < 16) :
    comesFirst (blockDescending descending k c) stable (chunkStage descending stable k j f c a)
      (chunkStage descending stable k j f c b) := by
  unfold chunkStage
  split
  · exact (exchangeLanes_exchanged _ stable _ _).sorted_fst a b hab hb
  · exact (exchangeLanes_exchanged _ stable _ _).sorted_snd a b hab hb

/-- The last stage of a merge has the stride 1. -/
theorem halvings_succ (e : ℕ) : ∃ l, halvings (e + 1) = l ++ [1] := by
  induction e with
  | zero => exact ⟨[], rfl⟩
  | succ e ih =>
      obtain ⟨l, hl⟩ := ih
      exact ⟨2 ^ (e + 1) :: l, by rw [halvings, hl]; rfl⟩

/-- The chunks of a sorted row are sorted. -/
theorem chunkRun_chunk (d : ℕ) (f : ℕ → ℕ → α × ℕ)
    (hf : ∀ c a b, a < b → b < 16 → comesFirst descending stable (f c a) (f c b)) {c : ℕ}
    (hc : c < 2 ^ d) {a b : ℕ} (hab : a < b) (hb : b < 16) :
    comesFirst descending stable (chunkRun descending stable (networkStages d) f c a)
      (chunkRun descending stable (networkStages d) f c b) := by
  cases d with
  | zero => exact hf c a b hab hb
  | succ d =>
      obtain ⟨l, hl⟩ := halvings_succ d
      have hlast : networkStages (d + 1) =
          (networkStages d ++ l.map fun s => (2 ^ (d + 1), s)) ++ [(2 ^ (d + 1), 1)] := by
        rw [networkStages, hl, List.map_append, List.append_assoc]
        rfl
      have hblock : blockDescending descending (2 ^ (d + 1)) c = descending := by
        rw [blockDescending, Nat.div_eq_of_lt hc]
        rfl
      unfold chunkRun
      rw [hlast, List.foldl_append]
      have hsorted := chunkStage_sorted descending stable (2 ^ (d + 1)) 1
        ((networkStages d ++ l.map fun s => (2 ^ (d + 1), s)).foldl
          (fun f (s : ℕ × ℕ) => chunkStage descending stable s.1 s.2 f) f) c hab hb
      rw [hblock] at hsorted
      exact hsorted

/-! ## The row -/

/-- The elements of a row, by their place. -/
def flatten {β : Type} (f : ℕ → ℕ → β) (i : ℕ) : β := f (i / 16) (i % 16)

omit [LinearOrder α] in
theorem count_flatten {β : Type} [DecidableEq β] (n : ℕ) (f : ℕ → ℕ → β) (z : β) :
    (row (n * 16) (flatten f)).count z = (Finset.range n).sum fun c => (row 16 (f c)).count z := by
  induction n with
  | zero => rfl
  | succ n ih =>
      have hsplit : (n + 1) * 16 = n * 16 + 16 := by omega
      have hlast : ∀ l ∈ Finset.range 16, (if flatten f (n * 16 + l) = z then 1 else 0) =
          if f n l = z then 1 else 0 := by
        intro l hl
        have hlt := Finset.mem_range.mp hl
        have hdiv : (n * 16 + l) / 16 = n := by omega
        have hmod : (n * 16 + l) % 16 = l := by omega
        rw [flatten, hdiv, hmod]
      rw [hsplit, Finset.sum_range_succ, ← ih, count_row, count_row (n * 16), count_row 16,
        Finset.sum_range_add, Finset.sum_congr rfl hlast]

/-- A stage rearranges what each of its exchanges rearranges. -/
theorem chunkStage_perm {γ : Type} [DecidableEq γ] {n : ℕ} {s : ℕ × ℕ} (hs : FitsStage n s)
    (g : α × ℕ → γ) (f : ℕ → ℕ → α × ℕ)
    (hg : ∀ c d, c / s.2 % 2 = 0 → c + s.2 < n → d = blockDescending descending s.1 c →
      ((row 16 fun l => g ((exchangeLanes d stable (f c) (f (c + s.2))).1 l)) ++
        row 16 fun l => g ((exchangeLanes d stable (f c) (f (c + s.2))).2 l)).Perm
      ((row 16 fun l => g (f c l)) ++ row 16 fun l => g (f (c + s.2) l))) :
    (row (n * 16) (flatten fun c l => g (chunkStage descending stable s.1 s.2 f c l))).Perm
      (row (n * 16) (flatten fun c l => g (f c l))) := by
  rw [List.perm_iff_count]
  intro z
  rw [count_flatten, count_flatten]
  refine sum_pairs hs.pos (hs.block.trans hs.places) fun c hc hcn => ?_
  obtain ⟨hnext, hblock⟩ := pair_second hs.pos hs.block hc
  have hcount := (hg c _ hc hcn rfl).count_eq z
  rw [List.count_append, List.count_append] at hcount
  have hlow : chunkStage descending stable s.1 s.2 f c =
      (exchangeLanes (blockDescending descending s.1 c) stable (f c) (f (c + s.2))).1 := by
    rw [chunkStage, if_pos hc]
  have hhigh : chunkStage descending stable s.1 s.2 f (c + s.2) =
      (exchangeLanes (blockDescending descending s.1 c) stable (f c) (f (c + s.2))).2 := by
    rw [chunkStage, hnext, if_neg (by decide), blockDescending, hblock, Nat.add_sub_cancel,
      blockDescending]
  rw [hlow, hhigh]
  exact hcount

/-- The network rearranges what all of its exchanges rearrange. -/
theorem chunkRun_perm {γ : Type} [DecidableEq γ] (descending stable : Bool) (d : ℕ)
    (g : α × ℕ → γ)
    (hg : ∀ (e : Bool) (x y : ℕ → α × ℕ),
      ((row 16 fun l => g ((exchangeLanes e stable x y).1 l)) ++
        row 16 fun l => g ((exchangeLanes e stable x y).2 l)).Perm
      ((row 16 fun l => g (x l)) ++ row 16 fun l => g (y l)))
    (f : ℕ → ℕ → α × ℕ) :
    (row (2 ^ d * 16) (flatten fun c l => g (chunkRun descending stable (networkStages d) f c l))).Perm
      (row (2 ^ d * 16) (flatten fun c l => g (f c l))) := by
  have hfits : ∀ s ∈ networkStages d, FitsStage (2 ^ d) s := fun s hs => fitsStage hs
  revert hfits
  unfold chunkRun
  generalize networkStages d = l
  intro hl
  induction l generalizing f with
  | nil => exact List.Perm.refl _
  | cons s l ih =>
      refine (ih _ fun t ht => hl t (List.mem_cons_of_mem s ht)).trans ?_
      exact chunkStage_perm (hl s List.mem_cons_self) g f fun _ _ _ _ _ => hg _ _ _

end

end PyTorchSim.Analysis
