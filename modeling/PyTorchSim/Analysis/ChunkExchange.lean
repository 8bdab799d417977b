import PyTorchSim.Analysis.LaneSort

/-!
# Merging two chunks

The body of the merge loops sorts two chunks, compares the lanes of the first one with those of the
second one in reverse, and sorts both results.  No element of the first result comes after one of the
second result, so the two chunks are sorted as one row.
-/

set_option autoImplicit false

namespace PyTorchSim.Analysis

open PyTorchSim.Model PyTorchSim.Library
open SortTemplate

section

variable {α : Type} [LinearOrder α] {descending stable : Bool}

instance (x y : α × ℕ) : Decidable (comesFirst descending stable x y) := by
  unfold comesFirst
  infer_instance

/-- The sort of the 16 lanes of a chunk. -/
def sortLanes (descending stable : Bool) (v : ℕ → α × ℕ) : ℕ → α × ℕ :=
  laneRun descending stable (networkStages 4) v

/-- The lanes of two vectors, of which one is reversed: those that come first and the others. -/
def splitLanes (descending stable : Bool) (x y : ℕ → α × ℕ) : (ℕ → α × ℕ) × (ℕ → α × ℕ) :=
  (fun l => if comesFirst descending stable (x l) (y (15 - l)) then x l else y (15 - l),
   fun l => if comesFirst descending stable (x l) (y (15 - l)) then y (15 - l) else x l)

/-- The merge of two chunks. -/
def exchangeLanes (descending stable : Bool) (x y : ℕ → α × ℕ) : (ℕ → α × ℕ) × (ℕ → α × ℕ) :=
  let split := splitLanes descending stable (sortLanes descending stable x)
    (sortLanes descending stable y)
  (sortLanes descending stable split.1, sortLanes descending stable split.2)

theorem sortLanes_sorted (v : ℕ → α × ℕ) {a b : ℕ} (hab : a < b) (hb : b < 16) :
    comesFirst descending stable (sortLanes descending stable v a)
      (sortLanes descending stable v b) :=
  laneRun_sorted 4 v hab hb

theorem sortLanes_mem (descending stable : Bool) (v : ℕ → α × ℕ) {a : ℕ} (ha : a < 16) :
    sortLanes descending stable v a ∈ row 16 v :=
  laneRun_mem 4 v ha

theorem sortLanes_values (descending stable : Bool) (v : ℕ → α × ℕ) :
    (row 16 fun a => (sortLanes descending stable v a).1).Perm (row 16 fun a => (v a).1) :=
  laneRun_values 4 v

theorem sortLanes_stable (descending : Bool) (v : ℕ → α × ℕ) :
    (row 16 (sortLanes descending true v)).Perm (row 16 v) :=
  laneRun_stable 4 v

theorem map_row {β γ : Type} (g : β → γ) (n : ℕ) (w : ℕ → β) :
    (row n w).map g = row n fun a => g (w a) := by
  rw [row, List.map_map]
  rfl

omit [LinearOrder α] in
/-- The reverse of the lanes. -/
theorem row_reverse {β : Type} (w : ℕ → β) : (row 16 fun l => w (15 - l)).Perm (row 16 w) := by
  have hrev : (List.range 16).map (15 - ·) = (List.range 16).reverse := by decide
  have hmap : (row 16 fun l => w (15 - l)) = ((List.range 16).map (15 - ·)).map w := by
    rw [row, List.map_map]
    rfl
  rw [hmap, hrev, row]
  exact (List.reverse_perm _).map w

/-- **Splitting** two sorted vectors: no element of the first part comes after one of the second. -/
theorem splitLanes_sorted (x y : ℕ → α × ℕ)
    (hx : ∀ a b, a < b → b < 16 → comesFirst descending stable (x a) (x b))
    (hy : ∀ a b, a < b → b < 16 → comesFirst descending stable (y a) (y b)) {a b : ℕ}
    (ha : a < 16) (hb : b < 16) :
    comesFirst descending stable ((splitLanes descending stable x y).1 a)
      ((splitLanes descending stable x y).2 b) := by
  have hrefl (z : α × ℕ) : comesFirst descending stable z z :=
    (comesFirst_total descending stable z z).elim id id
  have hless (c : ℕ) : comesFirst descending stable ((splitLanes descending stable x y).1 c) (x c) ∧
      comesFirst descending stable ((splitLanes descending stable x y).1 c) (y (15 - c)) := by
    dsimp only [splitLanes]
    split
    · next h => exact ⟨hrefl _, h⟩
    · next h => exact ⟨((comesFirst_total _ _ _ _).resolve_left h), hrefl _⟩
  have hmore (c : ℕ) : comesFirst descending stable (x c) ((splitLanes descending stable x y).2 c) ∧
      comesFirst descending stable (y (15 - c)) ((splitLanes descending stable x y).2 c) := by
    dsimp only [splitLanes]
    split
    · next h => exact ⟨h, hrefl _⟩
    · next h => exact ⟨hrefl _, (comesFirst_total _ _ _ _).resolve_left h⟩
  rcases lt_trichotomy a b with hab | rfl | hab
  · exact comesFirst_trans (comesFirst_trans (hless a).1 (hx a b hab hb)) (hmore b).1
  · exact comesFirst_trans (hless a).1 (hmore a).1
  · have hstep := hy (15 - a) (15 - b) (by omega) (by omega)
    exact comesFirst_trans (comesFirst_trans (hless a).2 hstep) (hmore b).2

omit [LinearOrder α] in
/-- Two vectors that keep or exchange each of their lanes. -/
theorem row_append_perm {β : Type} [DecidableEq β] (n : ℕ) (x y x' y' : ℕ → β)
    (h : ∀ l, (x' l = x l ∧ y' l = y l) ∨ (x' l = y l ∧ y' l = x l)) :
    (row n x' ++ row n y').Perm (row n x ++ row n y) := by
  rw [List.perm_iff_count]
  intro z
  simp only [List.count_append, count_row, ← Finset.sum_add_distrib]
  refine Finset.sum_congr rfl fun l _ => ?_
  rcases h l with ⟨hx, hy⟩ | ⟨hx, hy⟩
  · rw [hx, hy]
  · rw [hx, hy, Nat.add_comm]

/-- Splitting rearranges the elements of the two vectors. -/
theorem splitLanes_perm (descending stable : Bool) (x y : ℕ → α × ℕ) :
    (row 16 (splitLanes descending stable x y).1 ++ row 16 (splitLanes descending stable x y).2).Perm
      (row 16 x ++ row 16 y) := by
  refine List.Perm.trans ?_ ((row_reverse y).append_left (row 16 x))
  refine row_append_perm 16 _ _ _ _ fun l => ?_
  dsimp only [splitLanes]
  split
  · exact .inl ⟨rfl, rfl⟩
  · exact .inr ⟨rfl, rfl⟩

/-- What the merge of two chunks does. -/
structure Exchanged (descending stable : Bool) (x y x' y' : ℕ → α × ℕ) : Prop where
  sorted_fst : ∀ a b, a < b → b < 16 → comesFirst descending stable (x' a) (x' b)
  sorted_snd : ∀ a b, a < b → b < 16 → comesFirst descending stable (y' a) (y' b)
  /-- No element of the first chunk comes after one of the second chunk. -/
  across : ∀ a b, a < 16 → b < 16 → comesFirst descending stable (x' a) (y' b)
  values : ((row 16 fun l => (x' l).1) ++ row 16 fun l => (y' l).1).Perm
    ((row 16 fun l => (x l).1) ++ row 16 fun l => (y l).1)
  elements : stable = true → (row 16 x' ++ row 16 y').Perm (row 16 x ++ row 16 y)

/-- **Merging two chunks** sorts them as one row. -/
theorem exchangeLanes_exchanged (descending stable : Bool) (x y : ℕ → α × ℕ) :
    Exchanged descending stable x y (exchangeLanes descending stable x y).1
      (exchangeLanes descending stable x y).2 := by
  set u := sortLanes descending stable x with hu
  set w := sortLanes descending stable y with hw
  have hsplit := splitLanes_perm descending stable u w
  constructor
  case sorted_fst => exact fun a b hab hb => sortLanes_sorted _ hab hb
  case sorted_snd => exact fun a b hab hb => sortLanes_sorted _ hab hb
  case across =>
    intro a b ha hb
    obtain ⟨a', ha', hxa⟩ := mem_row.mp (sortLanes_mem descending stable
      (splitLanes descending stable u w).1 ha)
    obtain ⟨b', hb', hyb⟩ := mem_row.mp (sortLanes_mem descending stable
      (splitLanes descending stable u w).2 hb)
    have hlow : (exchangeLanes descending stable x y).1 a = (splitLanes descending stable u w).1 a' :=
      hxa.symm
    have hhigh : (exchangeLanes descending stable x y).2 b =
        (splitLanes descending stable u w).2 b' := hyb.symm
    rw [hlow, hhigh]
    exact splitLanes_sorted u w (fun a b hab hb => sortLanes_sorted x hab hb)
      (fun a b hab hb => sortLanes_sorted y hab hb) ha' hb'
  case values =>
    have hvalues := hsplit.map Prod.fst
    simp only [List.map_append, map_row] at hvalues
    refine ((sortLanes_values descending stable _).append (sortLanes_values descending stable _)).trans
      (hvalues.trans ?_)
    exact (sortLanes_values descending stable x).append (sortLanes_values descending stable y)
  case elements =>
    rintro rfl
    refine ((sortLanes_stable descending _).append (sortLanes_stable descending _)).trans
      (hsplit.trans ?_)
    exact (sortLanes_stable descending x).append (sortLanes_stable descending y)

end

end PyTorchSim.Analysis
