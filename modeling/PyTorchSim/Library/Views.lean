import Mathlib.Data.List.Nodup

/-!
# A loop over parts that do not touch each other

A loop runs `f` for each index of a list.  Each turn touches the view of its own index only, and
what it does there depends on that view and on values that no turn changes.  Then each view after
the loop is what its own turn alone makes of it.
-/

set_option autoImplicit false

namespace PyTorchSim.Library

variable {σ κ β γ : Type*} [DecidableEq κ]

/-- A loop body that treats every index on its own. -/
structure Local (f : σ → κ → σ) (view : σ → κ → β) (fixed : σ → γ) : Prop where
  frame : ∀ s i j, j ≠ i → view (f s i) j = view s j
  fixed_eq : ∀ s i, fixed (f s i) = fixed s
  congr : ∀ s t j, fixed s = fixed t → view s j = view t j → view (f s j) j = view (f t j) j

namespace Local

variable {f : σ → κ → σ} {view : σ → κ → β} {fixed : σ → γ}

omit [DecidableEq κ] in
theorem fixed_foldl (h : Local f view fixed) (l : List κ) (s : σ) :
    fixed (l.foldl f s) = fixed s := by
  induction l generalizing s with
  | nil => rfl
  | cons i l ih =>
      rw [List.foldl_cons, ih]
      exact h.fixed_eq s i

/-- **The views after the loop.** -/
theorem view_foldl (h : Local f view fixed) {l : List κ} (hnodup : l.Nodup) (s : σ) (j : κ) :
    view (l.foldl f s) j = if j ∈ l then view (f s j) j else view s j := by
  induction l generalizing s with
  | nil => rfl
  | cons i l ih =>
      rw [List.nodup_cons] at hnodup
      rw [List.foldl_cons, ih hnodup.2]
      by_cases hj : j = i
      · subst hj
        rw [if_neg hnodup.1, if_pos (List.mem_cons_self ..)]
      · have hview := h.frame s i j hj
        by_cases hmem : j ∈ l
        · rw [if_pos hmem, if_pos (List.mem_cons_of_mem _ hmem)]
          exact h.congr _ _ j (h.fixed_eq s i) hview
        · rw [if_neg hmem, if_neg (by simp [hj, hmem])]
          exact hview

end Local

end PyTorchSim.Library
