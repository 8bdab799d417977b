import Mathlib.Data.List.Nodup
import Mathlib.Data.List.Perm.Subperm

/-!
# Places that hold a job at most once

`mem p` lists the jobs that are at the place `p`.  `Exclusive mem` says that a job is at one
place at most, and there once.  It is kept when jobs leave their places and when a job that
is nowhere enters one.
-/

set_option autoImplicit false

namespace PyTorchSim.Library

variable {κ α : Type*}

/-- Every job is at one place at most, and is listed there once. -/
structure Exclusive (mem : κ → List α) : Prop where
  nodup : ∀ p, (mem p).Nodup
  unique : ∀ p q i, i ∈ mem p → i ∈ mem q → p = q

namespace Exclusive

variable {mem mem' : κ → List α} {p q : κ} {i : α}

theorem empty : Exclusive (fun _ : κ => ([] : List α)) :=
  ⟨fun _ => List.nodup_nil, fun _ _ _ h => absurd h List.not_mem_nil⟩

/-- Jobs leave their places. -/
theorem shrink (h : Exclusive mem) (hsub : ∀ p, (mem' p).Subperm (mem p)) : Exclusive mem' := by
  constructor
  · intro p
    obtain ⟨l, hl, hle⟩ := hsub p
    exact hl.nodup_iff.mp ((h.nodup p).sublist hle)
  · intro p q i hp hq
    exact h.unique p q i ((hsub p).subset hp) ((hsub q).subset hq)

/-- A job that leaves the only place that lists it is nowhere. -/
theorem nowhere (h : Exclusive mem) (hsub : ∀ p, (mem' p).Subperm (mem p)) (hp : i ∈ mem p)
    (hnot : i ∉ mem' p) : ∀ q, i ∉ mem' q := by
  intro q hq
  have hpq : p = q := h.unique p q i hp ((hsub q).subset hq)
  exact hnot (hpq ▸ hq)

/-- A job that is nowhere enters a place. -/
theorem enter (h : Exclusive mem) (hnew : ∀ q, i ∉ mem q) (hp : (mem' p).Perm (i :: mem p))
    (hother : ∀ q, q ≠ p → (mem' q).Perm (mem q)) : Exclusive mem' := by
  classical
  have hcases : ∀ q j, j ∈ mem' q → j ∈ mem q ∨ (j = i ∧ q = p) := by
    intro q j hj
    by_cases hq : q = p
    · subst hq
      rcases List.mem_cons.mp (hp.mem_iff.mp hj) with rfl | hj
      · exact .inr ⟨rfl, rfl⟩
      · exact .inl hj
    · exact .inl ((hother q hq).mem_iff.mp hj)
  constructor
  · intro q
    by_cases hq : q = p
    · subst hq
      exact hp.nodup_iff.mpr (List.nodup_cons.mpr ⟨hnew q, h.nodup q⟩)
    · exact (hother q hq).nodup_iff.mpr (h.nodup q)
  · intro q r j hq hr
    rcases hcases q j hq with hq' | ⟨rfl, rfl⟩ <;> rcases hcases r j hr with hr' | ⟨hj, rfl⟩
    · exact h.unique q r j hq' hr'
    · exact absurd (hj ▸ hq') (hnew q)
    · exact absurd hr' (hnew r)
    · rfl

/-- A job goes from one place to another. -/
theorem move [DecidableEq κ] (h : Exclusive mem) (hpq : p ≠ q)
    (hp : (mem p).Perm (i :: mem' p)) (hq : (mem' q).Perm (i :: mem q))
    (hother : ∀ r, r ≠ p → r ≠ q → mem' r = mem r) : Exclusive mem' := by
  have hout : ∀ r, (Function.update mem p (mem' p) r).Subperm (mem r) := by
    intro r
    by_cases hr : r = p
    · subst hr
      rw [Function.update_self]
      exact (List.sublist_cons_self i _).subperm.trans hp.symm.subperm
    · rw [Function.update_of_ne hr]
  have hmem : i ∈ mem p := hp.mem_iff.mpr List.mem_cons_self
  have hnot : i ∉ Function.update mem p (mem' p) p := by
    rw [Function.update_self]
    exact (List.nodup_cons.mp (hp.nodup_iff.mp (h.nodup p))).1
  refine (h.shrink hout).enter (h.nowhere hout hmem hnot) (p := q) ?_ fun r hr => ?_
  · rw [Function.update_of_ne hpq.symm]
    exact hq
  · by_cases hrp : r = p
    · subst hrp
      rw [Function.update_self]
    · rw [Function.update_of_ne hrp, hother r hrp hr]

/-- Jobs that are nowhere enter, each the place `dst` names for it. -/
theorem enterAll [DecidableEq κ] {l : List α} {dst : α → κ} (h : Exclusive mem) (hl : l.Nodup)
    (hnew : ∀ j ∈ l, ∀ q, j ∉ mem q) (hmem : ∀ q, mem' q = mem q ++ l.filter (dst · = q)) :
    Exclusive mem' := by
  have hnone : ∀ q j, j ∈ mem' q → j ∈ mem q ∨ (j ∈ l ∧ dst j = q) := by
    intro q j hj
    rw [hmem q, List.mem_append, List.mem_filter, decide_eq_true_eq] at hj
    exact hj
  constructor
  · intro q
    rw [hmem q, List.nodup_append]
    refine ⟨h.nodup q, hl.filter _, ?_⟩
    intro a ha b hb hab
    exact hnew b (List.mem_filter.mp hb).1 q (hab ▸ ha)
  · intro q r j hq hr
    rcases hnone q j hq with hq' | ⟨hjl, hjq⟩ <;> rcases hnone r j hr with hr' | ⟨hjl', hjr⟩
    · exact h.unique q r j hq' hr'
    · exact absurd hq' (hnew j hjl' q)
    · exact absurd hr' (hnew j hjl r)
    · exact hjq.symm.trans hjr

end Exclusive

end PyTorchSim.Library
