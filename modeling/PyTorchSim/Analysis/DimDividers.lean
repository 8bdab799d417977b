import Mathlib.Data.List.Dedup
import PyTorchSim.Analysis.TileConstraints
import PyTorchSim.Library.Runs

/-!
# The dictionary of dividers

The terms of the operands are collected under the expression they divide.  The keys stand in the
order in which they were found, and the set of a key holds the terms that divide it.
-/

set_option autoImplicit false

namespace PyTorchSim.Analysis

open PyTorchSim.Frontend PyTorchSim.Library

variable {implicitOps implicitOps' : List ReadOperand} {dimDividers : DimDividers}
  {args : List (ℤ × IndexAtom)} {exprs exprs' : List ModularExpr} {expr : ModularExpr}
  {base : IndexBase}

/-! ## The terms of the operands -/

/-- The expression that a term contributes. -/
def termExpr (ranges : ℕ → ℕ) (arg : ℤ × IndexAtom) : Option ModularExpr :=
  match modularExpr ranges arg.2 with
  | .ok expr => expr
  | .error _ => none

/-- The expressions of the operands, in the order in which they are found. -/
def discovered (implicitOps : List ReadOperand) : List ModularExpr :=
  implicitOps.flatMap fun operand => operand.args.filterMap (termExpr operand.ranges)

/-- No term of the operands is refused. -/
def Extractable (implicitOps : List ReadOperand) : Prop :=
  ∀ operand ∈ implicitOps, ∀ arg ∈ operand.args, ∃ expr, modularExpr operand.ranges arg.2 = .ok expr

theorem extractTerms_eq {ranges : ℕ → ℕ} (dimDividers : DimDividers)
    (hargs : ∀ arg ∈ args, ∃ expr, modularExpr ranges arg.2 = .ok expr) :
    extractTerms ranges dimDividers args =
      .ok ((args.filterMap (termExpr ranges)).foldl addDivider dimDividers) := by
  induction args generalizing dimDividers with
  | nil => rfl
  | cons arg args ih =>
    obtain ⟨expr, hexpr⟩ := hargs arg List.mem_cons_self
    have hrest := fun other hother => hargs other (List.mem_cons_of_mem arg hother)
    have hterm : termExpr ranges arg = expr := by
      rw [termExpr, hexpr]
    unfold extractTerms
    rw [hexpr, List.filterMap_cons, hterm]
    cases expr with
    | none => exact ih dimDividers hrest
    | some expr => exact ih (addDivider dimDividers expr) hrest

theorem extractDividers_foldlM (dimDividers : DimDividers) (hops : Extractable implicitOps) :
    implicitOps.foldlM (fun dimDividers operand =>
      extractTerms operand.ranges dimDividers operand.args) dimDividers =
      .ok ((discovered implicitOps).foldl addDivider dimDividers) := by
  induction implicitOps generalizing dimDividers with
  | nil => rfl
  | cons operand implicitOps ih =>
    rw [List.foldlM_cons, extractTerms_eq dimDividers (hops operand List.mem_cons_self)]
    have hrest :=
      ih ((operand.args.filterMap (termExpr operand.ranges)).foldl addDivider dimDividers)
      fun other hother => hops other (List.mem_cons_of_mem operand hother)
    rw [discovered, List.flatMap_cons, List.foldl_append]
    exact hrest

theorem extractDividers_eq (hops : Extractable implicitOps) :
    extractDividers implicitOps = .ok ((discovered implicitOps).foldl addDivider []) :=
  extractDividers_foldlM [] hops

/-- The dictionary holds the expressions found so far. -/
structure Collected (exprs : List ModularExpr) (dimDividers : DimDividers) : Prop where
  keys_nodup : (dimDividers.map Prod.fst).Nodup
  mem_keys : ∀ base, base ∈ dimDividers.map Prod.fst ↔ base ∈ exprs.map ModularExpr.base
  mem_set : ∀ item ∈ dimDividers, ∀ expr, expr ∈ item.2 ↔ expr ∈ exprs ∧ expr.base = item.1
  head_key : (dimDividers.map Prod.fst).head? = (exprs.map ModularExpr.base).head?

theorem Collected.nil : Collected [] [] := by
  constructor <;> simp

theorem map_fst_addDivider_of_mem (hmem : expr.base ∈ dimDividers.map Prod.fst) :
    (addDivider dimDividers expr).map Prod.fst = dimDividers.map Prod.fst := by
  rw [addDivider, if_pos hmem, List.map_map]
  apply List.map_congr_left
  intro item _
  by_cases hbase : item.1 = expr.base
  · simp [hbase]
  · simp [hbase]

theorem Collected.addDivider (h : Collected exprs dimDividers) (expr : ModularExpr) :
    Collected (exprs ++ [expr]) (addDivider dimDividers expr) := by
  by_cases hmem : expr.base ∈ dimDividers.map Prod.fst
  · have hkeys := map_fst_addDivider_of_mem hmem
    have hne : exprs.map ModularExpr.base ≠ [] := by
      intro hnil
      rw [h.mem_keys, hnil] at hmem
      cases hmem
    constructor
    · rw [hkeys]
      exact h.keys_nodup
    · intro base
      rw [hkeys, h.mem_keys, List.map_append, List.mem_append, List.map_singleton,
        List.mem_singleton]
      constructor
      · exact Or.inl
      · rintro (hbase | rfl)
        · exact hbase
        · exact (h.mem_keys _).1 hmem
    · intro item hitem other
      rw [PyTorchSim.Frontend.addDivider, if_pos hmem, List.mem_map] at hitem
      obtain ⟨old, hold, rfl⟩ := hitem
      have hset := h.mem_set old hold other
      by_cases hbase : old.1 = expr.base
      · rw [if_pos hbase]
        simp only [List.mem_insert_iff, hset, List.mem_append, List.mem_singleton]
        constructor
        · rintro (rfl | hother)
          · exact ⟨Or.inr rfl, hbase.symm⟩
          · exact ⟨Or.inl hother.1, hother.2⟩
        · rintro ⟨hother | rfl, hkey⟩
          · exact Or.inr ⟨hother, hkey⟩
          · exact Or.inl rfl
      · rw [if_neg hbase]
        simp only [hset, List.mem_append, List.mem_singleton]
        constructor
        · exact fun hother => ⟨Or.inl hother.1, hother.2⟩
        · rintro ⟨hother | rfl, hkey⟩
          · exact ⟨hother, hkey⟩
          · exact absurd hkey.symm hbase
    · rw [hkeys, h.head_key, List.map_append, List.head?_append_of_ne_nil _ hne]
  · have hnew : ∀ other ∈ exprs, other.base ≠ expr.base := by
      intro other hother heq
      exact hmem ((h.mem_keys _).2 (heq ▸ List.mem_map_of_mem hother))
    unfold PyTorchSim.Frontend.addDivider
    rw [if_neg hmem]
    constructor
    · rw [List.map_append, List.nodup_append]
      refine ⟨h.keys_nodup, List.nodup_singleton _, ?_⟩
      intro base hbase other hother heq
      rw [List.map_singleton, List.mem_singleton] at hother
      rw [heq, hother] at hbase
      exact hmem hbase
    · intro base
      rw [List.map_append, List.map_append, List.mem_append, List.mem_append, h.mem_keys]
      rfl
    · intro item hitem other
      rcases List.mem_append.1 hitem with hold | hlast
      · rw [h.mem_set item hold other, List.mem_append, List.mem_singleton]
        constructor
        · exact fun hother => ⟨Or.inl hother.1, hother.2⟩
        · rintro ⟨hother | rfl, hkey⟩
          · exact ⟨hother, hkey⟩
          · exact absurd (hkey ▸ List.mem_map_of_mem hold) hmem
      · rw [List.mem_singleton] at hlast
        rw [hlast]
        simp only [List.mem_singleton, List.mem_append]
        constructor
        · rintro rfl
          exact ⟨Or.inr rfl, rfl⟩
        · rintro ⟨hother | rfl, hkey⟩
          · exact absurd hkey (hnew other hother)
          · rfl
    · cases hkeys : dimDividers.map Prod.fst with
      | nil =>
        have hnil : exprs.map ModularExpr.base = [] := by
          rw [← List.head?_eq_none_iff, ← h.head_key, hkeys]
          rfl
        simp only [List.map_append, hkeys, hnil]
        rfl
      | cons key keys =>
        have hne : exprs.map ModularExpr.base ≠ [] := by
          intro hnil
          have hhead := h.head_key
          rw [hkeys, hnil] at hhead
          cases hhead
        rw [List.map_append, List.map_append, List.head?_append_of_ne_nil _ (by simp [hkeys]),
          List.head?_append_of_ne_nil _ hne, h.head_key]

theorem Collected.foldl (h : Collected exprs dimDividers) (rest : List ModularExpr) :
    Collected (exprs ++ rest) (rest.foldl PyTorchSim.Frontend.addDivider dimDividers) := by
  induction rest generalizing exprs dimDividers with
  | nil =>
    rw [List.append_nil]
    exact h
  | cons expr rest ih =>
    have hnext := ih (h.addDivider expr)
    rw [List.append_assoc] at hnext
    exact hnext

/-- The dictionary that is built from the expressions found. -/
theorem collected_discovered (exprs : List ModularExpr) :
    Collected exprs (exprs.foldl addDivider []) :=
  Collected.nil.foldl exprs

/-- The number of keys is the number of expressions that are divided. -/
theorem Collected.length_eq (h : Collected exprs dimDividers) :
    dimDividers.length = (exprs.map ModularExpr.base).dedup.length := by
  have hperm : (dimDividers.map Prod.fst).Perm (exprs.map ModularExpr.base).dedup := by
    rw [List.perm_ext_iff_of_nodup h.keys_nodup (List.nodup_dedup _)]
    intro base
    rw [h.mem_keys, List.mem_dedup]
  rw [← hperm.length_eq, List.length_map]

end PyTorchSim.Analysis
