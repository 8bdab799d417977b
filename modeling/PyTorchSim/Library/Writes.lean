import Mathlib.Data.List.Basic
import Mathlib.Logic.Function.Basic

/-!
# Rows of writes to a memory

A memory is a function of its addresses.  After a row of writes, an address holds what the last
write to it wrote; when all writes to it wrote the same value, their order does not matter.
-/

set_option autoImplicit false

namespace PyTorchSim.Library

variable {ι κ β : Type*} [DecidableEq κ]

/-- The memory after writes of `value w` to `key w`, one for each `w` of a list. -/
def writes (key : ι → κ) (value : ι → β) (l : List ι) (m : κ → β) : κ → β :=
  l.foldl (fun m w => Function.update m (key w) (value w)) m

variable {key : ι → κ} {value : ι → β} {l l' : List ι} {m : κ → β} {a : κ} {v : β}

theorem writes_cons (w : ι) (l : List ι) (m : κ → β) :
    writes key value (w :: l) m = writes key value l (Function.update m (key w) (value w)) := rfl

theorem writes_append (l l' : List ι) (m : κ → β) :
    writes key value (l ++ l') m = writes key value l' (writes key value l m) :=
  List.foldl_append

/-- An address that is not written keeps its value. -/
theorem writes_of_not_mem (h : ∀ w ∈ l, key w ≠ a) : writes key value l m a = m a := by
  induction l generalizing m with
  | nil => rfl
  | cons w l ih =>
    rw [writes_cons, ih fun w' hw' => h w' (List.mem_cons_of_mem w hw')]
    exact Function.update_of_ne (h w (List.mem_cons_self ..)).symm _ _

/-- **An address that is written** holds the value, where all writes to it agree. -/
theorem writes_of_mem (hsame : ∀ w ∈ l, key w = a → value w = v) (hmem : ∃ w ∈ l, key w = a) :
    writes key value l m a = v := by
  induction l generalizing m with
  | nil =>
    obtain ⟨w, hw, -⟩ := hmem
    simp at hw
  | cons w l ih =>
    rw [writes_cons]
    have hrest : ∀ w' ∈ l, key w' = a → value w' = v :=
      fun w' hw' => hsame w' (List.mem_cons_of_mem w hw')
    by_cases hlater : ∃ w' ∈ l, key w' = a
    · exact ih hrest hlater
    · have hnone : ∀ w' ∈ l, key w' ≠ a := fun w' hw' heq => hlater ⟨w', hw', heq⟩
      obtain ⟨w', hw', heq⟩ := hmem
      rcases List.mem_cons.1 hw' with rfl | hw'
      · rw [writes_of_not_mem hnone, ← heq, Function.update_self]
        exact hsame w' (List.mem_cons_self ..) heq
      · exact absurd heq (hnone w' hw')

/-- Writes of the same values at the same addresses. -/
theorem writes_congr {value' : ι → β} (h : ∀ w ∈ l, value w = value' w) :
    writes key value l m = writes key value' l m := by
  induction l generalizing m with
  | nil => rfl
  | cons w l ih =>
    rw [writes_cons, writes_cons, h w (List.mem_cons_self ..)]
    exact ih fun w' hw' => h w' (List.mem_cons_of_mem w hw')

theorem writes_map {ι' : Type*} (f : ι' → ι) (l : List ι') (m : κ → β) :
    writes key value (l.map f) m = writes (key ∘ f) (value ∘ f) l m :=
  List.foldl_map

/-- A loop whose turns keep an invariant and are rows of writes where it holds is one row of writes.
-/
theorem foldl_writes_of_invariant {σ τ : Type*} (view : σ → κ → β) (step : σ → τ → σ)
    (part : τ → List ι) (inv : σ → Prop) (ts : List τ)
    (hkeep : ∀ t ∈ ts, ∀ s, inv s → inv (step s t))
    (hstep : ∀ t ∈ ts, ∀ s, inv s → view (step s t) = writes key value (part t) (view s)) (s : σ)
    (hs : inv s) : view (ts.foldl step s) = writes key value (ts.flatMap part) (view s) := by
  induction ts generalizing s with
  | nil => rfl
  | cons t ts ih =>
    have ht := List.mem_cons_self (a := t) (l := ts)
    rw [List.foldl_cons, List.flatMap_cons, writes_append, ← hstep t ht s hs]
    apply ih
    · exact fun t' ht' => hkeep t' (List.mem_cons_of_mem t ht')
    · exact fun t' ht' => hstep t' (List.mem_cons_of_mem t ht')
    · exact hkeep t ht s hs

/-- A loop whose turns are rows of writes is one row of writes. -/
theorem foldl_writes {σ τ : Type*} (view : σ → κ → β) (step : σ → τ → σ) (part : τ → List ι)
    (hstep : ∀ s t, view (step s t) = writes key value (part t) (view s)) (ts : List τ) (s : σ) :
    view (ts.foldl step s) = writes key value (ts.flatMap part) (view s) :=
  foldl_writes_of_invariant view step part (fun _ => True) ts (fun _ _ _ _ => trivial)
    (fun t _ s _ => hstep s t) s trivial

end PyTorchSim.Library
