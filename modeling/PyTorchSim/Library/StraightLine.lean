import Mathlib.Algebra.Order.Ring.Nat
import Mathlib.Data.List.Induction

/-!
# Straight-line programs

A straight-line program is a list of instructions; the variable `x` is the result of the
instruction at position `x`.  An instruction reads the values of the variables it uses, and it may
have no value.

Adding instructions does not change the values of the variables that are there
(`value_of_isPrefix`).  When every instruction uses earlier variables only, the value of a variable
is its instruction evaluated over the values of the whole program (`value_eq`), so that a variable
with the same instruction may be used in place of a new one.
-/

set_option autoImplicit false

namespace PyTorchSim.Library

namespace StraightLine

variable {ι V : Type*}

/-- The value of a variable in a list of values; a variable outside of it has none. -/
def lookup (vals : List (Option V)) (x : ℕ) : Option V := vals[x]?.join

/-- The values of the instructions, one after the other. -/
def run (eval : ι → (ℕ → Option V) → Option V) (p : List ι) : List (Option V) :=
  p.foldl (fun vals op => vals ++ [eval op (lookup vals)]) []

/-- The value of a variable of a program. -/
def value (eval : ι → (ℕ → Option V) → Option V) (p : List ι) (x : ℕ) : Option V :=
  lookup (run eval p) x

/-- Every instruction uses variables before its own. -/
def Scoped (uses : ι → List ℕ) (p : List ι) : Prop :=
  ∀ j op, p[j]? = some op → ∀ x ∈ uses op, x < j

/-- An instruction reads the values of the variables it uses, and no others. -/
def Local (eval : ι → (ℕ → Option V) → Option V) (uses : ι → List ℕ) : Prop :=
  ∀ op env env', (∀ x ∈ uses op, env x = env' x) → eval op env = eval op env'

section

variable {eval : ι → (ℕ → Option V) → Option V} {uses : ι → List ℕ} {p q : List ι} {op : ι}
  {x j : ℕ}

theorem run_concat (p : List ι) (op : ι) :
    run eval (p ++ [op]) = run eval p ++ [eval op (value eval p)] := by
  unfold run
  rw [List.foldl_append]
  rfl

theorem length_run (p : List ι) : (run eval p).length = p.length := by
  induction p using List.reverseRecOn with
  | nil => rfl
  | append_singleton p op ih =>
    simp only [run_concat, List.length_append, ih, List.length_singleton]

theorem run_isPrefix (h : p <+: q) : run eval p <+: run eval q := by
  obtain ⟨rest, rfl⟩ := h
  induction rest using List.reverseRecOn with
  | nil => simp
  | append_singleton rest op ih =>
    rw [← List.append_assoc, run_concat]
    exact ih.trans (List.prefix_append _ _)

/-- **The values that are there stay**: a longer program gives a variable the value it had. -/
theorem value_of_isPrefix (h : p <+: q) (hx : x < p.length) : value eval q x = value eval p x := by
  have hprefix : run eval p <+: run eval q := run_isPrefix h
  obtain ⟨rest, hrest⟩ := hprefix
  unfold value lookup
  rw [← hrest, List.getElem?_append_left (by rwa [length_run])]

theorem value_concat_length (p : List ι) (op : ι) :
    value eval (p ++ [op]) p.length = eval op (value eval p) := by
  unfold value lookup
  rw [run_concat, List.getElem?_append_right (length_run p).le, length_run, Nat.sub_self]
  rfl

theorem Scoped.of_isPrefix (hq : Scoped uses q) (h : p <+: q) : Scoped uses p := by
  intro j op hop
  obtain ⟨rest, rfl⟩ := h
  exact hq j op (by rw [List.getElem?_append_left (List.getElem?_eq_some_iff.mp hop).1, hop])

theorem scoped_nil : Scoped uses ([] : List ι) := by
  intro j op hop
  simp at hop

theorem scoped_concat (hp : Scoped uses p) (hop : ∀ x ∈ uses op, x < p.length) :
    Scoped uses (p ++ [op]) := by
  intro j op' hop' x hx
  rcases Nat.lt_or_ge j p.length with hj | hj
  · rw [List.getElem?_append_left hj] at hop'
    exact hp j op' hop' x hx
  · rw [List.getElem?_append_right hj, List.getElem?_singleton] at hop'
    split at hop'
    · cases hop'
      exact lt_of_lt_of_le (hop x hx) hj
    · cases hop'

/-- **The value of a variable is its instruction evaluated over the whole program.** -/
theorem value_eq (hlocal : Local eval uses) (hp : Scoped uses p) (hop : p[j]? = some op) :
    value eval p j = eval op (value eval p) := by
  obtain ⟨hj, hget⟩ := List.getElem?_eq_some_iff.mp hop
  have htake : p.take (j + 1) = p.take j ++ [op] := by
    rw [List.take_add_one, hop]
    rfl
  have hlength : (p.take j).length = j := List.length_take_of_le (Nat.le_of_lt hj)
  have hown : value eval (p.take (j + 1)) j = eval op (value eval (p.take j)) := by
    have hlast :
      value eval (p.take j ++ [op]) (p.take j).length = eval op (value eval (p.take j)) :=
      value_concat_length (p.take j) op
    rwa [hlength, ← htake] at hlast
  have hwhole : value eval p j = value eval (p.take (j + 1)) j :=
    value_of_isPrefix (List.take_prefix _ _) (by rw [List.length_take_of_le hj]; omega)
  rw [hwhole, hown]
  -- the variables used lie before the instruction, and the rest of the program leaves them alone
  refine hlocal op _ _ fun x hx => ?_
  exact (value_of_isPrefix (List.take_prefix j p) (by rw [hlength]; exact hp j op hop x hx)).symm

end

end StraightLine

end PyTorchSim.Library
