import Mathlib.Data.List.Nodup
import Mathlib.Data.List.Range
import Mathlib.Tactic.SplitIfs

/-!
# Turns in a circle

The numbers below `n` take turns: a scan starts at a pointer, goes once around and finds the
first number that asks; the pointer then moves behind it.  `turnsTo n start x` is how many
numbers come before `x` in such a scan.

`Passed n x r gs r'` says that the pointer went from `r` to `r'` while `x` asked and the
numbers `gs` were found instead.  No number is found twice there, and there are fewer of them
than numbers before `x`.
-/

set_option autoImplicit false

namespace PyTorchSim.Library

/-- The numbers below `n` in turn. -/
def rotation (n start : ℕ) : List ℕ := (List.range n).map fun i => (start + i) % n

/-- How many numbers come before `x`. -/
def turnsTo (n start x : ℕ) : ℕ := if start ≤ x then x - start else x + n - start

variable {n start x y : ℕ} {p : ℕ → Bool}

theorem turnsTo_lt (hstart : start < n) (hx : x < n) : turnsTo n start x < n := by
  unfold turnsTo
  split <;> omega

/-- A place in the circle is counted from the pointer. -/
theorem add_mod_of_lt {i : ℕ} (hstart : start < n) (hi : i < n) :
    (start + i) % n = if start + i < n then start + i else start + i - n := by
  split
  · exact Nat.mod_eq_of_lt ‹_›
  · rw [Nat.mod_eq_sub_mod (by omega), Nat.mod_eq_of_lt (by omega)]

theorem add_turnsTo_mod (hstart : start < n) (hx : x < n) :
    (start + turnsTo n start x) % n = x := by
  rw [add_mod_of_lt hstart (turnsTo_lt hstart hx)]
  unfold turnsTo
  split <;> split <;> omega

/-- No two numbers come after the same number of others. -/
theorem eq_of_turnsTo_eq (hstart : start < n) (hx : x < n) (hy : y < n)
    (h : turnsTo n start x = turnsTo n start y) : x = y := by
  rw [← add_turnsTo_mod hstart hx, h, add_turnsTo_mod hstart hy]

theorem turnsTo_add_mod {i : ℕ} (hstart : start < n) (hi : i < n) :
    turnsTo n start ((start + i) % n) = i := by
  rw [add_mod_of_lt hstart hi]
  unfold turnsTo
  split <;> split <;> omega

theorem mem_rotation (hstart : start < n) : x ∈ rotation n start ↔ x < n := by
  unfold rotation
  rw [List.mem_map]
  constructor
  · rintro ⟨i, hi, rfl⟩
    exact Nat.mod_lt _ (by omega)
  · intro hx
    exact ⟨turnsTo n start x, List.mem_range.mpr (turnsTo_lt hstart hx),
      add_turnsTo_mod hstart hx⟩

/-- A scan finds nothing only if no number asks. -/
theorem find_rotation_eq_none (hstart : start < n) :
    (rotation n start).find? p = none ↔ ∀ x < n, p x = false := by
  simp [mem_rotation hstart]

/-- What a scan finds asks, and no number before it does. -/
theorem find_rotation_eq_some (hstart : start < n)
    (h : (rotation n start).find? p = some x) :
    x < n ∧ p x = true ∧ ∀ y < n, p y = true → turnsTo n start x ≤ turnsTo n start y := by
  have hmem := (mem_rotation hstart).mp (List.mem_of_find?_eq_some h)
  refine ⟨hmem, List.find?_some h, ?_⟩
  intro y hy hpy
  obtain ⟨-, i, hi, hix, hbefore⟩ := List.find?_eq_some_iff_getElem.mp h
  have hin : i < n := by simpa [rotation] using hi
  have hplace : turnsTo n start x = i := by
    rw [← hix]
    simp only [rotation, List.getElem_map, List.getElem_range]
    exact turnsTo_add_mod hstart hin
  rw [hplace]
  by_contra hlt
  have hyplace := hbefore (turnsTo n start y) (by omega)
  simp [rotation, add_turnsTo_mod hstart hy, hpy] at hyplace

/-- The pointer behind a number that came before `x` is closer to `x`. -/
theorem turnsTo_succ_mod (hstart : start < n) (hx : x < n) (hy : y < n)
    (h : turnsTo n start y < turnsTo n start x) :
    turnsTo n ((y + 1) % n) x + turnsTo n start y + 1 = turnsTo n start x := by
  rw [add_mod_of_lt hy (by unfold turnsTo at h; split at h <;> split at h <;> omega : 1 < n)]
  unfold turnsTo at h ⊢
  split at h <;> split at h <;> split <;> split <;> omega

/-- A number found between the pointer `r'` and `x` was in its place for `r` already. -/
theorem turnsTo_add_turnsTo {r r' g : ℕ} (hr : r < n) (hr' : r' < n) (hx : x < n)
    (hle : turnsTo n r' x ≤ turnsTo n r x) (hlt : turnsTo n r' g < turnsTo n r' x) :
    turnsTo n r g + turnsTo n r' x = turnsTo n r x + turnsTo n r' g := by
  unfold turnsTo at hlt hle ⊢
  split_ifs at hlt hle ⊢ <;> omega

/-- The pointer goes from `r` to the last argument while `x` asks and other numbers are found. -/
inductive Passed (n x r : ℕ) : List ℕ → ℕ → Prop
  | nil : Passed n x r [] r
  | found {gs : List ℕ} {r' : ℕ} (g : ℕ) : Passed n x r gs r' → g < n →
      turnsTo n r' g < turnsTo n r' x → Passed n x r (gs ++ [g]) ((g + 1) % n)

/-- The numbers found lie between the two pointers, each in a place of its own. -/
theorem Passed.between {r r' : ℕ} {gs : List ℕ} (h : Passed n x r gs r') (hr : r < n)
    (hx : x < n) :
    r' < n ∧ gs.Nodup ∧ turnsTo n r' x + gs.length ≤ turnsTo n r x ∧
      ∀ g ∈ gs, g < n ∧ turnsTo n r g + turnsTo n r' x < turnsTo n r x := by
  induction h with
  | nil => exact ⟨hr, List.nodup_nil, by simp, by simp⟩
  | @found gs r' g _ hg hlt ih =>
      obtain ⟨hr', hnodup, hlength, hgs⟩ := ih
      have hnext := turnsTo_succ_mod hr' hx hg hlt
      have hplace := turnsTo_add_turnsTo hr hr' hx (by omega) hlt
      refine ⟨Nat.mod_lt _ (by omega), ?_, ?_, ?_⟩
      · rw [List.nodup_append]
        refine ⟨hnodup, List.nodup_singleton g, ?_⟩
        rintro a ha b hb rfl
        have := (hgs a ha).2
        rw [List.mem_singleton.mp hb] at this
        omega
      · rw [List.length_append, List.length_singleton]
        omega
      · intro a ha
        rcases List.mem_append.mp ha with ha | ha
        · have := hgs a ha
          omega
        · rw [List.mem_singleton.mp ha]
          omega

end PyTorchSim.Library
