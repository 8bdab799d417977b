import Mathlib.Data.List.TakeWhile
import Mathlib.Order.MinMax

/-!
# Lists of separated intervals

An interval is given by its ends `lo` and `hi`.  In a list where each interval ends below the ones
after it, the interval that has a point is the last one that begins at or below the point, so a
search for the last beginning and one comparison with its end find it.
-/

set_option autoImplicit false

namespace PyTorchSim.Library

variable {ι α : Type*} [LinearOrder α]

/-- Every interval ends below the intervals after it. -/
structure Separated (lo hi : ι → α) (l : List ι) : Prop where
  ordered : ∀ r ∈ l, lo r ≤ hi r
  apart : l.Pairwise fun r r' => hi r < lo r'

namespace Separated

variable {lo hi : ι → α} {l : List ι} {r : ι} {a : α}

theorem nil : Separated lo hi [] :=
  ⟨by simp, List.Pairwise.nil⟩

theorem cons (hr : lo r ≤ hi r) (hapart : ∀ r' ∈ l, hi r < lo r') (h : Separated lo hi l) :
    Separated lo hi (r :: l) := by
  constructor
  · intro r' hr'
    rcases List.mem_cons.1 hr' with rfl | hr'
    · exact hr
    · exact h.ordered r' hr'
  · exact List.pairwise_cons.2 ⟨hapart, h.apart⟩

theorem tail (h : Separated lo hi (r :: l)) : Separated lo hi l :=
  ⟨fun r' hr' => h.ordered r' (List.mem_cons_of_mem r hr'), (List.pairwise_cons.1 h.apart).2⟩

theorem head_apart (h : Separated lo hi (r :: l)) : ∀ r' ∈ l, hi r < lo r' :=
  (List.pairwise_cons.1 h.apart).1

/-- Separated intervals begin in the order they stand in. -/
theorem sorted (h : Separated lo hi l) : l.Pairwise fun r r' => lo r ≤ lo r' := by
  induction l with
  | nil => exact List.Pairwise.nil
  | cons r l ih =>
    refine List.pairwise_cons.2 ⟨fun r' hr' => ?_, ih h.tail⟩
    exact (h.ordered r (List.mem_cons_self ..)).trans (h.head_apart r' hr').le

/-- Separated intervals with a point in common are the same. -/
theorem unique (h : Separated lo hi l) {r r' : ι} (hr : r ∈ l) (hr' : r' ∈ l)
    (hlo : lo r ≤ a) (hhi : a ≤ hi r) (hlo' : lo r' ≤ a) (hhi' : a ≤ hi r') : r = r' := by
  induction l with
  | nil => simp at hr
  | cons head l ih =>
    rcases List.mem_cons.1 hr with rfl | hmem <;> rcases List.mem_cons.1 hr' with rfl | hmem'
    · rfl
    · exact absurd (hlo'.trans hhi) (not_le.2 (h.head_apart r' hmem'))
    · exact absurd (hlo.trans hhi') (not_le.2 (h.head_apart r hmem))
    · exact ih h.tail hmem hmem'

/-- **The search**: the last interval that begins at or below a point is the only one that may have
it. -/
theorem search (h : Separated lo hi l) (a : α) :
    (∃ r ∈ (l.takeWhile fun r => lo r ≤ a).getLast?, a ≤ hi r) ↔ ∃ r ∈ l, lo r ≤ a ∧ a ≤ hi r := by
  induction l with
  | nil => simp
  | cons r l ih =>
    by_cases hr : lo r ≤ a
    · rw [List.takeWhile_cons_of_pos (by simpa using hr)]
      have hih := ih h.tail
      cases hlast : (l.takeWhile fun r => lo r ≤ a).getLast? with
      | none =>
        rw [hlast] at hih
        have hnone : ¬ ∃ r ∈ l, lo r ≤ a ∧ a ≤ hi r := by
          rw [← hih]
          simp
        rw [List.getLast?_cons, hlast]
        simpa [hr] using fun r' hr' hlo hhi => absurd ⟨r', hr', hlo, hhi⟩ hnone
      | some r' =>
        rw [hlast] at hih
        have hmem : r' ∈ l.takeWhile fun r => lo r ≤ a := List.mem_of_getLast? hlast
        have hbelow : lo r' ≤ a := by simpa using List.mem_takeWhile_imp hmem
        -- the interval before the one found ends below the point
        have hpast : ¬ a ≤ hi r := by
          have := h.head_apart r' ((List.takeWhile_sublist _).subset hmem)
          exact not_le.2 (this.trans_le hbelow)
        rw [List.getLast?_cons, hlast]
        simp only [List.mem_cons, exists_eq_or_imp, hr, hpast, and_false, false_or]
        rw [← hih]
        simp
    · rw [List.takeWhile_cons_of_neg (by simpa using hr)]
      have hafter : ∀ r' ∈ l, ¬ lo r' ≤ a := by
        intro r' hr' hlo
        exact hr ((List.pairwise_cons.1 h.sorted).1 r' hr' |>.trans hlo)
      constructor
      · simp
      · rintro ⟨r', hr', hlo, -⟩
        rcases List.mem_cons.1 hr' with rfl | hr'
        · exact absurd hlo hr
        · exact absurd hlo (hafter r' hr')

end Separated

/-- The union of two intervals that meet is the interval between their ends. -/
theorem meet_union {lo hi lo' hi' a : α} (hlo : lo ≤ lo') (hmeet : lo' ≤ hi) :
    lo ≤ a ∧ a < max hi hi' ↔ (lo ≤ a ∧ a < hi) ∨ (lo' ≤ a ∧ a < hi') := by
  rw [lt_max_iff]
  constructor
  · rintro ⟨hle, hlt | hlt⟩
    · exact Or.inl ⟨hle, hlt⟩
    · rcases lt_or_ge a hi with h | h
      · exact Or.inl ⟨hle, h⟩
      · exact Or.inr ⟨hmeet.trans h, hlt⟩
  · rintro (⟨hle, hlt⟩ | ⟨hle, hlt⟩)
    · exact ⟨hle, Or.inl hlt⟩
    · exact ⟨hlo.trans hle, Or.inr hlt⟩

/-- The same with the ends inside. -/
theorem meet_union_closed {lo hi lo' hi' a : α} (hlo : lo ≤ lo') (hmeet : lo' ≤ hi) :
    lo ≤ a ∧ a ≤ max hi hi' ↔ (lo ≤ a ∧ a ≤ hi) ∨ (lo' ≤ a ∧ a ≤ hi') := by
  rw [le_max_iff]
  constructor
  · rintro ⟨hle, hlt | hlt⟩
    · exact Or.inl ⟨hle, hlt⟩
    · rcases le_or_gt a hi with h | h
      · exact Or.inl ⟨hle, h⟩
      · exact Or.inr ⟨hmeet.trans h.le, hlt⟩
  · rintro (⟨hle, hlt⟩ | ⟨hle, hlt⟩)
    · exact ⟨hle, Or.inl hlt⟩
    · exact ⟨hlo.trans hle, Or.inr hlt⟩

end PyTorchSim.Library
