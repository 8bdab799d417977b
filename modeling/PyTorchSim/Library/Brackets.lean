import PyTorchSim.Library.Delimited

/-!
# Words of brackets

The elements of a word are opening, closing or plain.  In a nested word every opening element is
followed by the closing element that matches it, with a nested word between the two.  In a nested
word without repetitions an opening element is matched by one closing element only.
-/

set_option autoImplicit false

namespace PyTorchSim.Library

inductive Bracket where
  | opening
  | closing
  | plain
deriving DecidableEq

variable {α : Type} (kind : α → Bracket)

inductive Nested : List α → Prop
  | nil : Nested []
  | plain {a : α} {w : List α} : kind a = .plain → Nested w → Nested (a :: w)
  | block {a b : α} {v w : List α} : kind a = .opening → kind b = .closing → Nested v →
      Nested w → Nested (a :: (v ++ b :: w))

/-- The closing element `b` matches the opening element `a`. -/
def Matches (w : List α) (a b : α) : Prop :=
  ∃ u v t, w = u ++ a :: (v ++ b :: t) ∧ kind a = .opening ∧ kind b = .closing ∧ Nested kind v

/-- The openings of a word less its closings. -/
def height : List α → ℤ
  | [] => 0
  | a :: w => (match kind a with | .opening => 1 | .closing => -1 | .plain => 0) + height w

variable {kind}

theorem height_append (v w : List α) : height kind (v ++ w) = height kind v + height kind w := by
  induction v with
  | nil => simp [height]
  | cons a v ih => simp [height, ih, Int.add_assoc]

theorem Nested.height_eq_zero {w : List α} (h : Nested kind w) : height kind w = 0 := by
  induction h with
  | nil => rfl
  | plain ha _ ih => simp [height, ha, ih]
  | block ha hb _ _ ihv ihw => simp [height, height_append, ha, hb, ihv, ihw]

/-- No start of a nested word has more closings than openings. -/
theorem Nested.height_nonneg {w : List α} (h : Nested kind w) {u t : List α} (hw : w = u ++ t) :
    0 ≤ height kind u := by
  induction h generalizing u t with
  | nil =>
    obtain ⟨rfl, -⟩ := List.append_eq_nil_iff.1 hw.symm
    exact Int.le_refl 0
  | @plain a w ha _ ih =>
    cases u with
    | nil => exact Int.le_refl 0
    | cons c u =>
      obtain ⟨rfl, hrest⟩ := List.cons.inj hw
      simpa [height, ha] using ih hrest
  | @block a b v w ha hb hv _ ihv ihw =>
    cases u with
    | nil => exact Int.le_refl 0
    | cons c u =>
      obtain ⟨rfl, hrest⟩ := List.cons.inj hw
      rw [height, ha]
      rcases List.append_eq_append_iff.1 hrest with ⟨s, rfl, hs⟩ | ⟨s, rfl, hs⟩
      · -- The start reaches beyond the inner word.
        cases s with
        | nil => simp [hv.height_eq_zero]
        | cons d s =>
          obtain ⟨rfl, htail⟩ := List.cons.inj hs
          have hs : 0 ≤ height kind s := ihw htail
          simp only [height_append, height, hb, hv.height_eq_zero]
          omega
      · have hu : 0 ≤ height kind u := ihv rfl
        simp only
        omega

/-- A nested word ends at the first closing element that is not matched in it. -/
theorem Nested.append_closing_inj {v v' t t' : List α} {b b' : α} (hv : Nested kind v)
    (hv' : Nested kind v') (hb : kind b = .closing) (hb' : kind b' = .closing)
    (h : v ++ b :: t = v' ++ b' :: t') : b = b' := by
  have hshort : ∀ {v v' s t : List α} {b : α}, Nested kind v → Nested kind v' →
      kind b = .closing → v' = v ++ s → s ≠ [] → (∃ r, b :: t = s ++ r) → False := by
    rintro v v' s t b hv hv' hb rfl hs ⟨r, hr⟩
    obtain ⟨c, s, rfl⟩ := List.exists_cons_of_ne_nil hs
    obtain ⟨rfl, -⟩ := List.cons.inj hr
    have hle := hv'.height_nonneg (u := v ++ [b]) (t := s) (by simp)
    simp [height_append, height, hb, hv.height_eq_zero] at hle
  rcases List.append_eq_append_iff.1 h with ⟨s, hs, hrest⟩ | ⟨s, hs, hrest⟩
  · by_cases hnil : s = []
    · rw [hnil] at hrest
      exact (List.cons.inj hrest).1
    · exact (hshort hv hv' hb hs hnil ⟨_, hrest⟩).elim
  · by_cases hnil : s = []
    · rw [hnil] at hrest
      exact (List.cons.inj hrest).1.symm
    · exact (hshort hv' hv hb' hs hnil ⟨_, hrest⟩).elim

theorem Matches.unique [DecidableEq α] {w : List α} {a b b' : α} (hw : w.Nodup)
    (h : Matches kind w a b) (h' : Matches kind w a b') : b = b' := by
  obtain ⟨u, v, t, rfl, -, hb, hv⟩ := h
  obtain ⟨u', v', t', heq, -, hb', hv'⟩ := h'
  have ha : a ∉ u := by
    intro hmem
    exact (List.nodup_append.1 hw).2.2 a hmem a List.mem_cons_self rfl
  have ha' : a ∉ u' := by
    intro hmem
    rw [heq] at hw
    exact (List.nodup_append.1 hw).2.2 a hmem a List.mem_cons_self rfl
  obtain ⟨-, hrest⟩ := append_delimiter_inj ha ha' heq
  exact hv.append_closing_inj hv' hb hb' hrest

/-- Matching pairs of a part are pairs of the whole. -/
theorem Matches.append {w : List α} {a b : α} (h : Matches kind w a b) (s r : List α) :
    Matches kind (s ++ w ++ r) a b := by
  obtain ⟨u, v, t, rfl, ha, hb, hv⟩ := h
  exact ⟨s ++ u, v, t ++ r, by simp, ha, hb, hv⟩

/-- In a nested word every opening element is matched. -/
theorem Nested.exists_matches {w : List α} (h : Nested kind w) {a : α} (ha : a ∈ w)
    (hopen : kind a = .opening) : ∃ b, Matches kind w a b := by
  induction h with
  | nil => cases ha
  | @plain c w hc _ ih =>
    rcases List.mem_cons.1 ha with rfl | ha
    · rw [hc] at hopen
      cases hopen
    · obtain ⟨b, hb⟩ := ih ha
      exact ⟨b, by simpa using hb.append [c] []⟩
  | @block c d v w hc hd hv _ ihv ihw =>
    rcases List.mem_cons.1 ha with rfl | ha
    · exact ⟨d, [], v, w, rfl, hc, hd, hv⟩
    · rcases List.mem_append.1 ha with ha | ha
      · obtain ⟨b, hb⟩ := ihv ha
        exact ⟨b, by simpa using hb.append [c] (d :: w)⟩
      · rcases List.mem_cons.1 ha with rfl | ha
        · rw [hd] at hopen
          cases hopen
        · obtain ⟨b, hb⟩ := ihw ha
          exact ⟨b, by simpa using hb.append (c :: (v ++ [d])) []⟩

end PyTorchSim.Library
