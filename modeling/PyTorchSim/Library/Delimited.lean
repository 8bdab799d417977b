import Mathlib.Data.List.DropRight

/-!
# Text of delimited fields

The fields of a text are what a loop of reads takes from it, where a read stops at the next
delimiter or at the end of the text.  There is no read at the end of the text: a last field that
is empty is not one of them.
-/

set_option autoImplicit false

namespace PyTorchSim.Library

variable {α : Type} [DecidableEq α]

/-- What a loop of reads up to the delimiter yields. -/
def fields (d : α) (s : List α) : List (List α) :=
  if (s.splitOn d).getLast? = some [] then (s.splitOn d).dropLast else s.splitOn d

/-- Fields with delimiters between them are read back if the last one is not empty. -/
theorem fields_intercalate {d : α} {fs : List (List α)} (h : ∀ f ∈ fs, d ∉ f) {f : List α}
    (hlast : fs.getLast? = some f) (hne : f ≠ []) : fields d ([d].intercalate fs) = fs := by
  have hfs : fs ≠ [] := by
    intro hnil
    simp [hnil] at hlast
  rw [fields, List.splitOn_intercalate d h hfs, hlast]
  simp [hne]

omit [DecidableEq α] in
theorem intercalate_append_nil (d : α) (ls : List (List α)) :
    [d].intercalate (ls ++ [[]]) = ls.flatMap (· ++ [d]) := by
  induction ls with
  | nil => simp
  | cons l ls ih =>
    rw [List.cons_append, List.intercalate_cons_of_ne_nil (by simp), ih]
    simp

omit [DecidableEq α] in
/-- What is in no field and is not the delimiter is not in the text. -/
theorem not_mem_intercalate {d e : α} {fs : List (List α)} (h : ∀ f ∈ fs, e ∉ f) (hne : e ≠ d) :
    e ∉ [d].intercalate fs := by
  induction fs with
  | nil => simp
  | cons f fs ih =>
    have htail := ih fun g hg => h g (List.mem_cons_of_mem _ hg)
    cases fs with
    | nil => simpa using h f List.mem_cons_self
    | cons g fs =>
      rw [List.intercalate_cons_cons]
      simp [h f List.mem_cons_self, hne, htail]

/-- Fields with a delimiter after each of them are read back, the empty ones too. -/
theorem fields_terminated {d : α} {ls : List (List α)} (h : ∀ l ∈ ls, d ∉ l) :
    fields d (ls.flatMap (· ++ [d])) = ls := by
  have hnil : ∀ l ∈ ls ++ [[]], d ∉ l := by
    intro l hl
    rcases List.mem_append.1 hl with hl | hl
    · exact h l hl
    · simp [List.mem_singleton.1 hl]
  rw [← intercalate_append_nil, fields, List.splitOn_intercalate d hnil (by simp)]
  simp

omit [DecidableEq α] in
theorem intercalate_concat (d : α) {fs : List (List α)} (h : fs ≠ []) (f : List α) :
    [d].intercalate (fs ++ [f]) = [d].intercalate fs ++ d :: f := by
  induction fs with
  | nil => exact absurd rfl h
  | cons g fs ih =>
    cases fs with
    | nil => simp
    | cons g' fs => simpa using ih (by simp)

/-- The first delimiter splits a text in one way. -/
theorem append_delimiter_inj {d : α} {a b s t : List α} (ha : d ∉ a) (hb : d ∉ b)
    (h : a ++ d :: s = b ++ d :: t) : a = b ∧ s = t := by
  have hsplit := congrArg (List.splitOn d) h
  rw [List.splitOn_append_cons_self_of_not_mem ha,
    List.splitOn_append_cons_self_of_not_mem hb] at hsplit
  obtain ⟨rfl, -⟩ := List.cons.inj hsplit
  simpa using h

/-! ## Trimming -/

section Trim

variable {β : Type} (p : β → Bool)

/-- A text without the elements at its two ends that are to be trimmed. -/
def trim (s : List β) : List β := (s.dropWhile p).rdropWhile p

variable {p}

theorem trim_eq_self {s : List β} (h : ∀ c ∈ s, p c = false) : trim p s = s := by
  have hdrop : s.dropWhile p = s := by
    cases s with
    | nil => rfl
    | cons c s => simp [h c List.mem_cons_self]
  rw [trim, hdrop, List.rdropWhile_eq_self_iff]
  intro hne
  simp [h _ (List.getLast_mem hne)]

theorem trim_idempotent (s : List β) : trim p (trim p s) = trim p s := by
  have hdrop : (trim p s).dropWhile p = trim p s := by
    cases htrim : trim p s with
    | nil => rfl
    | cons c t =>
      obtain ⟨rest, hrest⟩ := List.rdropWhile_prefix p (s.dropWhile p)
      rw [← trim, htrim, List.cons_append] at hrest
      have hc : (s.dropWhile p).head? = some c := by rw [← hrest]; rfl
      have hhead := List.head?_dropWhile_not p s
      rw [hc] at hhead
      simp [show p c = false from hhead]
  rw [trim, hdrop, trim, List.rdropWhile_idempotent]

end Trim

end PyTorchSim.Library
