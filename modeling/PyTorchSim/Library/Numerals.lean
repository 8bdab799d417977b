import Mathlib.Data.List.TakeWhile

/-!
# Decimal numerals at the start of a text

A reader of numbers skips blanks, takes a sign and the digits that follow, and leaves the rest of
the text alone.
-/

set_option autoImplicit false

namespace PyTorchSim.Library

/-- A sign and the value of the digits after it. -/
structure Numeral where
  negative : Bool
  magnitude : ℕ
deriving DecidableEq

def Numeral.value (n : Numeral) : ℤ :=
  if n.negative then -n.magnitude else n.magnitude

def isSpace (c : Char) : Bool :=
  c = ' ' ∨ c = '\t' ∨ c = '\n' ∨ c = '\x0b' ∨ c = '\x0c' ∨ c = '\r'

def readSign : List Char → Bool × List Char
  | '-' :: s => (true, s)
  | '+' :: s => (false, s)
  | s => (false, s)

def readDigits (s : List Char) : Option ℕ :=
  let ds := s.takeWhile Char.isDigit
  if ds = [] then none else some (Nat.ofDigitChars 10 ds 0)

/-- The numeral at the start of a text, if there is one. -/
def readNumeral (s : List Char) : Option Numeral :=
  let (negative, t) := readSign (s.dropWhile isSpace)
  (readDigits t).map (Numeral.mk negative)

/-- The texts that start with the numeral `n`, whatever follows it. -/
def StartsWith (s : List Char) (n : Numeral) : Prop :=
  ∃ blanks sign digits rest : List Char,
    s = blanks ++ (sign ++ (digits ++ rest)) ∧
      (∀ c ∈ blanks, isSpace c) ∧
      (sign = ['-'] ∧ n.negative = true ∨ (sign = ['+'] ∨ sign = []) ∧ n.negative = false) ∧
      digits ≠ [] ∧ (∀ c ∈ digits, c.isDigit) ∧ (∀ c ∈ rest.head?, ¬ c.isDigit) ∧
      n.magnitude = Nat.ofDigitChars 10 digits 0

theorem readDigits_append {digits rest : List Char} (hne : digits ≠ [])
    (hdigits : ∀ c ∈ digits, c.isDigit) (hrest : ∀ c ∈ rest.head?, ¬ c.isDigit) :
    readDigits (digits ++ rest) = some (Nat.ofDigitChars 10 digits 0) := by
  have hstop : rest.takeWhile Char.isDigit = [] := by
    cases rest with
    | nil => simp
    | cons c rest => simp [hrest c rfl]
  rw [readDigits, List.takeWhile_append_of_pos hdigits, hstop]
  simp [hne]

theorem readDigits_eq_some {s : List Char} {m : ℕ} (h : readDigits s = some m) :
    ∃ digits rest, s = digits ++ rest ∧ digits ≠ [] ∧ (∀ c ∈ digits, c.isDigit) ∧
      (∀ c ∈ rest.head?, ¬ c.isDigit) ∧ m = Nat.ofDigitChars 10 digits 0 := by
  refine ⟨s.takeWhile Char.isDigit, s.dropWhile Char.isDigit, ?_, ?_, ?_, ?_, ?_⟩
  · simp
  · intro hnil
    simp [readDigits, hnil] at h
  · intro c hc
    exact List.mem_takeWhile_imp hc
  · intro c hc
    have hnot := List.head?_dropWhile_not Char.isDigit s
    rw [Option.mem_def.1 hc] at hnot
    simpa using hnot
  · by_cases hnil : s.takeWhile Char.isDigit = []
    · simp [readDigits, hnil] at h
    · simpa [readDigits, hnil] using h.symm

theorem readSign_spec (t : List Char) :
    ∃ sign, t = sign ++ (readSign t).2 ∧
      (sign = ['-'] ∧ (readSign t).1 = true ∨
        (sign = ['+'] ∨ sign = []) ∧ (readSign t).1 = false) := by
  fun_cases readSign t with
  | case1 s => exact ⟨['-'], by simp⟩
  | case2 s => exact ⟨['+'], by simp⟩
  | case3 s => exact ⟨[], by simp⟩

theorem isSpace_of_isDigit {c : Char} (h : c.isDigit) : isSpace c = false := by
  by_contra hspace
  simp only [isSpace, Bool.not_eq_false, decide_eq_true_eq] at hspace
  rcases hspace with rfl | rfl | rfl | rfl | rfl | rfl <;> simp at h

/-- A digit ends the blanks, and it is not a sign. -/
theorem readSign_of_isDigit {c : Char} (h : c.isDigit) (s : List Char) :
    readSign (c :: s) = (false, c :: s) := by
  unfold readSign
  split
  · simp_all
  · simp_all
  · rfl

theorem readNumeral_eq_some {s : List Char} {n : Numeral} (h : readNumeral s = some n) :
    StartsWith s n := by
  simp only [readNumeral, Option.map_eq_some_iff] at h
  obtain ⟨m, hm, rfl⟩ := h
  obtain ⟨digits, rest, hs, hne, hdigits, hrest, hvalue⟩ := readDigits_eq_some hm
  obtain ⟨sign, hsign, hnegative⟩ := readSign_spec (s.dropWhile isSpace)
  refine ⟨s.takeWhile isSpace, sign, digits, rest, ?_, ?_, hnegative, hne, hdigits, hrest, hvalue⟩
  · rw [← hs, ← hsign, List.takeWhile_append_dropWhile]
  · intro c hc
    exact List.mem_takeWhile_imp hc

/-- Blanks before a text that does not start with one are passed over. -/
theorem dropWhile_isSpace_append {blanks t : List Char} (hblanks : ∀ c ∈ blanks, isSpace c)
    (ht : ∀ c ∈ t.head?, isSpace c = false) : (blanks ++ t).dropWhile isSpace = t := by
  rw [List.dropWhile_append_of_pos hblanks]
  cases t with
  | nil => simp
  | cons c t => simp [ht c rfl]

theorem readNumeral_of_startsWith {s : List Char} {n : Numeral} (h : StartsWith s n) :
    readNumeral s = some n := by
  obtain ⟨blanks, sign, digits, rest, rfl, hblanks, hsign, hne, hdigits, hrest, hvalue⟩ := h
  obtain ⟨negative, magnitude⟩ := n
  simp only at hsign hvalue
  have hread := readDigits_append hne hdigits hrest
  rw [← hvalue] at hread
  rcases hsign with ⟨rfl, rfl⟩ | ⟨rfl | rfl, rfl⟩
  · rw [readNumeral, dropWhile_isSpace_append hblanks (by simp [isSpace])]
    simp [readSign, hread]
  · rw [readNumeral, dropWhile_isSpace_append hblanks (by simp [isSpace])]
    simp [readSign, hread]
  · obtain ⟨d, ds, rfl⟩ := List.exists_cons_of_ne_nil hne
    have hd : d.isDigit := hdigits d (by simp)
    rw [readNumeral, dropWhile_isSpace_append hblanks (by simp [isSpace_of_isDigit hd])]
    rw [List.nil_append, List.cons_append, readSign_of_isDigit hd]
    simpa using hread

/-- What the reader finds is what the text starts with. -/
theorem readNumeral_eq_some_iff {s : List Char} {n : Numeral} :
    readNumeral s = some n ↔ StartsWith s n :=
  ⟨readNumeral_eq_some, readNumeral_of_startsWith⟩

theorem decimal_injective : Function.Injective (Nat.toDigits 10) := by
  intro m n h
  rw [← Nat.ofDigitChars_ten_toDigits (n := m), h, Nat.ofDigitChars_ten_toDigits]

theorem startsWith_decimal (n : ℕ) : StartsWith (Nat.toDigits 10 n) ⟨false, n⟩ := by
  refine ⟨[], [], Nat.toDigits 10 n, [], by simp, by simp, by simp, Nat.toDigits_ne_nil, ?_,
    by simp, Nat.ofDigitChars_ten_toDigits.symm⟩
  intro c hc
  exact Nat.isDigit_of_mem_toDigits (by omega) (by omega) hc

/-- A number that is written in decimal digits is read back. -/
theorem readNumeral_decimal (n : ℕ) : readNumeral (Nat.toDigits 10 n) = some ⟨false, n⟩ :=
  readNumeral_eq_some_iff.2 (startsWith_decimal n)

/-- Decimal digits hold no other character. -/
theorem not_mem_decimal {c : Char} (h : c.isDigit = false) (n : ℕ) : c ∉ Nat.toDigits 10 n := by
  intro hc
  have hdigit := Nat.isDigit_of_mem_toDigits (by omega) (by omega) hc
  simp [h] at hdigit

end PyTorchSim.Library
