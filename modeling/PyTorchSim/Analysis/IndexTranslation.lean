import Mathlib.Algebra.BigOperators.Ring.List
import PyTorchSim.Frontend.IndexMap
import PyTorchSim.Library.FloorShift
import PyTorchSim.Library.Runs

/-!
# The meaning of translated indices

The map of a `ModularIndexing` term is written with the divided expression in front of the division,
without parentheses of its own, so the division applies to the last summand only.  The other maps
have the value of their terms.
-/

set_option autoImplicit false

namespace PyTorchSim.Analysis

open PyTorchSim.Frontend PyTorchSim.Library

variable {base : IndexBase} {rho : ℕ → ℕ} {expr : IndexExpr} {result : Translated} {t : IndexTerm}
  {divisor modulus : ℕ+}

/-! ## The values of printed expressions -/

section Printed

variable {value : ℕ → Option ℤ} {dim : ℕ} {x : ℤ}

theorem operandIs_numText {α : Type} (value : α → Option ℤ) (n : ℤ) :
    OperandIs value (numText n) n := by
  unfold numText
  split
  · rename_i hn
    have hcast : ((n.natAbs : ℕ) : ℤ) = n := Int.natAbs_of_nonneg hn
    have hnum := operandIs_num value n.natAbs
    rwa [hcast] at hnum
  · rename_i hn
    have hcast : -((n.natAbs : ℕ) : ℤ) = n := by omega
    have hnum := (operandIs_num value n.natAbs).neg
    rwa [hcast] at hnum

theorem termIs_mulText {α : Type} {value : α → Option ℤ} {name : α} (hname : value name = some x)
    (coeff : ℤ) : TermIs value (mulText coeff name) (coeff * x) := by
  unfold mulText
  split
  · rename_i hone
    rw [hone, one_mul]
    exact (operandIs_name hname).term
  · exact (operandIs_numText value coeff).term.times (operandIs_name hname)

theorem termIs_monomialText (hdim : value dim = some x) (coeff : ℤ) :
    TermIs value (monomialText coeff dim) (coeff * x) := by
  unfold monomialText
  split
  · rename_i hone
    rw [hone, one_mul]
    exact (operandIs_name hdim).term
  · split
    · rename_i hneg
      rw [hneg, neg_one_mul]
      exact (operandIs_name hdim).neg.term
    · exact (operandIs_numText value coeff).term.times (operandIs_name hdim)

theorem sumIs_linearText (hdim : value base.dim = some x) :
    SumIs value (linearText base) (base.coeff * x + base.offset) := by
  have hnum := operandIs_num value base.offset.natAbs
  unfold linearText
  split
  · rename_i hzero
    rw [hzero, add_zero]
    exact (termIs_monomialText hdim base.coeff).sum
  · split
    · rename_i hpos
      have hcast : ((base.offset.natAbs : ℕ) : ℤ) = base.offset := Int.natAbs_of_nonneg hpos.le
      rw [hcast] at hnum
      split
      · have hterms := hnum.term.sum.minus (termIs_monomialText hdim (-base.coeff))
        have hvalue : base.offset - -base.coeff * x = base.coeff * x + base.offset := by ring
        rw [hvalue] at hterms
        exact hterms
      · exact (termIs_monomialText hdim base.coeff).sum.plus hnum.term
    · have hcast : ((base.offset.natAbs : ℕ) : ℤ) = -base.offset := by omega
      rw [hcast] at hnum
      have hterms := (termIs_monomialText hdim base.coeff).sum.minus hnum.term
      rw [sub_neg_eq_add] at hterms
      exact hterms

/-- The quotient that is read where the divided expression has no parentheses. -/
def unguardedQuotient (base : IndexBase) (q x : ℤ) : ℤ :=
  if base.offset = 0 then base.coeff * x / q
  else if 0 < base.offset then
    if base.coeff < 0 then base.offset - -base.coeff * x / q
    else base.coeff * x + base.offset / q
  else base.coeff * x - -base.offset / q

/-- The division applies to the last summand. -/
theorem sumIs_unguarded (hdim : value base.dim = some x) (q : ℕ) :
    SumIs value (linearText base ++ .floordiv :: [.num q]) (unguardedQuotient base q x) := by
  have hnum := operandIs_num value base.offset.natAbs
  have hq := operandIs_num value q
  unfold linearText unguardedQuotient
  split
  · exact ((termIs_monomialText hdim base.coeff).floordiv hq).sum
  · split
    · rename_i hpos
      have hcast : ((base.offset.natAbs : ℕ) : ℤ) = base.offset := Int.natAbs_of_nonneg hpos.le
      rw [hcast] at hnum
      split
      · exact hnum.term.sum.minus ((termIs_monomialText hdim (-base.coeff)).floordiv hq)
      · rw [List.append_assoc, List.cons_append]
        exact (termIs_monomialText hdim base.coeff).sum.plus (hnum.term.floordiv hq)
    · have hcast : ((base.offset.natAbs : ℕ) : ℤ) = -base.offset := by omega
      rw [hcast] at hnum
      rw [List.append_assoc, List.cons_append]
      exact (termIs_monomialText hdim base.coeff).sum.minus (hnum.term.floordiv hq)

theorem operandIs_dividedText (hdim : value base.dim = some x) :
    OperandIs value (dividedText base) (base.coeff * x + base.offset) := by
  unfold dividedText
  split
  · rename_i hsymbol
    have hcoeff : base.coeff = 1 := congrArg IndexBase.coeff hsymbol
    have hoffset : base.offset = 0 := congrArg IndexBase.offset hsymbol
    rw [hcoeff, hoffset, one_mul, add_zero]
    exact operandIs_name hdim
  · exact (sumIs_linearText hdim).paren

end Printed

/-! ## The values of translated terms -/

/-- The value of the map that is written for a term. -/
def readValue (rho : ℕ → ℕ) : IndexTerm → ℤ
  | .modularIndexing base divisor modulus =>
    unguardedQuotient base (divisor : ℕ) (rho base.dim) % (modulus : ℕ)
  | t => t.value rho

theorem convertIndex_value (rho : ℕ → ℕ) (t : IndexTerm) :
    (convertIndex t).value rho = some (readValue rho t) := by
  cases t with
  | symbol dim => rfl
  | floorDiv base divisor =>
    have hdim :
      (fun name => if name ∈ [base.dim] then some ((rho name : ℕ) : ℤ) else none) base.dim =
        some ((rho base.dim : ℕ) : ℤ) := if_pos (List.mem_singleton_self _)
    exact ((operandIs_dividedText hdim).term.floordiv (operandIs_num _ _)).sum.paren.term.sum.read
  | modularIndexing base divisor modulus =>
    have hdim :
      (fun name => if name ∈ [base.dim] then some ((rho name : ℕ) : ℤ) else none) base.dim =
        some ((rho base.dim : ℕ) : ℤ) := if_pos (List.mem_singleton_self _)
    exact ((sumIs_unguarded hdim divisor).paren.term.mod (operandIs_num _ _)).sum.read

/-- The multiples that are added in a translated expression. -/
def addedArgs : IndexExpr → List (ℤ × IndexTerm)
  | .sum first rest _ => first :: rest
  | _ => []

/-- The text of a sum has the sum of what is read for its terms. -/
theorem sumIs_addText {value : Operand → Option ℤ} (first : ℤ × IndexTerm)
    (rest : List (ℤ × IndexTerm)) (offset : ℤ)
    (hvalue : ∀ arg ∈ first :: rest, value (convertIndex arg.2) = some (readValue rho arg.2)) :
    SumIs value (addText (first :: rest) offset)
      (((first :: rest).map fun arg => arg.1 * readValue rho arg.2).sum + offset) := by
  have hterm : ∀ arg ∈ first :: rest, TermIs value (mulText arg.1 (convertIndex arg.2))
      (arg.1 * readValue rho arg.2) :=
    fun arg harg => termIs_mulText (hvalue arg harg) arg.1
  unfold addText
  split
  · rename_i hzero
    have hsum := (hterm first List.mem_cons_self).sum.intercalate
      (rest.map fun arg =>
        (mulText arg.1 (convertIndex arg.2), arg.1 * readValue rho arg.2)) (by
        intro piece hpiece
        obtain ⟨arg, harg, rfl⟩ := List.mem_map.1 hpiece
        exact hterm arg (List.mem_cons_of_mem first harg))
    rw [List.map_map, List.map_map] at hsum
    rw [hzero, add_zero]
    exact hsum
  · have hsum := (operandIs_numText value offset).term.sum.intercalate
      ((first :: rest).map fun arg =>
        (mulText arg.1 (convertIndex arg.2), arg.1 * readValue rho arg.2)) (by
        intro piece hpiece
        obtain ⟨arg, harg, rfl⟩ := List.mem_map.1 hpiece
        exact hterm arg harg)
    rw [List.map_map, List.map_map] at hsum
    rw [add_comm _ offset]
    exact hsum

/-! ## The values of translated expressions -/

/-- The value that is read for the translation of an expression. -/
def readExprValue (rho : ℕ → ℕ) : IndexExpr → ℤ
  | .number n => n
  | .term t => t.value rho
  | .sum first rest offset =>
    ((first :: rest).map fun arg => arg.1 * readValue rho arg.2).sum + offset

theorem convertArgument_ok {argument : Operand} (hok : convertArgument base = .ok argument) :
    base.offset = 0 ∧ argument = .index base.dim := by
  unfold convertArgument at hok
  split at hok
  · rename_i hzero
    exact ⟨hzero, (Except.ok.inj hok).symm⟩
  · cases hok

section Whole

variable {value : Operand → Option ℤ}
    (hdim : value (.index base.dim) = some ((rho base.dim : ℕ) : ℤ))
  (hzero : base.offset = 0)
include hdim hzero

theorem termIs_wholeArgument :
    TermIs value (mulText base.coeff (Operand.index base.dim)) (base.value rho) := by
  have hterm := termIs_mulText hdim base.coeff
  unfold IndexBase.value
  rw [hzero, add_zero]
  exact hterm

theorem operandIs_floorDivText (divisor : ℕ+) :
    OperandIs value (floorDivText base divisor) (base.value rho / (divisor : ℕ)) :=
  ((termIs_wholeArgument hdim hzero).floordiv (operandIs_num _ _)).sum.paren

end Whole

/-- The translated index has the value that is read for its terms. -/
theorem parseIndices_value (rho : ℕ → ℕ) (hok : parseIndices expr = .ok result) :
    result.value rho = some (readExprValue rho expr) := by
  cases expr with
  | number n =>
    cases hok
    rfl
  | term t =>
    cases t with
    | symbol dim =>
      cases hok
      rfl
    | floorDiv base divisor =>
      obtain ⟨argument, hargument, hresult⟩ := bind_eq_ok.1 hok
      obtain ⟨hzero, rfl⟩ := convertArgument_ok hargument
      cases hresult
      have hdim : (fun name => if name ∈ [Operand.index base.dim] then name.value rho else none)
          (Operand.index base.dim) = some ((rho base.dim : ℕ) : ℤ) := if_pos
            (List.mem_singleton_self _)
      exact (operandIs_floorDivText hdim hzero divisor).term.sum.read
    | modularIndexing base divisor modulus =>
      obtain ⟨argument, hargument, hresult⟩ := bind_eq_ok.1 hok
      obtain ⟨hzero, rfl⟩ := convertArgument_ok hargument
      cases hresult
      have hdim : (fun name => if name ∈ [Operand.index base.dim] then name.value rho else none)
          (Operand.index base.dim) = some ((rho base.dim : ℕ) : ℤ) := if_pos
            (List.mem_singleton_self _)
      have hdivided : TermIs
          (fun name => if name ∈ [Operand.index base.dim] then name.value rho else none)
          (if divisor = 1 then mulText base.coeff (Operand.index base.dim)
            else floorDivText base divisor) (base.value rho / (divisor : ℕ)) := by
        split
        · rename_i hone
          rw [hone, PNat.one_coe, Nat.cast_one, Int.ediv_one]
          exact termIs_wholeArgument hdim hzero
        · exact (operandIs_floorDivText hdim hzero divisor).term
      exact (hdivided.mod (operandIs_num _ _)).sum.paren.term.sum.read
  | sum first rest offset =>
    cases hok
    apply (sumIs_addText first rest offset _).read
    intro arg harg
    have hmem : convertIndex arg.2 ∈
        (sortedArgs (first :: rest)).map fun arg => convertIndex arg.2 := by
      apply List.mem_map_of_mem
      exact (List.mem_insertionSort _).2 harg
    rw [if_pos hmem]
    exact convertIndex_value rho arg.2

/-! ## Where the division is kept -/

/-- The divided expression and the reading without its parentheses have the same remainders. -/
def DivisionKept (base : IndexBase) (q m : ℤ) : Prop :=
  q = 1 ∨ m = 1 ∨ base.offset = 0 ∨
    if 0 < base.offset ∧ base.coeff < 0 then
      base.offset / q ≡ base.offset [ZMOD m] ∧ q ≤ base.offset % q + Int.gcd (-base.coeff) q
    else (base.offset < 0 → q ∣ base.offset) ∧ q ∣ base.coeff ∧ m ∣ base.coeff / q * (q - 1)

instance (base : IndexBase) (q m : ℤ) : Decidable (DivisionKept base q m) := by
  unfold DivisionKept
  infer_instance

theorem unguardedQuotient_of_neg {q x : ℤ} (hneg : base.offset < 0) :
    unguardedQuotient base q x = base.coeff * x - -base.offset / q := by
  rw [unguardedQuotient, if_neg hneg.ne, if_neg (not_lt.2 hneg.le)]

theorem unguardedQuotient_of_pos_of_neg {q x : ℤ} (hpos : 0 < base.offset)
    (hcoeff : base.coeff < 0) :
    unguardedQuotient base q x = base.offset - -base.coeff * x / q := by
  rw [unguardedQuotient, if_neg hpos.ne', if_pos hpos, if_pos hcoeff]

theorem unguardedQuotient_of_pos {q x : ℤ} (hpos : 0 < base.offset) (hcoeff : ¬ base.coeff < 0) :
    unguardedQuotient base q x = base.coeff * x + base.offset / q := by
  rw [unguardedQuotient, if_neg hpos.ne', if_pos hpos, if_neg hcoeff]

theorem unguardedQuotient_one (base : IndexBase) (x : ℤ) :
    unguardedQuotient base 1 x = base.coeff * x + base.offset := by
  unfold unguardedQuotient
  simp only [Int.ediv_one]
  split
  · rename_i hzero
    rw [hzero, add_zero]
  · split
    · split <;> ring
    · ring

/-- The condition for one term. -/
theorem division_kept_iff {q m : ℤ} (hq : 0 < q) (hm : 0 < m) :
    (∀ x : ℕ, unguardedQuotient base q x % m = (base.coeff * x + base.offset) / q % m) ↔
      DivisionKept base q m := by
  unfold DivisionKept
  rcases eq_or_ne q 1 with rfl | hq1
  · simp [unguardedQuotient_one]
  rcases eq_or_ne m 1 with rfl | hm1
  · simp
  have hm' : 1 < m := by omega
  rw [or_iff_right hq1, or_iff_right hm1]
  rcases lt_trichotomy base.offset 0 with hneg | hzero | hpos
  · rw [or_iff_right hneg.ne, if_neg fun h => absurd h.1 (not_lt.2 hneg.le)]
    have hiff := linear_ediv_modEq_iff (a := base.coeff) (b := base.offset)
      (t := -(-base.offset / q)) hq hm'
    rw [ediv_modEq_neg_ediv_iff hq hm'] at hiff
    simp only [hneg, forall_const]
    rw [← hiff]
    apply forall_congr'
    intro x
    rw [unguardedQuotient_of_neg hneg, Int.ModEq, eq_comm, sub_eq_add_neg]
  · simp [unguardedQuotient, hzero]
  · rw [or_iff_right hpos.ne']
    by_cases hcoeff : base.coeff < 0
    · rw [if_pos ⟨hpos, hcoeff⟩, ← sub_ediv_modEq_iff hq hm']
      apply forall_congr'
      intro x
      have hvalue : base.offset - -base.coeff * x = base.coeff * x + base.offset := by ring
      rw [unguardedQuotient_of_pos_of_neg hpos hcoeff, Int.ModEq, eq_comm, hvalue]
    · rw [if_neg fun h => hcoeff h.2]
      have hiff := linear_ediv_modEq_iff (a := base.coeff) (b := base.offset)
        (t := base.offset / q) hq hm'
      have hrefl : (base.offset / q ≡ base.offset / q [ZMOD m]) ↔ True := iff_true_intro rfl
      rw [hrefl, true_and] at hiff
      simp only [not_lt.2 hpos.le, false_imp_iff, true_and]
      rw [← hiff]
      apply forall_congr'
      intro x
      rw [unguardedQuotient_of_pos hpos hcoeff, Int.ModEq, eq_comm]

/-- The value that is read for the term is its own. -/
def TermKept : IndexTerm → Prop
  | .modularIndexing base divisor modulus => DivisionKept base (divisor : ℕ) (modulus : ℕ)
  | _ => True

instance (t : IndexTerm) : Decidable (TermKept t) := by
  cases t <;> unfold TermKept <;> infer_instance

/-- What is read for a term beyond its own value. -/
def readingError (rho : ℕ → ℕ) (t : IndexTerm) : ℤ := readValue rho t - t.value rho

theorem term_kept_iff (t : IndexTerm) : (∀ rho, readingError rho t = 0) ↔ TermKept t := by
  unfold readingError
  simp only [sub_eq_zero]
  cases t with
  | symbol dim => simp [readValue, TermKept]
  | floorDiv base divisor => simp [readValue, TermKept]
  | modularIndexing base divisor modulus =>
    have hdivisor : (0 : ℤ) < (divisor : ℕ) := by
      exact_mod_cast divisor.pos
    have hmodulus : (0 : ℤ) < (modulus : ℕ) := by
      exact_mod_cast modulus.pos
    change _ ↔ DivisionKept base (divisor : ℕ) (modulus : ℕ)
    rw [← division_kept_iff hdivisor hmodulus]
    constructor
    · exact fun h x => h fun _ => x
    · exact fun h rho => h (rho base.dim)

/-- The multiples that are read with another value. -/
def misreadArgs (expr : IndexExpr) : List (ℤ × IndexTerm) :=
  (addedArgs expr).filter fun arg => arg.1 ≠ 0 ∧ ¬ TermKept arg.2

theorem sum_misread (rho : ℕ → ℕ) (args : List (ℤ × IndexTerm)) :
    ((args.filter fun arg => arg.1 ≠ 0 ∧ ¬ TermKept arg.2).map
        fun arg => arg.1 * readingError rho arg.2).sum =
      (args.map fun arg => arg.1 * readValue rho arg.2).sum -
        (args.map fun arg => arg.1 * arg.2.value rho).sum := by
  induction args with
  | nil => rfl
  | cons arg args ih =>
    rw [List.map_cons, List.map_cons, List.sum_cons, List.sum_cons]
    have herror : arg.1 * readingError rho arg.2 =
        arg.1 * readValue rho arg.2 - arg.1 * arg.2.value rho := by
      rw [readingError, mul_sub]
    by_cases hmisread : arg.1 ≠ 0 ∧ ¬ TermKept arg.2
    · rw [List.filter_cons_of_pos (by simpa using hmisread), List.map_cons, List.sum_cons, ih, herror]
      ring
    · rw [List.filter_cons_of_neg (by simpa using hmisread), ih]
      have hnone : arg.1 * readingError rho arg.2 = 0 := by
        rcases not_and_or.1 hmisread with hzero | hkept
        · rw [not_not.1 hzero, zero_mul]
        · rw [(term_kept_iff arg.2).2 (not_not.1 hkept) rho, mul_zero]
      linarith

theorem readExprValue_eq (rho : ℕ → ℕ) (expr : IndexExpr) :
    readExprValue rho expr = expr.value rho +
      ((misreadArgs expr).map fun arg => arg.1 * readingError rho arg.2).sum := by
  cases expr with
  | number n => exact (add_zero _).symm
  | term t => exact (add_zero _).symm
  | sum first rest offset =>
    rw [misreadArgs, addedArgs, sum_misread]
    unfold readExprValue IndexExpr.value
    ring

/-- The maps have the value of the expression exactly where the errors of the misread terms cancel,
and so never where there is one misread term. -/
theorem parse_indices_exact_iff (hok : parseIndices expr = .ok result) :
    ((∀ rho, result.value rho = some (expr.value rho)) ↔
        ∀ rho, ((misreadArgs expr).map fun arg => arg.1 * readingError rho arg.2).sum = 0) ∧
      ((misreadArgs expr).length = 1 → ∃ rho, result.value rho ≠ some (expr.value rho)) := by
  have hiff : (∀ rho, result.value rho = some (expr.value rho)) ↔
      ∀ rho, ((misreadArgs expr).map fun arg => arg.1 * readingError rho arg.2).sum = 0 := by
    apply forall_congr'
    intro rho
    rw [parseIndices_value rho hok, Option.some.injEq, readExprValue_eq, add_eq_left]
  refine ⟨hiff, ?_⟩
  intro hone
  obtain ⟨arg, harg⟩ := List.length_eq_one_iff.1 hone
  have hmem : arg ∈ misreadArgs expr := by
    rw [harg]
    exact List.mem_singleton_self arg
  have hmisread : arg.1 ≠ 0 ∧ ¬ TermKept arg.2 := by
    simpa using (List.mem_filter.1 hmem).2
  by_contra hall
  simp only [not_exists, not_not] at hall
  apply hmisread.2
  rw [← term_kept_iff]
  intro rho
  have hsum := hiff.1 hall rho
  rw [harg, List.map_singleton, List.sum_singleton] at hsum
  exact (mul_eq_zero.1 hsum).resolve_left hmisread.1

/-- An index with an offset inside its `ModularIndexing`. -/
def offsetIndex : IndexExpr :=
  .sum (10, .modularIndexing ⟨0, 1, 3⟩ 4 8) [(1, .symbol 1)] 0

theorem parse_indices_exact_offset : ∃ result, parseIndices offsetIndex = .ok result ∧
    ∃ rho, result.value rho ≠ some (offsetIndex.value rho) :=
  ⟨_, rfl, (parse_indices_exact_iff (show parseIndices offsetIndex = .ok _ from rfl)).2
    (by decide +kernel)⟩

/-- At index 4 the map has the value 44 in place of 14. -/
theorem offset_index_misread :
    (parseIndices offsetIndex).map (fun result => result.value fun _ => 4) = .ok (some 44) ∧
      offsetIndex.value (fun _ => 4) = 14 := by
  decide +kernel

end PyTorchSim.Analysis
