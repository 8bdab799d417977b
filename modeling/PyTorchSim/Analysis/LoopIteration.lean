import PyTorchSim.Model.LoopIterator

/-!
# The outer loops as nested loops

The iterator starts at the first value of every range without asking whether there is one, and it
compares an index with the end of its range after the step, in an `int`.  So it goes through the
nested loops when no range is empty and no last step overflows.
-/

set_option autoImplicit false

namespace PyTorchSim.Analysis

open PyTorchSim.Model

/-- The numbers of a range are numbers of an `int`, and it goes upwards. -/
structure Upward (r : LoopRange) : Prop where
  start_ge : -2 ^ 31 ≤ r.start
  start_lt : r.start < 2 ^ 31
  stop_ge : -2 ^ 31 ≤ r.stop
  stop_lt : r.stop < 2 ^ 31
  step_pos : 0 < r.step
  step_lt : r.step < 2 ^ 31

/-- How often the body of `for (i = start; i < stop; i += step)` runs. -/
def rangeCount (r : LoopRange) : ℕ := ((r.stop - r.start + r.step - 1) / r.step).toNat

/-- The value of the loop variable in round `k`. -/
def loopValue (r : LoopRange) (k : ℕ) : ℤ := r.start + k * r.step

/-- The values of the loop variable. -/
def loopRange (r : LoopRange) : List ℤ := (List.range (rangeCount r)).map (loopValue r)

/-- The index tuples that nested loops over the ranges go through. -/
def nestedLoops : List LoopRange → List (List ℤ)
  | [] => [[]]
  | r :: rs => (loopRange r).flatMap fun i => (nestedLoops rs).map (i :: ·)

/-- The last value of a range and its step add up to an `int`. -/
def LastStepFits (r : LoopRange) : Prop := loopValue r (rangeCount r - 1) + r.step < 2 ^ 31

section NestedLoops

/-- A round is run as long as its value is in the range. -/
theorem lt_rangeCount_iff {r : LoopRange} (hr : Upward r) (k : ℕ) :
    k < rangeCount r ↔ loopValue r k < r.stop := by
  have hstep := hr.step_pos
  have hdiv : k < rangeCount r ↔ (k : ℤ) + 1 ≤ (r.stop - r.start + r.step - 1) / r.step := by
    unfold rangeCount
    omega
  rw [hdiv, Int.le_ediv_iff_mul_le hstep, Int.add_mul, Int.one_mul, loopValue]
  constructor
  · intro h
    omega
  · intro h
    omega

theorem loopValue_succ (r : LoopRange) (k : ℕ) :
    loopValue r (k + 1) = loopValue r k + r.step := by
  unfold loopValue
  rw [Int.natCast_succ, Int.add_mul, Int.one_mul, Int.add_assoc]

theorem loopValue_lt {r : LoopRange} (hr : Upward r) {j k : ℕ} (h : j < k) :
    loopValue r j < loopValue r k := by
  have hmul := Int.mul_lt_mul_of_pos_right (Int.ofNat_lt.mpr h) hr.step_pos
  unfold loopValue
  omega

theorem mem_loopRange {r : LoopRange} (hr : Upward r) (v : ℤ) :
    v ∈ loopRange r ↔ ∃ k : ℕ, v = r.start + k * r.step ∧ v < r.stop := by
  unfold loopRange
  rw [List.mem_map]
  constructor
  · rintro ⟨k, hk, rfl⟩
    exact ⟨k, rfl, (lt_rangeCount_iff hr k).mp (List.mem_range.mp hk)⟩
  · rintro ⟨k, rfl, hlt⟩
    exact ⟨k, List.mem_range.mpr ((lt_rangeCount_iff hr k).mpr hlt), rfl⟩

/-- **The nested loops go through the product of the ranges.** -/
theorem mem_nestedLoops (rs : List LoopRange) (p : List ℤ) :
    p ∈ nestedLoops rs ↔ List.Forall₂ (fun v r => v ∈ loopRange r) p rs := by
  induction rs generalizing p with
  | nil =>
    rw [nestedLoops, List.mem_singleton, List.forall₂_nil_right_iff]
  | cons r rs ih =>
    rw [nestedLoops, List.mem_flatMap, List.forall₂_cons_right_iff]
    constructor
    · rintro ⟨i, hi, hp⟩
      obtain ⟨q, hq, rfl⟩ := List.mem_map.mp hp
      exact ⟨i, q, hi, (ih q).mp hq, rfl⟩
    · rintro ⟨i, q, hi, hq, rfl⟩
      exact ⟨i, hi, List.mem_map_of_mem ((ih q).mpr hq)⟩

/-- **The nested loops go upwards, the last index fastest.** -/
theorem nestedLoops_sorted (rs : List LoopRange) (hrs : ∀ r ∈ rs, Upward r) :
    (nestedLoops rs).Pairwise (List.Lex (· < ·)) := by
  induction rs with
  | nil => exact List.pairwise_singleton _ _
  | cons r rs ih =>
    have hrest := ih fun r' h => hrs r' (List.mem_cons_of_mem _ h)
    rw [nestedLoops, List.pairwise_flatMap]
    constructor
    · intro i _
      rw [List.pairwise_map]
      exact hrest.imp fun h => List.Lex.cons h
    · unfold loopRange
      rw [List.pairwise_map]
      refine List.pairwise_lt_range.imp fun {j k} hjk => ?_
      intro p hp q hq
      obtain ⟨p', _, rfl⟩ := List.mem_map.mp hp
      obtain ⟨q', _, rfl⟩ := List.mem_map.mp hq
      exact List.Lex.rel (loopValue_lt (hrs r List.mem_cons_self) hjk)

/-- No range is empty if there is a tuple. -/
theorem loopRange_ne_nil {rs : List LoopRange} (h : nestedLoops rs ≠ []) :
    ∀ r ∈ rs, loopRange r ≠ [] := by
  induction rs with
  | nil => exact fun r hr => absurd hr List.not_mem_nil
  | cons r rs ih =>
    obtain ⟨p, hp⟩ := List.exists_mem_of_ne_nil _ h
    rw [nestedLoops, List.mem_flatMap] at hp
    obtain ⟨i, hi, hp⟩ := hp
    obtain ⟨q, hq, -⟩ := List.mem_map.mp hp
    intro r' hr'
    cases List.mem_cons.mp hr' with
    | inl heq => exact heq ▸ List.ne_nil_of_mem hi
    | inr hmem => exact ih (List.ne_nil_of_mem hq) r' hmem

theorem rangeCount_pos {r : LoopRange} (h : loopRange r ≠ []) : 0 < rangeCount r := by
  refine Nat.pos_of_ne_zero fun hzero => h ?_
  rw [loopRange, hzero]
  rfl

end NestedLoops

/-- From the tuple `p` on the odometer shows the tuples of the list, and the increment behind the
last of them carries out of the first place. -/
inductive Sweeps (rs : List LoopRange) : List ℤ → List (List ℤ) → Prop
  | last (p p' : List ℤ) : Iterator.advance rs p = (p', true) → Sweeps rs p [p]
  | step (p p' : List ℤ) (l : List (List ℤ)) : Iterator.advance rs p = (p', false) →
      Sweeps rs p' l → Sweeps rs p (p :: l)

section Sweeps

variable {r : LoopRange} {rs : List LoopRange} {p : List ℤ} {l : List (List ℤ)}

theorem advance_nil (p : List ℤ) : Iterator.advance [] p = ([], true) := by
  cases p <;> rfl

/-- A carry out of the first place leaves every index at its start. -/
theorem advance_carry {p' : List ℤ} (hlen : p.length = rs.length)
    (h : Iterator.advance rs p = (p', true)) : p' = rs.map (·.start) := by
  induction rs generalizing p p' with
  | nil =>
    rw [advance_nil] at h
    exact (congrArg Prod.fst h).symm
  | cons r rs ih =>
    obtain _ | ⟨i, is⟩ := p
    · cases hlen
    rw [Iterator.advance] at h
    split at h
    · cases h
    · rename_i is' hrest
      dsimp only at h
      split at h
      · cases h
      · cases h
        rw [List.map_cons, ih (Nat.succ.inj hlen) hrest]

theorem advance_length {p' : List ℤ} {c : Bool} (hlen : p.length = rs.length)
    (h : Iterator.advance rs p = (p', c)) : p'.length = rs.length := by
  induction rs generalizing p p' c with
  | nil =>
    rw [advance_nil] at h
    cases h
    rfl
  | cons r rs ih =>
    obtain _ | ⟨i, is⟩ := p
    · cases hlen
    rw [Iterator.advance] at h
    split at h
    · rename_i is' hrest
      cases h
      exact congrArg Nat.succ (ih (Nat.succ.inj hlen) hrest)
    · rename_i is' hrest
      have hrest := ih (Nat.succ.inj hlen) hrest
      dsimp only at h
      split at h
      · cases h
        exact congrArg Nat.succ hrest
      · cases h
        exact congrArg Nat.succ hrest

/-- The loop over the iterator goes through what the odometer shows. -/
theorem yields_iff_sweeps :
    Iterator.Yields ⟨rs, p, false⟩ l ↔ Sweeps rs p l := by
  constructor
  · intro h
    generalize hit : (⟨rs, p, false⟩ : Iterator) = it at h
    induction h generalizing p with
    | done it hfin =>
      subst hit
      cases hfin
    | next it l hfin hrest ih =>
      subst hit
      cases hadv : Iterator.advance rs p with
      | mk p' c =>
        have hnext : Iterator.next ⟨rs, p, false⟩ = ⟨rs, p', c⟩ := by
          simp [Iterator.next, hadv]
        cases c with
        | true =>
          rw [hnext] at hrest
          cases hrest with
          | done _ _ => exact .last p p' hadv
          | next _ _ hfin _ => cases hfin
        | false => exact .step p p' l hadv (ih hnext.symm)
  · intro h
    induction h with
    | last p p' hadv =>
      refine .next ⟨rs, p, false⟩ [] rfl (.done _ ?_)
      simp [Iterator.next, hadv]
    | step p p' l hadv _ ih =>
      refine .next ⟨rs, p, false⟩ l rfl ?_
      have hnext : Iterator.next ⟨rs, p, false⟩ = ⟨rs, p', false⟩ := by
        simp [Iterator.next, hadv]
      exact hnext ▸ ih

/-- While the places behind the first index sweep, the first index stays; then it takes its step. -/
theorem Sweeps.cons_append {i : ℤ} {l' : List (List ℤ)} (h : Sweeps rs p l)
    (hlen : p.length = rs.length) (hnext : i32 (i + r.step) < r.stop)
    (h' : Sweeps (r :: rs) (i32 (i + r.step) :: rs.map (·.start)) l') :
    Sweeps (r :: rs) (i :: p) (l.map (i :: ·) ++ l') := by
  induction h with
  | last p p' hadv =>
    refine .step (i :: p) _ l' ?_ h'
    rw [Iterator.advance, hadv, advance_carry hlen hadv]
    exact if_pos hnext
  | step p p' l hadv _ ih =>
    refine .step (i :: p) (i :: p') _ ?_ (ih (advance_length hlen hadv))
    rw [Iterator.advance, hadv]

/-- The first index has its last value: the sweep of the places behind it carries out. -/
theorem Sweeps.cons_last {i : ℤ} (h : Sweeps rs p l) (hnext : ¬i32 (i + r.step) < r.stop) :
    Sweeps (r :: rs) (i :: p) (l.map (i :: ·)) := by
  induction h with
  | last p p' hadv =>
    refine .last (i :: p) (r.start :: p') ?_
    rw [Iterator.advance, hadv]
    exact if_neg hnext
  | step p p' l hadv _ ih =>
    refine .step (i :: p) (i :: p') _ ?_ ih
    rw [Iterator.advance, hadv]

/-- A sweep begins with a sweep of the places behind the first index. -/
theorem Sweeps.uncons {i : ℤ} (h : Sweeps (r :: rs) (i :: p) l) (hlen : p.length = rs.length) :
    ∃ m l', Sweeps rs p m ∧ l = m.map (i :: ·) ++ l' ∧
      if i32 (i + r.step) < r.stop
      then Sweeps (r :: rs) (i32 (i + r.step) :: rs.map (·.start)) l' else l' = [] := by
  generalize hq : i :: p = q at h
  induction h generalizing p with
  | last q q' hadv =>
    subst hq
    rw [Iterator.advance] at hadv
    split at hadv
    · cases hadv
    · rename_i p' hrest
      dsimp only at hadv
      split at hadv
      · cases hadv
      · rename_i hnext
        refine ⟨[p], [], .last p p' hrest, rfl, ?_⟩
        rw [if_neg hnext]
  | step q q' l hadv hl ih =>
    subst hq
    rw [Iterator.advance] at hadv
    split at hadv
    · rename_i p' hrest
      cases hadv
      obtain ⟨m, l', hm, rfl, hl'⟩ := ih (advance_length hlen hrest) rfl
      exact ⟨p :: m, l', .step p p' m hrest hm, rfl, hl'⟩
    · rename_i p' hrest
      dsimp only at hadv
      split at hadv
      · rename_i hnext
        cases hadv
        refine ⟨[p], l, .last p p' hrest, rfl, ?_⟩
        rw [if_pos hnext, ← advance_carry hlen hrest]
        exact hl
      · cases hadv

/-- A sweep shows the tuple that it starts with first. -/
theorem Sweeps.head_eq (h : Sweeps rs p l) : l.head? = some p := by
  cases h <;> rfl

end Sweeps

section Enumeration

variable {r : LoopRange} {rs : List LoopRange}

/-- The step from one value to the next is exact. -/
theorem i32_step_of_lt (hr : Upward r) {k : ℕ} (hk : k + 1 < rangeCount r) :
    i32 (loopValue r k + r.step) = loopValue r (k + 1) := by
  have hlt := (lt_rangeCount_iff hr (k + 1)).mp hk
  have hzero : loopValue r 0 = r.start := by simp [loopValue]
  have hge : loopValue r 0 < loopValue r (k + 1) := loopValue_lt hr (Nat.zero_lt_succ k)
  have hstart := hr.start_ge
  have hstop := hr.stop_lt
  rw [← loopValue_succ]
  unfold i32
  omega

/-- Behind the last value the test of the loop fails exactly if the step does not overflow. -/
theorem i32_step_last_iff (hr : Upward r) {k : ℕ} (hk : k + 1 = rangeCount r) :
    i32 (loopValue r k + r.step) < r.stop ↔ ¬LastStepFits r := by
  have hlt := (lt_rangeCount_iff hr k).mp (by omega)
  have hge : ¬loopValue r (k + 1) < r.stop := by
    rw [← lt_rangeCount_iff hr]
    omega
  have hlast : LastStepFits r ↔ loopValue r k + r.step < 2 ^ 31 := by
    rw [LastStepFits, ← hk, Nat.add_sub_cancel]
  rw [loopValue_succ] at hge
  rw [hlast]
  have hstop := hr.stop_lt
  have hstop' := hr.stop_ge
  have hstep := hr.step_lt
  unfold i32
  constructor
  · intro h
    omega
  · intro h
    omega

theorem i32_step_ne (hr : Upward r) (v : ℤ) : i32 (v + r.step) ≠ v := by
  have hpos := hr.step_pos
  have hlt := hr.step_lt
  unfold i32
  omega

/-- The tuples of the nested loops whose first index has a value from round `k` on. -/
def roundsFrom (r : LoopRange) (rs : List LoopRange) (k n : ℕ) : List (List ℤ) :=
  (List.range' k n).flatMap fun j => (nestedLoops rs).map (loopValue r j :: ·)

theorem nestedLoops_cons (r : LoopRange) (rs : List LoopRange) :
    nestedLoops (r :: rs) = roundsFrom r rs 0 (rangeCount r) := by
  rw [nestedLoops, loopRange, List.flatMap_map, List.range_eq_range']
  rfl

theorem roundsFrom_succ (r : LoopRange) (rs : List LoopRange) (k n : ℕ) :
    roundsFrom r rs k (n + 1) =
      (nestedLoops rs).map (loopValue r k :: ·) ++ roundsFrom r rs (k + 1) n := by
  rw [roundsFrom, List.range'_succ, List.flatMap_cons]
  rfl

theorem head_roundsFrom (hr : Upward r) {k j n : ℕ} (hk : k < j) {t : List ℤ}
    (ht : t ∈ roundsFrom r rs j n) : t.head? ≠ some (loopValue r k) := by
  obtain ⟨i, hi, ht⟩ := List.mem_flatMap.mp ht
  obtain ⟨q, -, rfl⟩ := List.mem_map.mp ht
  have hlt := loopValue_lt hr (Nat.lt_of_lt_of_le hk (List.mem_range'_1.mp hi).1)
  intro heq
  rw [List.head?_cons, Option.some.injEq] at heq
  omega

/-- Two lists whose first blocks are the tuples with first index `v` have the same first block. -/
theorem block_unique {v : ℤ} {X M R R' : List (List ℤ)}
    (h : X.map (v :: ·) ++ R = M.map (v :: ·) ++ R')
    (hR : ∀ t, R.head? = some t → t.head? ≠ some v)
    (hR' : ∀ t, R'.head? = some t → t.head? ≠ some v) : X = M ∧ R = R' := by
  induction X generalizing M with
  | nil =>
    cases M with
    | nil => exact ⟨rfl, h⟩
    | cons m M =>
      rw [List.map_nil, List.nil_append] at h
      exact absurd rfl (hR (v :: m) (by rw [h]; rfl))
  | cons x X ih =>
    cases M with
    | nil =>
      rw [List.map_nil, List.nil_append] at h
      exact absurd rfl (hR' (v :: x) (by rw [← h]; rfl))
    | cons m M =>
      rw [List.map_cons, List.map_cons, List.cons_append, List.cons_append] at h
      obtain ⟨hhead, htail⟩ := List.cons.inj h
      obtain ⟨heq, hrest⟩ := ih htail
      exact ⟨by rw [List.tail_eq_of_cons_eq hhead, heq], hrest⟩

/-- The rounds of the first loop from `k` on are swept if the places behind it are. -/
theorem sweeps_roundsFrom (hr : Upward r) (hfits : LastStepFits r)
    (hrest : Sweeps rs (rs.map (·.start)) (nestedLoops rs)) (n k : ℕ)
    (hk : k + (n + 1) = rangeCount r) :
    Sweeps (r :: rs) (loopValue r k :: rs.map (·.start)) (roundsFrom r rs k (n + 1)) := by
  have hlen : (rs.map (·.start)).length = rs.length := List.length_map _
  induction n generalizing k with
  | zero =>
    have hlast : ¬i32 (loopValue r k + r.step) < r.stop :=
      fun h => (i32_step_last_iff hr hk).mp h hfits
    rw [roundsFrom_succ, show roundsFrom r rs (k + 1) 0 = [] from rfl, List.append_nil]
    exact hrest.cons_last hlast
  | succ n ih =>
    have hstep := i32_step_of_lt hr (k := k) (by omega)
    have hlt := (lt_rangeCount_iff hr (k + 1)).mp (by omega)
    rw [roundsFrom_succ]
    refine hrest.cons_append hlen ?_ ?_
    · rwa [hstep]
    · rw [hstep]
      exact ih (k + 1) (by omega)

/-- If the rounds of the first loop from `k` on are swept, so are the places behind it, and the last
step of the first loop does not overflow. -/
theorem sweeps_of_roundsFrom (hr : Upward r) (n k : ℕ) (hk : k + (n + 1) = rangeCount r)
    (h : Sweeps (r :: rs) (loopValue r k :: rs.map (·.start)) (roundsFrom r rs k (n + 1))) :
    Sweeps rs (rs.map (·.start)) (nestedLoops rs) ∧ LastStepFits r := by
  induction n generalizing k with
  | zero =>
    obtain ⟨m, l', hm, heq, hl'⟩ := h.uncons (List.length_map _)
    rw [roundsFrom_succ, show roundsFrom r rs (k + 1) 0 = [] from rfl] at heq
    have hhead : ∀ t, l'.head? = some t → t.head? ≠ some (loopValue r k) := by
      intro t ht
      split at hl'
      · rw [hl'.head_eq] at ht
        cases ht
        exact fun h => i32_step_ne hr _ (Option.some.inj h)
      · rw [hl'] at ht
        cases ht
    obtain ⟨rfl, hnil⟩ := block_unique heq (fun t ht => by cases ht) hhead
    refine ⟨hm, ?_⟩
    by_contra hfits
    rw [if_pos ((i32_step_last_iff hr hk).mpr hfits), ← hnil] at hl'
    cases hl'
  | succ n ih =>
    obtain ⟨m, l', hm, heq, hl'⟩ := h.uncons (List.length_map _)
    have hstep := i32_step_of_lt hr (k := k) (by omega)
    have hlt := (lt_rangeCount_iff hr (k + 1)).mp (by omega)
    rw [hstep, if_pos hlt] at hl'
    rw [roundsFrom_succ] at heq
    obtain ⟨-, hrounds⟩ := block_unique heq
      (fun t ht => head_roundsFrom hr (Nat.lt_add_one k) (List.mem_of_mem_head? ht))
      (fun t ht => by
        rw [hl'.head_eq] at ht
        cases ht
        have := loopValue_lt hr (Nat.lt_add_one k)
        rw [List.head?_cons, Ne, Option.some.injEq]
        omega)
    exact ih (k + 1) (by omega) (hrounds ▸ hl')

/-- The odometer sweeps through the nested loops. -/
theorem sweeps_nestedLoops_iff (rs : List LoopRange) (hrs : ∀ r ∈ rs, Upward r)
    (hne : ∀ r ∈ rs, loopRange r ≠ []) :
    Sweeps rs (rs.map (·.start)) (nestedLoops rs) ↔ ∀ r ∈ rs, LastStepFits r := by
  induction rs with
  | nil =>
    refine ⟨fun _ r hr => absurd hr List.not_mem_nil, fun _ => ?_⟩
    exact .last [] [] rfl
  | cons r rs ih =>
    have hr := hrs r List.mem_cons_self
    have hpos := rangeCount_pos (hne r List.mem_cons_self)
    have ih := ih (fun r' h => hrs r' (List.mem_cons_of_mem _ h))
      (fun r' h => hne r' (List.mem_cons_of_mem _ h))
    have hstart : loopValue r 0 = r.start := by simp [loopValue]
    obtain ⟨n, hn⟩ := Nat.exists_eq_succ_of_ne_zero hpos.ne'
    rw [nestedLoops_cons, List.map_cons, ← hstart, hn]
    constructor
    · intro h
      obtain ⟨hrest, hfits⟩ := sweeps_of_roundsFrom hr n 0 (by omega) h
      intro r' hr'
      cases List.mem_cons.mp hr' with
      | inl heq => exact heq ▸ hfits
      | inr hmem => exact ih.mp hrest r' hmem
    · intro h
      exact sweeps_roundsFrom hr (h r List.mem_cons_self)
        (ih.mpr fun r' h' => h r' (List.mem_cons_of_mem _ h')) n 0 (by omega)

/-- **The iterator goes through the nested loops exactly if no range is empty and no last step
overflows.**  The nested loops go through the product of the ranges in lexicographic order. -/
theorem iterator_enumerates_iff (rs : List LoopRange) (hrs : ∀ r ∈ rs, Upward r) :
    (Iterator.Yields (Iterator.begin rs) (nestedLoops rs) ↔
      ∀ r ∈ rs, r.start < r.stop ∧ LastStepFits r) ∧
    (∀ p, p ∈ nestedLoops rs ↔
      List.Forall₂ (fun (v : ℤ) r => ∃ k : ℕ, v = r.start + k * r.step ∧ v < r.stop) p rs) ∧
    (nestedLoops rs).Pairwise (List.Lex (· < ·)) := by
  have hempty : ∀ r ∈ rs, loopRange r ≠ [] ↔ r.start < r.stop := by
    intro r hr
    have hzero : loopValue r 0 = r.start := by simp [loopValue]
    rw [← hzero, ← lt_rangeCount_iff (hrs r hr), loopRange, Ne, List.map_eq_nil_iff,
      List.range_eq_nil, Nat.pos_iff_ne_zero]
  refine ⟨?_, fun p => ?_, nestedLoops_sorted rs hrs⟩
  · rw [Iterator.begin, yields_iff_sweeps]
    constructor
    · intro h
      have hnil : nestedLoops rs ≠ [] := by
        intro hnil
        rw [hnil] at h
        cases h
      have hne := loopRange_ne_nil hnil
      have hfits := (sweeps_nestedLoops_iff rs hrs hne).mp h
      exact fun r hr => ⟨(hempty r hr).mp (hne r hr), hfits r hr⟩
    · intro h
      have hne := fun r hr => (hempty r hr).mpr (h r hr).1
      exact (sweeps_nestedLoops_iff rs hrs hne).mpr fun r hr => (h r hr).2
  · rw [mem_nestedLoops]
    induction rs generalizing p with
    | nil => rw [List.forall₂_nil_right_iff, List.forall₂_nil_right_iff]
    | cons r rs ih =>
      have ih := ih (fun r' h => hrs r' (List.mem_cons_of_mem _ h))
        (fun r' h => hempty r' (List.mem_cons_of_mem _ h))
      rw [List.forall₂_cons_right_iff, List.forall₂_cons_right_iff]
      simp only [ih, mem_loopRange (hrs r List.mem_cons_self)]

theorem iterator_enumerates_two_loops :
    (Iterator.Yields (Iterator.begin [⟨0, 5, 2⟩, ⟨3, 5, 1⟩]) (nestedLoops [⟨0, 5, 2⟩, ⟨3, 5, 1⟩]) ↔
      ∀ r ∈ [⟨0, 5, 2⟩, ⟨3, 5, 1⟩], r.start < r.stop ∧ LastStepFits r) ∧
    nestedLoops [⟨0, 5, 2⟩, ⟨3, 5, 1⟩] = [[0, 3], [0, 4], [2, 3], [2, 4], [4, 3], [4, 4]] := by
  refine ⟨(iterator_enumerates_iff [⟨0, 5, 2⟩, ⟨3, 5, 1⟩] fun r hr => ?_).1, by decide⟩
  simp only [List.mem_cons, List.not_mem_nil, or_false] at hr
  rcases hr with rfl | rfl <;> constructor <;> decide

/-- An empty range is gone through once. -/
theorem not_iterator_enumerates :
    Upward ⟨0, 0, 1⟩ ∧ nestedLoops [⟨0, 0, 1⟩] = [] ∧
    Iterator.Yields (Iterator.begin [⟨0, 0, 1⟩]) [[0]] ∧
    ¬Iterator.Yields (Iterator.begin [⟨0, 0, 1⟩]) (nestedLoops [⟨0, 0, 1⟩]) := by
  refine ⟨by constructor <;> decide, rfl, ?_, fun h => ?_⟩
  · exact .next _ [] rfl (.done _ (by decide))
  · cases h with
    | done _ hfin => cases hfin

end Enumeration

end PyTorchSim.Analysis
