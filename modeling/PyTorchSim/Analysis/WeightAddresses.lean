import PyTorchSim.Library.ClosedIntervals
import PyTorchSim.Model.WeightRanges

/-!
# Which addresses are taken for those of weights

The merged ranges are separated, and cover what the ranges of the parameters cover.  The script
joins ranges that touch, which suits ends that lie outside their ranges; the simulator counts the
end of a merged range as a part of it.  So the first byte behind a parameter is taken for a weight,
unless the range is lost: an end of `2 ^ 64` is not a number the simulator reads.
-/

set_option autoImplicit false

namespace PyTorchSim.Analysis

open Library Model

/-- The address lies in a parameter. -/
def InTensor (parameters : List WeightTensor) (addr : ℕ) : Prop :=
  ∃ p ∈ parameters, p.dataPtr ≤ addr ∧ addr < p.dataPtr + p.sizeBytes

/-- The address is the first one behind a parameter. -/
def EndsAt (parameters : List WeightTensor) (addr : ℕ) : Prop :=
  ∃ p ∈ parameters, p.dataPtr + p.sizeBytes = addr

instance (parameters : List WeightTensor) (addr : ℕ) : Decidable (InTensor parameters addr) :=
  inferInstanceAs (Decidable (∃ p ∈ parameters, _))

instance (parameters : List WeightTensor) (addr : ℕ) : Decidable (EndsAt parameters addr) :=
  inferInstanceAs (Decidable (∃ p ∈ parameters, _))

/-! ## The script -/

section Merge

variable {last range : ℕ × ℕ} {ranges : List (ℕ × ℕ)}

theorem mergeFrom_cons (last range : ℕ × ℕ) (ranges : List (ℕ × ℕ)) :
    mergeFrom last (range :: ranges) =
      if range.1 ≤ last.2 then mergeFrom (last.1, max last.2 range.2) ranges
      else last :: mergeFrom range ranges := by
  rw [mergeFrom]
  split
  · rfl
  · next hapart => rw [if_neg (by omega)]

/-- The ranges that follow the first one are in order as well. -/
theorem sorted_skip (hi : ℕ)
    (hsorted : (last :: range :: ranges).Pairwise fun r r' => r.1 ≤ r'.1) :
    ((last.1, hi) :: ranges).Pairwise fun r r' => r.1 ≤ r'.1 := by
  obtain ⟨hlast, hrest⟩ := List.pairwise_cons.1 hsorted
  exact List.pairwise_cons.2 ⟨fun r hr => hlast r (List.mem_cons_of_mem range hr),
    (List.pairwise_cons.1 hrest).2⟩

/-- The merged ranges begin where the first range begins, or later. -/
theorem le_of_mem_mergeFrom (hsorted : (last :: ranges).Pairwise fun r r' => r.1 ≤ r'.1) :
    ∀ r ∈ mergeFrom last ranges, last.1 ≤ r.1 := by
  induction ranges generalizing last with
  | nil => simp [mergeFrom]
  | cons range ranges ih =>
    rw [mergeFrom_cons]
    split
    · exact ih (sorted_skip (max last.2 range.2) hsorted)
    · intro r hr
      obtain ⟨hlast, hrest⟩ := List.pairwise_cons.1 hsorted
      rcases List.mem_cons.1 hr with rfl | hr
      · exact le_rfl
      · exact (hlast range (List.mem_cons_self ..)).trans (ih hrest r hr)

/-- **The merged ranges are separated.** -/
theorem mergeFrom_separated (hlast : last.1 ≤ last.2) (hle : ∀ r ∈ ranges, r.1 ≤ r.2)
    (hsorted : (last :: ranges).Pairwise fun r r' => r.1 ≤ r'.1) :
    Separated Prod.fst Prod.snd (mergeFrom last ranges) := by
  induction ranges generalizing last with
  | nil => exact Separated.nil.cons hlast (by simp)
  | cons range ranges ih =>
    have hrange := hle range (List.mem_cons_self ..)
    have htail : ∀ r ∈ ranges, r.1 ≤ r.2 := fun r hr => hle r (List.mem_cons_of_mem range hr)
    rw [mergeFrom_cons]
    split
    · have hmax : last.1 ≤ max last.2 range.2 := hlast.trans (le_max_left ..)
      exact ih hmax htail (sorted_skip (max last.2 range.2) hsorted)
    · next hapart =>
      have hrest := (List.pairwise_cons.1 hsorted).2
      refine Separated.cons hlast (fun r hr => ?_) (ih hrange htail hrest)
      exact (not_le.1 hapart).trans_le (le_of_mem_mergeFrom hrest r hr)

/-- What two ranges that meet cover together is covered by the range that they are joined to. -/
def JoinsRanges (Covers : ℕ × ℕ → Prop) : Prop :=
  ∀ r r' : ℕ × ℕ, r.1 ≤ r'.1 → r'.1 ≤ r.2 →
    (Covers (r.1, max r.2 r'.2) ↔ Covers r ∨ Covers r')

theorem mergeFrom_covers {Covers : ℕ × ℕ → Prop} (hjoin : JoinsRanges Covers)
    (hsorted : (last :: ranges).Pairwise fun r r' => r.1 ≤ r'.1) :
    (∃ r ∈ mergeFrom last ranges, Covers r) ↔ ∃ r ∈ last :: ranges, Covers r := by
  induction ranges generalizing last with
  | nil => simp [mergeFrom]
  | cons range ranges ih =>
    obtain ⟨hlast, hrest⟩ := List.pairwise_cons.1 hsorted
    rw [mergeFrom_cons]
    split
    · next hmeet =>
      rw [ih (sorted_skip (max last.2 range.2) hsorted)]
      simp only [List.mem_cons, exists_eq_or_imp]
      rw [hjoin last range (hlast range (List.mem_cons_self ..)) hmeet, or_assoc]
    · rw [List.exists_mem_cons_iff, ih hrest, List.exists_mem_cons_iff (a := last)]

end Merge

/-! ### All ranges -/

section MergeRanges

variable {ranges : List (ℕ × ℕ)}

theorem sorted_insertionSort (ranges : List (ℕ × ℕ)) :
    (ranges.insertionSort fun r r' => r.1 < r'.1 ∨ r.1 = r'.1 ∧ r.2 ≤ r'.2).Pairwise
      fun r r' => r.1 ≤ r'.1 := by
  have htotal : Std.Total fun r r' : ℕ × ℕ => r.1 < r'.1 ∨ r.1 = r'.1 ∧ r.2 ≤ r'.2 :=
    ⟨fun r r' => by omega⟩
  have htrans : IsTrans (ℕ × ℕ) fun r r' => r.1 < r'.1 ∨ r.1 = r'.1 ∧ r.2 ≤ r'.2 :=
    ⟨fun r r' r'' => by omega⟩
  refine (List.pairwise_insertionSort _ ranges).imp fun {r r'} h => ?_
  omega

theorem mergeRanges_separated (hle : ∀ r ∈ ranges, r.1 ≤ r.2) :
    Separated Prod.fst Prod.snd (mergeRanges ranges) := by
  have hsorted := sorted_insertionSort ranges
  have hle' : ∀ r ∈ ranges.insertionSort fun r r' => r.1 < r'.1 ∨ r.1 = r'.1 ∧ r.2 ≤ r'.2,
      r.1 ≤ r.2 := fun r hr => hle r ((List.mem_insertionSort _).1 hr)
  rw [mergeRanges]
  split
  · exact Separated.nil
  · next last rest hlist =>
    rw [hlist] at hsorted hle'
    exact mergeFrom_separated (hle' last (List.mem_cons_self ..))
      (fun r hr => hle' r (List.mem_cons_of_mem last hr)) hsorted

theorem mergeRanges_covers {Covers : ℕ × ℕ → Prop} (hjoin : JoinsRanges Covers) :
    (∃ r ∈ mergeRanges ranges, Covers r) ↔ ∃ r ∈ ranges, Covers r := by
  have hsorted := sorted_insertionSort ranges
  have hmem : ∀ r, r ∈ (ranges.insertionSort
      fun r r' => r.1 < r'.1 ∨ r.1 = r'.1 ∧ r.2 ≤ r'.2) ↔ r ∈ ranges :=
    fun r => List.mem_insertionSort _
  simp only [← hmem]
  rw [mergeRanges]
  split
  · next hlist => rw [hlist]
  · next last rest hlist =>
    rw [hlist] at hsorted ⊢
    exact mergeFrom_covers hjoin hsorted

end MergeRanges

theorem joinsRanges_halfOpen (addr : ℕ) : JoinsRanges fun r => r.1 ≤ addr ∧ addr < r.2 :=
  fun _ _ hlo hmeet => meet_union hlo hmeet

theorem joinsRanges_closed (addr : ℕ) : JoinsRanges fun r => r.1 ≤ addr ∧ addr ≤ r.2 :=
  fun _ _ hlo hmeet => meet_union_closed hlo hmeet

/-! ## The simulator -/

section Load

open WeightAddressRanges

variable {lines : List (ℕ × ℕ)} {line : ℕ × ℕ}

theorem readLine_of_le (hle : line.1 ≤ line.2) :
    WeightAddressRanges.readLine line =
      if line.2 < 2 ^ 64 then some ⟨line.1, line.2⟩ else none := by
  rw [WeightAddressRanges.readLine, if_neg (not_lt.2 hle)]
  by_cases h : line.2 < 2 ^ 64
  · rw [if_pos ⟨hle.trans_lt h, h⟩, if_pos h]
  · rw [if_neg (fun hboth => h hboth.2), if_neg h]

theorem filterMap_readLine_separated (h : Separated Prod.fst Prod.snd lines) :
    Separated WeightRange.base WeightRange.last (lines.filterMap WeightAddressRanges.readLine) := by
  induction lines with
  | nil => exact Separated.nil
  | cons line lines ih =>
    have hle := h.ordered line (List.mem_cons_self ..)
    have hread := readLine_of_le hle
    by_cases hfit : line.2 < 2 ^ 64
    · rw [if_pos hfit] at hread
      rw [List.filterMap_cons_some hread]
      refine Separated.cons hle (fun r hr => ?_) (ih h.tail)
      obtain ⟨line', hline', hread'⟩ := List.mem_filterMap.1 hr
      rw [readLine_of_le (h.tail.ordered line' hline')] at hread'
      split at hread'
      · cases hread'
        exact h.head_apart line' hline'
      · cases hread'
    · rw [if_neg hfit] at hread
      rw [List.filterMap_cons_none hread]
      exact ih h.tail

/-- Separated lines are loaded in the order they stand in. -/
theorem load_of_separated (h : Separated Prod.fst Prod.snd lines) :
    load lines = lines.filterMap WeightAddressRanges.readLine :=
  List.Pairwise.insertionSort_eq (filterMap_readLine_separated h).sorted

theorem isWeightAddress_load (h : Separated Prod.fst Prod.snd lines) (addr : UInt64) :
    isWeightAddress (load lines) addr = true ↔
      ∃ line ∈ lines, line.2 < 2 ^ 64 ∧ line.1 ≤ addr.toNat ∧ addr.toNat ≤ line.2 := by
  have hsearch := (filterMap_readLine_separated h).search addr.toNat
  have hlast : isWeightAddress (load lines) addr = true ↔
      ∃ r ∈ ((lines.filterMap WeightAddressRanges.readLine).takeWhile fun r => r.base ≤ addr.toNat).getLast?,
        addr.toNat ≤ r.last := by
    rw [isWeightAddress, load_of_separated h]
    split
    · next hnone => simp [hnone]
    · next r hsome => simp [hsome]
  rw [hlast, hsearch]
  constructor
  · rintro ⟨r, hr, hlo, hhi⟩
    obtain ⟨line, hline, hread⟩ := List.mem_filterMap.1 hr
    rw [readLine_of_le (h.ordered line hline)] at hread
    split at hread
    · next hfit =>
      cases hread
      exact ⟨line, hline, hfit, hlo, hhi⟩
    · cases hread
  · rintro ⟨line, hline, hfit, hlo, hhi⟩
    refine ⟨⟨line.1, line.2⟩, List.mem_filterMap.2 ⟨line, hline, ?_⟩, hlo, hhi⟩
    rw [readLine_of_le (h.ordered line hline), if_pos hfit]

end Load

/-! ## The addresses of the parameters -/

section Classification

open WeightAddressRanges

variable {parameters : List WeightTensor}

/-- The script finds the ends of every range in order already. -/
theorem parseRanges_dump (parameters : List WeightTensor) :
    parseRanges (dumpModuleWeightRanges parameters) = dumpModuleWeightRanges parameters := by
  simp [parseRanges, dumpModuleWeightRanges]

/-- The ranges of the parameters after the script. -/
theorem separated_parameters (parameters : List WeightTensor) :
    Separated Prod.fst Prod.snd (mergeRanges (dumpModuleWeightRanges parameters)) := by
  apply mergeRanges_separated
  simp [dumpModuleWeightRanges]

theorem covers_parameters {Covers : ℕ × ℕ → Prop} (hjoin : JoinsRanges Covers) :
    (∃ r ∈ mergeRanges (dumpModuleWeightRanges parameters), Covers r) ↔
      ∃ p ∈ parameters, Covers (p.dataPtr, p.dataPtr + p.sizeBytes) := by
  rw [mergeRanges_covers hjoin]
  simp [dumpModuleWeightRanges]

/-- The end of a merged range lies in no parameter. -/
theorem not_inTensor_end {range : ℕ × ℕ}
    (hrange : range ∈ mergeRanges (dumpModuleWeightRanges parameters)) :
    ¬ InTensor parameters range.2 := by
  intro hin
  have hsep := separated_parameters parameters
  obtain ⟨range', hrange', hlo, hhi⟩ := (covers_parameters (joinsRanges_halfOpen range.2)).2 hin
  have hsame : range = range' :=
    hsep.unique hrange hrange' (hsep.ordered range hrange) le_rfl hlo hhi.le
  rw [← hsame] at hhi
  exact absurd hhi (lt_irrefl range.2)

/-- **What is taken for a weight**: the addresses of the parameters and the first addresses behind
them, unless the bytes of parameters go on from there to the end of the address space. -/
theorem isWeightAddress_loaded (parameters : List WeightTensor) (addr : UInt64) :
    isWeightAddress (loadedWeightRanges parameters) addr = true ↔
      (InTensor parameters addr.toNat ∨ EndsAt parameters addr.toNat) ∧
        ∃ b < 2 ^ 64, addr.toNat ≤ b ∧ ¬ InTensor parameters b := by
  have hclosed : (∃ r ∈ mergeRanges (dumpModuleWeightRanges parameters),
      r.1 ≤ addr.toNat ∧ addr.toNat ≤ r.2) ↔
        InTensor parameters addr.toNat ∨ EndsAt parameters addr.toNat := by
    rw [covers_parameters (joinsRanges_closed addr.toNat)]
    constructor
    · rintro ⟨p, hp, hlo, hhi⟩
      rcases hhi.lt_or_eq with hlt | heq
      · exact Or.inl ⟨p, hp, hlo, hlt⟩
      · exact Or.inr ⟨p, hp, heq.symm⟩
    · rintro (⟨p, hp, hlo, hlt⟩ | ⟨p, hp, hend⟩)
      · exact ⟨p, hp, hlo, hlt.le⟩
      · exact ⟨p, hp, by omega, hend.ge⟩
  rw [loadedWeightRanges, parseRanges_dump,
    isWeightAddress_load (separated_parameters parameters), ← hclosed]
  constructor
  · rintro ⟨r, hr, hfit, hlo, hhi⟩
    exact ⟨⟨r, hr, hlo, hhi⟩, r.2, hfit, hhi, not_inTensor_end hr⟩
  · rintro ⟨⟨r, hr, hlo, hhi⟩, b, hb, haddr, hout⟩
    refine ⟨r, hr, ?_, hlo, hhi⟩
    by_contra hlong
    -- the range would have the address `b` as well
    have hcovered : r.1 ≤ b ∧ b < r.2 := by omega
    exact hout ((covers_parameters (joinsRanges_halfOpen b)).1 ⟨r, hr, hcovered⟩)

/-- **When an address is told apart correctly**: it is not the first one behind a parameter without
lying in another, and the bytes of parameters do not go on from it to the end of the address space.
-/
theorem isWeightAddress_exact_iff (parameters : List WeightTensor) (addr : UInt64) :
    (isWeightAddress (loadedWeightRanges parameters) addr = true ↔
        InTensor parameters addr.toNat) ↔
      (EndsAt parameters addr.toNat → InTensor parameters addr.toNat) ∧
        ∃ b < 2 ^ 64, addr.toNat ≤ b ∧ ¬ InTensor parameters b := by
  rw [isWeightAddress_loaded]
  by_cases hin : InTensor parameters addr.toNat
  · simp [hin]
  · have hfree : ∃ b < 2 ^ 64, addr.toNat ≤ b ∧ ¬ InTensor parameters b :=
      ⟨addr.toNat, addr.toNat_lt, le_rfl, hin⟩
    rw [or_iff_right hin, and_iff_left hfree, and_iff_left hfree, iff_false_right hin]
    exact (imp_iff_not hin).symm

/-- The byte behind a parameter of 64 bytes is taken for a weight. -/
theorem isWeightAddress_behind :
    ¬ (isWeightAddress (loadedWeightRanges [⟨4096, 64⟩]) 4160 = true ↔
      InTensor [⟨4096, 64⟩] (4160 : UInt64).toNat) := by
  decide

end Classification

end PyTorchSim.Analysis
