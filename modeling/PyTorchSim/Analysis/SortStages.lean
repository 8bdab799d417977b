import Mathlib.Data.List.Basic
import Mathlib.Tactic.Ring
import PyTorchSim.Library.BitonicMerge
import PyTorchSim.Model.SortTemplate

/-!
# The stages of the sort kernel

The loops over the sizes and strides run through the stages of a bitonic network: for the sizes
2, 4, … the strides from half the size down to 1.  Both the lanes of a vector and the chunks of a row
are compared in these stages.  A lane is compared with the lane a stride after or before it, and
keeps the smaller value if it is the first of the two in a block of even number.
-/

set_option autoImplicit false

namespace PyTorchSim.Analysis

open PyTorchSim.Model PyTorchSim.Library
open SortTemplate

/-- The sizes and strides of a network on `2 ^ d` places. -/
def networkStages : ℕ → List (ℕ × ℕ)
  | 0 => []
  | d + 1 => networkStages d ++ (halvings (d + 1)).map fun s => (2 ^ (d + 1), s)

/-- The strides are halved down to 1. -/
theorem strides_two_pow (e : ℕ) : strides (2 ^ e) = halvings (e + 1) := by
  induction e with
  | zero =>
      unfold strides
      rw [if_pos (by decide), Nat.pow_zero]
      unfold strides
      rfl
  | succ e ih =>
      have hhalf : 2 ^ (e + 1) / 2 = 2 ^ e := by
        rw [Nat.pow_succ, Nat.mul_div_cancel _ Nat.two_pos]
      unfold strides
      rw [if_pos (Nat.one_le_two_pow), hhalf, ih]
      rfl

/-- The sizes are doubled up to the number of places. -/
theorem sizes_two_pow (n e : ℕ) :
    sizes (2 ^ (e + n)) (2 ^ (e + 1)) = (List.range' (e + 1) n).map (2 ^ ·) := by
  induction n generalizing e with
  | zero =>
      have hnot : ¬(0 < 2 ^ (e + 1) ∧ 2 ^ (e + 1) ≤ 2 ^ e) := by
        have := Nat.two_pow_pos e
        rw [Nat.pow_succ]
        omega
      change sizes (2 ^ e) _ = _
      unfold sizes
      rw [if_neg hnot]
      rfl
  | succ n ih =>
      have hle : 2 ^ (e + 1) ≤ 2 ^ (e + (n + 1)) := Nat.pow_le_pow_right Nat.two_pos (by omega)
      have hnext := ih (e + 1)
      have hsum : e + 1 + n = e + (n + 1) := by omega
      rw [hsum, Nat.pow_succ 2 (e + 1)] at hnext
      unfold sizes
      rw [if_pos ⟨Nat.two_pow_pos _, hle⟩, hnext, List.range'_succ, List.map_cons]

theorem networkStages_eq (d : ℕ) :
    networkStages d = (List.range' 1 d).flatMap fun e => (halvings e).map fun s => (2 ^ e, s) := by
  induction d with
  | zero => rfl
  | succ d ih =>
      rw [networkStages, ih, List.range'_1_concat, List.flatMap_append, List.flatMap_singleton,
        Nat.add_comm 1 d]

/-- **The loops over sizes and strides run through the stages of the network.** -/
theorem stages_eq (d : ℕ) {β : Type} (f : ℕ → ℕ → List β) :
    ((sizes (2 ^ d) 2).flatMap fun size => (strides (size / 2)).flatMap fun stride =>
      f size stride) = (networkStages d).flatMap fun s => f s.1 s.2 := by
  have hsizes := sizes_two_pow d 0
  rw [Nat.zero_add, Nat.zero_add, Nat.pow_one] at hsizes
  rw [hsizes, networkStages_eq, List.flatMap_map, List.flatMap_assoc]
  refine List.flatMap_congr fun e he => ?_
  obtain ⟨hpos, -⟩ := List.mem_range'_1.mp he
  obtain ⟨e, rfl⟩ := Nat.exists_eq_add_of_le' hpos
  rw [Nat.pow_succ, Nat.mul_div_cancel _ Nat.two_pos, strides_two_pow, List.flatMap_map]

theorem mem_halvings {e s : ℕ} (hs : s ∈ halvings e) : ∃ t < e, s = 2 ^ t := by
  induction e with
  | zero => exact absurd hs List.not_mem_nil
  | succ e ih =>
      rcases List.mem_cons.mp hs with rfl | hs
      · exact ⟨e, Nat.lt_succ_self e, rfl⟩
      · obtain ⟨t, ht, rfl⟩ := ih hs
        exact ⟨t, Nat.lt_succ_of_lt ht, rfl⟩

/-- The sizes and strides of a network. -/
theorem mem_networkStages {d : ℕ} {s : ℕ × ℕ} (hs : s ∈ networkStages d) :
    ∃ e t, t ≤ e ∧ e < d ∧ s = (2 ^ (e + 1), 2 ^ t) := by
  induction d with
  | zero => exact absurd hs List.not_mem_nil
  | succ d ih =>
      rcases List.mem_append.mp hs with hs | hs
      · obtain ⟨e, t, hte, hed, rfl⟩ := ih hs
        exact ⟨e, t, hte, Nat.lt_succ_of_lt hed, rfl⟩
      · obtain ⟨n, hn, rfl⟩ := List.mem_map.mp hs
        obtain ⟨t, ht, rfl⟩ := mem_halvings hn
        exact ⟨d, t, Nat.le_of_lt_succ ht, Nat.lt_succ_self d, rfl⟩

theorem computeBitonicStages_eq (d : ℕ) (descending : Bool) :
    computeBitonicStages (2 ^ d) descending =
      (networkStages d).map fun s => bitonicStage (2 ^ d) descending s.1 s.2 := by
  unfold computeBitonicStages
  simp only [List.map_eq_flatMap]
  exact stages_eq d fun size stride => [bitonicStage (2 ^ d) descending size stride]

/-! ## The lanes of a stage -/

theorem mem_pyRange {start stop step x : ℕ} (hstep : 0 < step) :
    x ∈ pyRange start stop step ↔ ∃ t, x = start + step * t ∧ x < stop := by
  unfold pyRange
  rw [List.mem_range']
  constructor
  · rintro ⟨t, ht, rfl⟩
    refine ⟨t, rfl, ?_⟩
    have hlt := (Nat.lt_div_iff_mul_lt hstep).mp ht
    rw [Nat.mul_comm] at hlt
    omega
  · rintro ⟨t, rfl, hlt⟩
    refine ⟨t, (Nat.lt_div_iff_mul_lt hstep).mpr ?_, rfl⟩
    rw [Nat.mul_comm]
    omega

/-- The lane that a lane is compared with. -/
def partner (s a : ℕ) : ℕ := if a / s % 2 = 0 then a + s else a - s

/-- Whether a lane is the first of its pair, in the direction of its block. -/
def keepsFirst (size s a : ℕ) : Bool := (a / size % 2 = 0) == (a / s % 2 = 0)

section

variable {n size s a : ℕ}

/-- The second lane of a pair is a stride after the first one, in the same block. -/
theorem pair_second (hs : 0 < s) (hsize : 2 * s ∣ size) (ha : a / s % 2 = 0) :
    (a + s) / s % 2 = 1 ∧ (a + s) / size = a / size := by
  obtain ⟨u, rfl⟩ := hsize
  have hdouble : (a + s) / (2 * s) = a / (2 * s) := by
    rw [Nat.mul_comm 2 s, ← Nat.div_div_eq_div_mul, ← Nat.div_div_eq_div_mul,
      Nat.add_div_right a hs]
    omega
  refine ⟨?_, ?_⟩
  · rw [Nat.add_div_right a hs]
    omega
  · rw [← Nat.div_div_eq_div_mul (a + s) (2 * s) u, ← Nat.div_div_eq_div_mul a (2 * s) u, hdouble]

/-- A pair does not leave a whole number of blocks. -/
theorem pair_lt (hs : 0 < s) (hn : 2 * s ∣ n) (ha : a / s % 2 = 0) (han : a < n) : a + s < n := by
  obtain ⟨-, hblock⟩ := pair_second hs (Nat.dvd_refl (2 * s)) ha
  obtain ⟨w, rfl⟩ := hn
  have hlt : a / (2 * s) < w := by
    rw [Nat.div_lt_iff_lt_mul (by omega), Nat.mul_comm w]
    exact han
  rw [← hblock, Nat.div_lt_iff_lt_mul (by omega), Nat.mul_comm w] at hlt
  exact hlt

/-- A lane that is not the first of its pair is the second one. -/
theorem pair_first (ha : ¬a / s % 2 = 0) : s ≤ a ∧ (a - s) / s % 2 = 0 := by
  have hle : s ≤ a := by
    by_contra hlt
    rw [Nat.div_eq_of_lt (by omega)] at ha
    exact ha rfl
  have hsub := Nat.sub_mul_div a s 1
  rw [Nat.mul_one] at hsub
  refine ⟨hle, ?_⟩
  rw [hsub]
  omega

end

/-- The pairs of lanes of a stage, in the order of the loops, with the start of their block. -/
def lanePairs (n size s : ℕ) : List (ℕ × ℕ) :=
  (pyRange 0 n size).flatMap fun start =>
    (pyRange start (start + size - s) (s * 2)).flatMap fun i =>
      (List.range s).map fun j2 => (start, i + j2)

section

variable {n size s : ℕ}

/-- The first lanes of the pairs are the lanes of even stride number, each in its block. -/
theorem mem_lanePairs (hs : 0 < s) (hsize : 2 * s ∣ size) (hn : size ∣ n) {start a : ℕ} :
    (start, a) ∈ lanePairs n size s ↔ a / s % 2 = 0 ∧ a < n ∧ start = size * (a / size) := by
  obtain ⟨u, rfl⟩ := hsize
  obtain ⟨w, rfl⟩ := hn
  rcases Nat.eq_zero_or_pos u with rfl | hu
  · have hempty : pyRange 0 (2 * s * 0 * w) (2 * s * 0) = [] := by
      unfold pyRange
      simp
    unfold lanePairs
    rw [hempty]
    simp
  have hpos : 0 < 2 * s * u := Nat.mul_pos (by omega) hu
  simp only [lanePairs, List.mem_flatMap, List.mem_map, Prod.mk.injEq, List.mem_range,
    mem_pyRange hpos, mem_pyRange (show 0 < s * 2 by omega)]
  constructor
  · rintro ⟨_, ⟨b, rfl, hb⟩, _, ⟨v, rfl, hv⟩, j, hj, rfl, rfl⟩
    have hinside : s * 2 * v + j < 2 * s * u := by omega
    have hdiv : (0 + 2 * s * u * b + s * 2 * v + j) / (2 * s * u) = b := by
      rw [Nat.zero_add, Nat.add_assoc, Nat.mul_add_div hpos, Nat.div_eq_of_lt hinside]
      rfl
    refine ⟨?_, ?_, ?_⟩
    · have hstride : (0 + 2 * s * u * b + s * 2 * v + j) / s = 2 * (u * b + v) := by
        have hsum : 0 + 2 * s * u * b + s * 2 * v + j = s * (2 * (u * b + v)) + j := by ring
        rw [hsum, Nat.mul_add_div hs, Nat.div_eq_of_lt hj, Nat.add_zero]
      rw [hstride, Nat.mul_mod_right]
    · have hbw : b < w := Nat.lt_of_mul_lt_mul_left (a := 2 * s * u) (by omega)
      have hle := Nat.mul_le_mul_left (2 * s * u) (Nat.succ_le_of_lt hbw)
      rw [Nat.mul_succ] at hle
      omega
    · rw [hdiv, Nat.zero_add]
  · rintro ⟨heven, ha, rfl⟩
    have hmod := Nat.div_add_mod a (2 * s * u)
    have hlt := Nat.mod_lt a hpos
    have htwo : a % (2 * s * u) % (2 * s) = a % s := by
      rw [Nat.mod_mod_of_dvd _ ⟨u, rfl⟩, Nat.mul_comm 2 s, Nat.mod_mul, heven, Nat.mul_zero,
        Nat.add_zero]
    have hrest := Nat.div_add_mod (a % (2 * s * u)) (2 * s)
    have hpart : a % (2 * s * u) / (2 * s) < u := by
      rw [Nat.div_lt_iff_lt_mul (by omega), Nat.mul_comm u]
      exact hlt
    have hroom := Nat.mul_le_mul_left (2 * s) (Nat.succ_le_of_lt hpart)
    rw [Nat.mul_succ] at hroom
    rw [htwo] at hrest
    refine ⟨2 * s * u * (a / (2 * s * u)), ⟨a / (2 * s * u), by omega, by omega⟩,
      2 * s * u * (a / (2 * s * u)) + s * 2 * (a % (2 * s * u) / (2 * s)),
      ⟨_, rfl, ?_⟩, a % s, Nat.mod_lt a hs, rfl, ?_⟩
    · rw [Nat.mul_comm s 2]
      omega
    · rw [Nat.mul_comm s 2]
      omega

/-- What is known of a lane whose pair has been marked. -/
def Marked (size s : ℕ) (merged : List ℕ × List (Option Bool)) (l : ℕ) : Prop :=
  merged.1[l]? = some (partner s l) ∧ merged.2[l]? = some (some (keepsFirst size s l))

/-- Marking the pair of a lane marks both lanes and no other one. -/
theorem markPair_marked {merged : List ℕ × List (Option Bool)} {start a l : ℕ}
    (h1 : merged.1.length = n) (h2 : merged.2.length = n) (hs : 0 < s) (hsize : 2 * s ∣ size)
    (ha : a / s % 2 = 0) (han : a + s < n) (hstart : start / size = a / size)
    (hl : l = a ∨ l = a + s ∨ Marked size s merged l) :
    Marked size s (markPair (start / size % 2 = 0) a (a + s) merged) l := by
  obtain ⟨hnext, hblock⟩ := pair_second hs hsize ha
  have hpartner : partner s (a + s) = a := by
    rw [partner, hnext, if_neg (by decide)]
    omega
  have hpartner' : partner s a = a + s := by rw [partner, if_pos ha]
  unfold Marked markPair
  simp only [List.getElem?_set, List.length_set, h1, h2]
  by_cases hla : l = a
  · subst hla
    have hne : ¬l + s = l := by omega
    simp only [hne, if_true, if_false, hpartner', keepsFirst, ha, hstart, decide_true, beq_true]
    simp [show l < n by omega]
  · by_cases hls : l = a + s
    · subst hls
      simp only [if_true, han, hpartner, keepsFirst, hnext, hblock, hstart]
      simp
    · obtain ⟨hshuffle, hmask⟩ := (hl.resolve_left hla).resolve_left hls
      simp only [Ne.symm hla, Ne.symm hls, if_false]
      exact ⟨hshuffle, hmask⟩

theorem markPair_length (merged : List ℕ × List (Option Bool)) (ascending : Bool) (a b : ℕ) :
    (markPair ascending a b merged).1.length = merged.1.length ∧
    (markPair ascending a b merged).2.length = merged.2.length := by
  simp [markPair]

/-- Marking pairs marks their lanes. -/
theorem foldl_markPair (l : List (ℕ × ℕ)) (merged : List ℕ × List (Option Bool))
    (h1 : merged.1.length = n) (h2 : merged.2.length = n) (hs : 0 < s) (hsize : 2 * s ∣ size)
    (hl : ∀ p ∈ l, p.2 / s % 2 = 0 ∧ p.2 + s < n ∧ p.1 / size = p.2 / size) {a : ℕ}
    (ha : (∃ p ∈ l, a = p.2 ∨ a = p.2 + s) ∨ Marked size s merged a) :
    Marked size s (l.foldl (fun merged p =>
      markPair (p.1 / size % 2 = 0) p.2 (p.2 + s) merged) merged) a := by
  induction l generalizing merged with
  | nil => exact ha.resolve_left (by simp)
  | cons p l ih =>
      obtain ⟨heven, hroom, hstart⟩ := hl p List.mem_cons_self
      obtain ⟨h1', h2'⟩ := markPair_length merged (p.1 / size % 2 = 0) p.2 (p.2 + s)
      refine ih _ (h1'.trans h1) (h2'.trans h2) (fun q hq => hl q (List.mem_cons_of_mem p hq)) ?_
      have hmark {b : ℕ} := markPair_marked (l := b) h1 h2 hs hsize heven hroom hstart
      rcases ha with ⟨q, hq, hqa⟩ | ha
      · rcases List.mem_cons.mp hq with rfl | hq
        · exact .inr (hmark (hqa.imp_right .inl))
        · exact .inl ⟨q, hq, hqa⟩
      · exact .inr (hmark (.inr (.inr ha)))

/-- **A stage compares each lane with its partner**, and the first of the pair in the direction of
the block keeps the smaller value (the larger one in a descending network). -/
theorem bitonicStage_lane (hs : 0 < s) (hsize : 2 * s ∣ size) (hn : size ∣ n) (hpos : 0 < size)
    (descending : Bool) {a : ℕ} (ha : a < n) :
    (bitonicStage n descending size s).shuffle.getD a 0 = partner s a ∧
    constantMask (bitonicStage n descending size s).selectMin a =
      (keepsFirst size s a != descending) := by
  have hfold : (pyRange 0 n size).foldl (fun merged start =>
      let ascending : Bool := start / size % 2 = 0
      (pyRange start (start + size - s) (s * 2)).foldl (fun merged i =>
        (List.range s).foldl (fun merged j2 =>
          markPair ascending (i + j2) (i + j2 + s) merged) merged) merged)
      (List.range n, List.replicate n none) =
      (lanePairs n size s).foldl (fun merged p =>
        markPair (p.1 / size % 2 = 0) p.2 (p.2 + s) merged)
        (List.range n, List.replicate n none) := by
    unfold lanePairs
    simp only [List.foldl_flatMap, List.foldl_map]
  have hpairs : ∀ p ∈ lanePairs n size s,
      p.2 / s % 2 = 0 ∧ p.2 + s < n ∧ p.1 / size = p.2 / size := by
    rintro ⟨start, b⟩ hp
    obtain ⟨heven, hb, rfl⟩ := (mem_lanePairs hs hsize hn).mp hp
    exact ⟨heven, pair_lt hs (hsize.trans hn) heven hb, by rw [Nat.mul_div_cancel_left _ hpos]⟩
  have htouched : ∃ p ∈ lanePairs n size s, a = p.2 ∨ a = p.2 + s := by
    by_cases heven : a / s % 2 = 0
    · exact ⟨_, (mem_lanePairs hs hsize hn).mpr ⟨heven, ha, rfl⟩, .inl rfl⟩
    · obtain ⟨hle, hfirst⟩ := pair_first heven
      refine ⟨_, (mem_lanePairs (a := a - s) hs hsize hn).mpr ⟨hfirst, by omega, rfl⟩, .inr ?_⟩
      dsimp only
      omega
  obtain ⟨hshuffle, hmask⟩ := foldl_markPair (lanePairs n size s)
    (List.range n, List.replicate n none) List.length_range List.length_replicate hs hsize hpairs
    (.inl htouched)
  unfold bitonicStage
  rw [hfold]
  refine ⟨by rw [List.getD_eq_getElem?_getD, hshuffle]; rfl, ?_⟩
  unfold constantMask
  cases descending <;> simp [List.getD_eq_getElem?_getD, hmask]

end

end PyTorchSim.Analysis
