import PyTorchSim.Analysis.SortStages

/-!
# Sorting the lanes of a vector
-/

set_option autoImplicit false

namespace PyTorchSim.Analysis

open PyTorchSim.Model PyTorchSim.Library
open SortTemplate

section

variable {α : Type} [LinearOrder α]

/-- An element may stand before another one in the result: in the stable template equal values are
ordered by their index. -/
def comesFirst (descending stable : Bool) (x y : α × ℕ) : Prop :=
  if stable then
    (if descending then y.1 < x.1 else x.1 < y.1) ∨ x.1 = y.1 ∧ x.2 ≤ y.2
  else if descending then y.1 ≤ x.1 else x.1 ≤ y.1

variable {descending stable : Bool} {x y z : α × ℕ}

theorem comesFirst_total (descending stable : Bool) (x y : α × ℕ) :
    comesFirst descending stable x y ∨ comesFirst descending stable y x := by
  unfold comesFirst
  rcases lt_trichotomy x.1 y.1 with h | h | h <;> rcases le_total x.2 y.2 with h' | h' <;>
    cases descending <;> cases stable <;> simp [h, h', h.le, h.not_gt]

theorem comesFirst_trans (hxy : comesFirst descending stable x y)
    (hyz : comesFirst descending stable y z) : comesFirst descending stable x z := by
  unfold comesFirst at *
  cases descending <;> cases stable <;> simp at * <;> grind

theorem comesFirst_antisymm (hxy : comesFirst descending true x y)
    (hyx : comesFirst descending true y x) : x = y := by
  unfold comesFirst at *
  cases descending <;> simp at * <;> grind

/-- What a lane keeps of its element and the one of its partner. -/
def laneResult (descending stable first : Bool) (own other : α × ℕ) : α × ℕ :=
  let cmp := compareLanes descending stable (fun _ => own.1) (fun _ => other.1) (fun _ => own.2)
    (fun _ => other.2) 0
  if first != descending then (if cmp then own else other) else (if cmp then other else own)

/-- The first lane of a pair gets an element that may stand before both. -/
theorem laneResult_first (descending stable : Bool) (own other : α × ℕ) :
    (laneResult descending stable true own other = own ∨
      laneResult descending stable true own other = other) ∧
    comesFirst descending stable (laneResult descending stable true own other) own ∧
    comesFirst descending stable (laneResult descending stable true own other) other := by
  unfold laneResult compareLanes pairLessEqual comesFirst
  cases descending <;> cases stable <;> grind

/-- The second lane of a pair gets an element that may stand after both. -/
theorem laneResult_last (descending stable : Bool) (own other : α × ℕ) :
    (laneResult descending stable false own other = own ∨
      laneResult descending stable false own other = other) ∧
    comesFirst descending stable own (laneResult descending stable false own other) ∧
    comesFirst descending stable other (laneResult descending stable false own other) := by
  unfold laneResult compareLanes pairLessEqual comesFirst
  cases descending <;> cases stable <;> grind

/-- Two lanes that are compared keep or exchange their elements, unless the values are equal and the
sort is not stable: then both lanes get the same element. -/
theorem laneResult_pair (first : Bool) (x y : α × ℕ) :
    (laneResult descending stable first x y = x ∧ laneResult descending stable (!first) y x = y) ∨
    (laneResult descending stable first x y = y ∧ laneResult descending stable (!first) y x = x) ∨
    (stable = false ∧ x.1 = y.1 ∧
      laneResult descending stable first x y = laneResult descending stable (!first) y x) := by
  unfold laneResult compareLanes pairLessEqual
  cases descending <;> cases stable <;> cases first <;> grind

/-- When the values differ the indices do not matter. -/
theorem laneResult_of_ne (first : Bool) (hne : x.1 ≠ y.1) :
    laneResult descending false first x y = laneResult descending true first x y := by
  unfold laneResult compareLanes pairLessEqual
  cases descending <;> cases first <;> grind

/-- The unstable sort does not look at the indices. -/
theorem laneResult_map (first : Bool) (g : ℕ → ℕ) :
    laneResult descending false first (x.1, g x.2) (y.1, g y.2) =
      ((laneResult descending false first x y).1, g (laneResult descending false first x y).2) := by
  unfold laneResult compareLanes
  cases descending <;> cases first <;> grind

/-! ## The lanes of a vector -/

/-- The element of a lane. -/
def pairLane {α : Type} (p : PairVector α) (l : ℕ) : α × ℕ := (p.values l, p.indices l)

/-- A stage on the elements of the lanes. -/
def laneStage (descending stable : Bool) (size s : ℕ) (v : ℕ → α × ℕ) (a : ℕ) : α × ℕ :=
  laneResult descending stable (keepsFirst size s a) (v a) (v (partner s a))

/-- The stages of a list. -/
def laneRun (descending stable : Bool) (l : List (ℕ × ℕ)) (v : ℕ → α × ℕ) : ℕ → α × ℕ :=
  l.foldl (fun v s => laneStage descending stable s.1 s.2 v) v

/-- What is needed of the sizes and strides of a network on `n` places. -/
structure FitsStage (n : ℕ) (s : ℕ × ℕ) : Prop where
  pos : 0 < s.2
  block : 2 * s.2 ∣ s.1
  places : s.1 ∣ n
  size : 0 < s.1

theorem fitsStage {d : ℕ} {s : ℕ × ℕ} (hs : s ∈ networkStages d) : FitsStage (2 ^ d) s := by
  obtain ⟨e, t, hte, hed, rfl⟩ := mem_networkStages hs
  refine ⟨Nat.two_pow_pos t, ?_, Nat.pow_dvd_pow 2 hed, Nat.two_pow_pos _⟩
  change 2 * 2 ^ t ∣ 2 ^ (e + 1)
  rw [Nat.mul_comm, ← Nat.pow_succ]
  exact Nat.pow_dvd_pow 2 (Nat.succ_le_succ hte)

/-- The partner of a lane is a lane. -/
theorem partner_lt {n s a : ℕ} (hs : 0 < s) (hn : 2 * s ∣ n) (ha : a < n) : partner s a < n := by
  unfold partner
  split
  · next heven => exact pair_lt hs hn heven ha
  · omega

theorem laneStage_congr {n : ℕ} {s : ℕ × ℕ} (hs : FitsStage n s) {v w : ℕ → α × ℕ}
    (h : ∀ a < n, v a = w a) :
    ∀ a < n, laneStage descending stable s.1 s.2 v a = laneStage descending stable s.1 s.2 w a := by
  intro a ha
  unfold laneStage
  rw [h a ha, h _ (partner_lt hs.pos (hs.block.trans hs.places) ha)]

/-- A stage of the source on the lanes of a vector. -/
theorem sortStage_lane {n : ℕ} {s : ℕ × ℕ} (hs : FitsStage n s) (p : PairVector α) {a : ℕ}
    (ha : a < n) :
    pairLane (sortStage descending stable p (bitonicStage n descending s.1 s.2)) a =
      laneStage descending stable s.1 s.2 (pairLane p) a := by
  obtain ⟨hshuffle, hmask⟩ := bitonicStage_lane hs.pos hs.block hs.places hs.size descending ha
  set shuffle := (bitonicStage n descending s.1 s.2).shuffle with hdef
  have hcmp : compareLanes descending stable p.values (vectorShuffle p.values shuffle) p.indices
      (vectorShuffle p.indices shuffle) a =
      compareLanes descending stable (fun _ => p.values a) (fun _ => p.values (partner s.2 a))
        (fun _ => p.indices a) (fun _ => p.indices (partner s.2 a)) 0 := by
    unfold compareLanes pairLessEqual vectorShuffle
    rw [hshuffle]
  unfold laneStage laneResult pairLane sortStage selectLanes
  rw [← hdef]
  simp only [hmask, hcmp, vectorShuffle, hshuffle]
  split <;> split <;> rfl

/-- **The sort of a vector runs through the stages of the network.** -/
theorem bitonicSortPair_lane (d : ℕ) (descending stable : Bool) (p : PairVector α) {a : ℕ}
    (ha : a < 2 ^ d) :
    pairLane (bitonicSortPair p (2 ^ d) descending stable) a =
      laneRun descending stable (networkStages d) (pairLane p) a := by
  unfold bitonicSortPair laneRun
  rw [computeBitonicStages_eq, List.foldl_map]
  have hfits : ∀ s ∈ networkStages d, FitsStage (2 ^ d) s := fun s hs => fitsStage hs
  suffices h : ∀ (l : List (ℕ × ℕ)) (p : PairVector α) (v : ℕ → α × ℕ),
      (∀ s ∈ l, FitsStage (2 ^ d) s) → (∀ a < 2 ^ d, pairLane p a = v a) →
      ∀ a < 2 ^ d, pairLane (l.foldl (fun p s =>
        sortStage descending stable p (bitonicStage (2 ^ d) descending s.1 s.2)) p) a =
        l.foldl (fun v s => laneStage descending stable s.1 s.2 v) v a from
    h _ _ _ hfits (fun _ _ => rfl) a ha
  intro l
  induction l with
  | nil => exact fun p v _ h => h
  | cons s l ih =>
      intro p v hl h
      refine ih _ _ (fun t ht => hl t (List.mem_cons_of_mem s ht)) fun a ha => ?_
      have hs := hl s List.mem_cons_self
      rw [sortStage_lane hs p ha, laneStage_congr hs h a ha]

/-! ## The result is sorted -/

/-- The network as a run through its stages. -/
theorem sortBins_eq_foldl (m d : ℕ) (f : ℕ → ℕ) :
    sortBins m d f = (networkStages d).foldl (fun f s =>
      exchangeStage m (fun a => a / s.1 % 2 = 0) s.2 f) f := by
  induction d with
  | zero => rfl
  | succ d ih =>
      rw [networkStages, List.foldl_append, List.foldl_map, sortBins, ih]
      rfl

/-- The lanes whose element has a property. -/
def laneMarks (U : α × ℕ → Prop) [DecidablePred U] (v : ℕ → α × ℕ) (a : ℕ) : ℕ :=
  if U (v a) then 1 else 0

section

variable {U : α × ℕ → Prop} [DecidablePred U]
  (hU : ∀ x y, comesFirst descending stable x y → U x → U y)

include hU in
omit [DecidablePred U] in
/-- The first lane of a pair has a mark if both elements have one. -/
theorem laneResult_mark_first (x y : α × ℕ) :
    U (laneResult descending stable true x y) ↔ U x ∧ U y := by
  obtain ⟨hmem, hx, hy⟩ := laneResult_first descending stable x y
  constructor
  · exact fun h => ⟨hU _ _ hx h, hU _ _ hy h⟩
  · rintro ⟨hUx, hUy⟩
    rcases hmem with h | h <;> rw [h] <;> assumption

include hU in
omit [DecidablePred U] in
/-- The second lane of a pair has a mark if one of the elements has one. -/
theorem laneResult_mark_last (x y : α × ℕ) :
    U (laneResult descending stable false x y) ↔ U x ∨ U y := by
  obtain ⟨hmem, hx, hy⟩ := laneResult_last descending stable x y
  constructor
  · intro h
    rcases hmem with heq | heq <;> rw [heq] at h
    · exact .inl h
    · exact .inr h
  · rintro (h | h)
    · exact hU _ _ hx h
    · exact hU _ _ hy h

include hU in
/-- A stage exchanges the marks of the lanes. -/
theorem laneStage_marks (size s : ℕ) (v : ℕ → α × ℕ) :
    laneMarks U (laneStage descending stable size s v) =
      exchangeStage 1 (fun a => a / size % 2 = 0) s (laneMarks U v) := by
  funext a
  have hfirst (x y : α × ℕ) : (if U (laneResult descending stable true x y) then 1 else 0) =
      (if U x then 1 else 0) + (if U y then 1 else 0) - 1 := by
    rw [if_congr (laneResult_mark_first hU x y) rfl rfl]
    by_cases hx : U x <;> by_cases hy : U y <;> simp [hx, hy]
  have hlast (x y : α × ℕ) : (if U (laneResult descending stable false x y) then 1 else 0) =
      min 1 ((if U x then 1 else 0) + (if U y then 1 else 0)) := by
    rw [if_congr (laneResult_mark_last hU x y) rfl rfl]
    by_cases hx : U x <;> by_cases hy : U y <;> simp [hx, hy]
  unfold laneMarks exchangeStage exchange laneStage keepsFirst partner
  by_cases heven : a / s % 2 = 0 <;> by_cases hup : a / size % 2 = 0
  · simp [heven, hup, hfirst]
  · simp [heven, hup, hlast]
  · simp [heven, hup, hlast, Nat.add_comm]
  · simp [heven, hup, hfirst, Nat.add_comm]

include hU in
theorem laneRun_marks (d : ℕ) (v : ℕ → α × ℕ) :
    laneMarks U (laneRun descending stable (networkStages d) v) = sortBins 1 d (laneMarks U v) := by
  rw [sortBins_eq_foldl]
  unfold laneRun
  generalize networkStages d = l
  induction l generalizing v with
  | nil => rfl
  | cons s l ih => rw [List.foldl_cons, List.foldl_cons, ih, laneStage_marks hU]

end

/-- **The lanes of a vector are sorted.** -/
theorem laneRun_sorted (d : ℕ) (v : ℕ → α × ℕ) {a b : ℕ} (hab : a < b) (hb : b < 2 ^ d) :
    comesFirst descending stable (laneRun descending stable (networkStages d) v a)
      (laneRun descending stable (networkStages d) v b) := by
  classical
  by_contra hnot
  set w := laneRun descending stable (networkStages d) v with hw
  have hU : ∀ x y, comesFirst descending stable x y → comesFirst descending stable (w a) x →
      comesFirst descending stable (w a) y := fun x y hxy hx => comesFirst_trans hx hxy
  have hmarks := laneRun_marks hU d v
  have hle : ∀ c, laneMarks (comesFirst descending stable (w a)) v c ≤ 1 := by
    intro c
    unfold laneMarks
    split <;> decide
  obtain ⟨len, -, hsorted⟩ := sortBins_sorted (e := d) (b := 0) Nat.one_pos hle (Nat.dvd_zero _)
  have hmark (c : ℕ) (hc : c < 2 ^ d) :
      laneMarks (comesFirst descending stable (w a)) w c = sortedBins 1 (2 ^ d) true len c := by
    have hup : upBlock d 0 = true := by
      rw [upBlock, Nat.zero_div]
      rfl
    rw [hw, hmarks, ← hup, ← hsorted c hc, Nat.zero_add]
  have hself : laneMarks (comesFirst descending stable (w a)) w a = 1 := by
    unfold laneMarks
    exact if_pos ((comesFirst_total descending stable (w a) (w a)).elim id id)
  have hother : laneMarks (comesFirst descending stable (w a)) w b = 0 := by
    unfold laneMarks
    exact if_neg hnot
  have hpos : 0 < sortedBins 1 (2 ^ d) true len a := by
    rw [← hmark a (hab.trans hb), hself]
    exact Nat.one_pos
  have hfull := sortedBins_full hab hb hpos
  rw [← hmark b hb, hother] at hfull
  cases hfull

/-! ## The result is a rearrangement -/

/-- The first `n` values of a function. -/
def row {β : Type} (n : ℕ) (w : ℕ → β) : List β := (List.range n).map w

theorem count_row {β : Type} [DecidableEq β] (n : ℕ) (w : ℕ → β) (x : β) :
    (row n w).count x = (Finset.range n).sum fun a => if w a = x then 1 else 0 := by
  unfold row
  induction n with
  | zero => rfl
  | succ n ih =>
      rw [List.range_succ, List.map_append, List.count_append, ih, Finset.sum_range_succ]
      simp [List.count_singleton]

theorem row_congr {β : Type} {n : ℕ} {w w' : ℕ → β} (h : ∀ a < n, w a = w' a) :
    row n w = row n w' :=
  List.map_congr_left fun a ha => h a (List.mem_range.mp ha)

theorem mem_row {β : Type} {n : ℕ} {w : ℕ → β} {x : β} : x ∈ row n w ↔ ∃ a < n, w a = x := by
  simp [row]

/-- What the two lanes of a pair get. -/
theorem laneStage_pair (descending stable : Bool) {size s a : ℕ} (hs : 0 < s)
    (hsize : 2 * s ∣ size) (ha : a / s % 2 = 0) (v : ℕ → α × ℕ) :
    laneStage descending stable size s v a =
      laneResult descending stable (keepsFirst size s a) (v a) (v (a + s)) ∧
    laneStage descending stable size s v (a + s) =
      laneResult descending stable (!keepsFirst size s a) (v (a + s)) (v a) := by
  obtain ⟨hnext, hblock⟩ := pair_second hs hsize ha
  have hback : partner s (a + s) = a := by
    rw [partner, hnext, if_neg (by decide)]
    omega
  have hfirst : keepsFirst size s (a + s) = !keepsFirst size s a := by
    unfold keepsFirst
    rw [hnext, hblock, ha]
    simp
  unfold laneStage
  rw [hback, hfirst, partner, if_pos ha]
  exact ⟨rfl, rfl⟩

/-- A stage rearranges what is read off the elements, if it is the same for two elements of equal
value that an unstable stage compares. -/
theorem laneStage_perm {γ : Type} [DecidableEq γ] {n : ℕ} {s : ℕ × ℕ} (hs : FitsStage n s)
    (g : α × ℕ → γ) (v : ℕ → α × ℕ)
    (hg : ∀ a, a / s.2 % 2 = 0 → a + s.2 < n → stable = false → (v a).1 = (v (a + s.2)).1 →
      g (v a) = g (v (a + s.2))) :
    (row n fun a => g (laneStage descending stable s.1 s.2 v a)).Perm (row n fun a => g (v a)) := by
  rw [List.perm_iff_count]
  intro x
  rw [count_row, count_row]
  refine sum_pairs hs.pos (hs.block.trans hs.places) fun a ha han => ?_
  obtain ⟨hlow, hhigh⟩ := laneStage_pair descending stable hs.pos hs.block ha v
  rw [hlow, hhigh]
  rcases laneResult_pair (keepsFirst s.1 s.2 a) (v a) (v (a + s.2)) with h | h | h
  · rw [h.1, h.2]
  · rw [h.1, h.2, Nat.add_comm]
  · obtain ⟨hstable, hvalue, heq⟩ := h
    have hsame := hg a ha han hstable hvalue
    have hmem : laneResult descending stable (!keepsFirst s.1 s.2 a) (v (a + s.2)) (v a) = v a ∨
        laneResult descending stable (!keepsFirst s.1 s.2 a) (v (a + s.2)) (v a) = v (a + s.2) := by
      cases keepsFirst s.1 s.2 a with
      | true => exact (laneResult_last descending stable _ _).1.symm
      | false => exact (laneResult_first descending stable _ _).1.symm
    rw [heq]
    rcases hmem with hmem | hmem <;> rw [hmem, hsame]

/-- The network rearranges what is read off the elements, if it is the same for elements of equal
value or the sort is stable. -/
theorem laneRun_perm {γ : Type} [DecidableEq γ] (descending stable : Bool) (d : ℕ) (g : α × ℕ → γ)
    (hg : stable = false → ∀ x y, x.1 = y.1 → g x = g y) (v : ℕ → α × ℕ) :
    (row (2 ^ d) fun a => g (laneRun descending stable (networkStages d) v a)).Perm
      (row (2 ^ d) fun a => g (v a)) := by
  have hfits : ∀ s ∈ networkStages d, FitsStage (2 ^ d) s := fun s hs => fitsStage hs
  revert hfits
  unfold laneRun
  generalize networkStages d = l
  intro hl
  induction l generalizing v with
  | nil => exact List.Perm.refl _
  | cons s l ih =>
      refine (ih _ fun t ht => hl t (List.mem_cons_of_mem s ht)).trans ?_
      exact laneStage_perm (hl s List.mem_cons_self) g v fun _ _ _ hstable h => hg hstable _ _ h

theorem laneRun_values (d : ℕ) (v : ℕ → α × ℕ) :
    (row (2 ^ d) fun a => (laneRun descending stable (networkStages d) v a).1).Perm
      (row (2 ^ d) fun a => (v a).1) :=
  laneRun_perm descending stable d Prod.fst (fun _ _ _ h => h) v

theorem laneRun_stable (d : ℕ) (v : ℕ → α × ℕ) :
    (row (2 ^ d) (laneRun descending true (networkStages d) v)).Perm (row (2 ^ d) v) :=
  laneRun_perm descending true d id (fun h => nomatch h) v

/-- Each lane gets an element of some lane. -/
theorem laneRun_mem (d : ℕ) (v : ℕ → α × ℕ) {a : ℕ} (ha : a < 2 ^ d) :
    laneRun descending stable (networkStages d) v a ∈ row (2 ^ d) v := by
  have hfits : ∀ s ∈ networkStages d, FitsStage (2 ^ d) s := fun s hs => fitsStage hs
  revert hfits
  unfold laneRun
  generalize networkStages d = l
  intro hl
  induction l generalizing v with
  | nil => exact mem_row.mpr ⟨a, ha, rfl⟩
  | cons s l ih =>
      have hs := hl s List.mem_cons_self
      obtain ⟨b, hb, heq⟩ := mem_row.mp (ih (laneStage descending stable s.1 s.2 v)
        fun t ht => hl t (List.mem_cons_of_mem s ht))
      rw [List.foldl_cons, ← heq]
      have hpartner := partner_lt hs.pos (hs.block.trans hs.places) hb
      have hmem : laneStage descending stable s.1 s.2 v b = v b ∨
          laneStage descending stable s.1 s.2 v b = v (partner s.2 b) := by
        unfold laneStage
        cases keepsFirst s.1 s.2 b with
        | true => exact (laneResult_first descending stable _ _).1
        | false => exact (laneResult_last descending stable _ _).1
      rcases hmem with hmem | hmem <;> rw [hmem]
      · exact mem_row.mpr ⟨b, hb, rfl⟩
      · exact mem_row.mpr ⟨_, hpartner, rfl⟩

end

end PyTorchSim.Analysis
