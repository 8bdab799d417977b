import PyTorchSim.Analysis.ChunkNetwork

/-!
# The sort kernel runs the network on the chunks

The loops of the kernel go over the pairs of chunks of each stage.  Each chunk is in one pair, so
that the loops do what the stage does to all chunks at once.
-/

set_option autoImplicit false

namespace PyTorchSim.Analysis

open PyTorchSim.Model PyTorchSim.Library
open SortTemplate

section

variable {α : Type} [LinearOrder α] {descending stable : Bool}

/-! ## Only the lanes of a vector matter -/

theorem laneRun_congr (d : ℕ) {v w : ℕ → α × ℕ} (h : ∀ a < 2 ^ d, v a = w a) :
    ∀ a < 2 ^ d, laneRun descending stable (networkStages d) v a =
      laneRun descending stable (networkStages d) w a := by
  have hfits : ∀ s ∈ networkStages d, FitsStage (2 ^ d) s := fun s hs => fitsStage hs
  revert hfits
  unfold laneRun
  generalize networkStages d = l
  intro hl
  induction l generalizing v w with
  | nil => exact h
  | cons s l ih =>
      exact ih (laneStage_congr (hl s List.mem_cons_self) h)
        fun t ht => hl t (List.mem_cons_of_mem s ht)

theorem sortLanes_congr {v w : ℕ → α × ℕ} (h : ∀ a < 16, v a = w a) :
    ∀ a < 16, sortLanes descending stable v a = sortLanes descending stable w a :=
  laneRun_congr 4 h

theorem splitLanes_congr (descending stable : Bool) {x y x' y' : ℕ → α × ℕ} (hx : ∀ a < 16, x a = x' a)
    (hy : ∀ a < 16, y a = y' a) :
    ∀ a < 16, (splitLanes descending stable x y).1 a = (splitLanes descending stable x' y').1 a ∧
      (splitLanes descending stable x y).2 a = (splitLanes descending stable x' y').2 a := by
  intro a ha
  have hrev := hy (15 - a) (by omega)
  dsimp only [splitLanes]
  rw [hx a ha, hrev]
  exact ⟨rfl, rfl⟩

/-- The sort of a vector in the source. -/
theorem bitonicSortPair_sortLanes (descending stable : Bool) (p : PairVector α) {v : ℕ → α × ℕ}
    (h : ∀ a < 16, pairLane p a = v a) :
    ∀ a < 16, pairLane (bitonicSortPair p VECTOR_SIZE descending stable) a =
      sortLanes descending stable v a := by
  intro a ha
  have hlane := bitonicSortPair_lane 4 descending stable p (a := a) ha
  exact hlane.trans (laneRun_congr 4 h a ha)

theorem compareSorted_iff (stable : Bool) (ascending : Bool) (leftV rightV : ℕ → α)
    (leftI rightI : ℕ → ℕ) (l : ℕ) :
    compareSorted ascending stable leftV rightV leftI rightI l = true ↔
      comesFirst (!ascending) stable (leftV l, leftI l) (rightV l, rightI l) := by
  unfold compareSorted comesFirst pairLessEqual pairGreaterEqual
  cases ascending <;> cases stable <;> simp

/-- The comparison of two sorted vectors in the source. -/
theorem mergeSortedPairVectors_lane (stable : Bool) (ascending : Bool) (left right : PairVector α)
    {x y : ℕ → α × ℕ} (hx : ∀ a < 16, pairLane left a = x a)
    (hy : ∀ a < 16, pairLane right a = y a) :
    let merged := mergeSortedPairVectors left right ascending stable revIndices
    ∀ a < 16, pairLane merged.1 a = (splitLanes (!ascending) stable x y).1 a ∧
      pairLane merged.2 a = (splitLanes (!ascending) stable x y).2 a := by
  intro merged a ha
  have hrev : revIndices.getD a 0 = 15 - a := by
    have hall : ∀ l < 16, revIndices.getD l 0 = 15 - l := by decide
    exact hall a ha
  have hiff := compareSorted_iff stable ascending left.values
    (vectorShuffle right.values revIndices) left.indices (vectorShuffle right.indices revIndices) a
  have hleft : (left.values a, left.indices a) = x a := hx a ha
  have hright : (vectorShuffle right.values revIndices a, vectorShuffle right.indices revIndices a) =
      y (15 - a) := by
    rw [vectorShuffle, vectorShuffle, hrev]
    exact hy (15 - a) (by omega)
  rw [hleft, hright] at hiff
  dsimp only [merged, mergeSortedPairVectors, pairLane, selectLanes, splitLanes]
  by_cases hc : comesFirst (!ascending) stable (x a) (y (15 - a))
  · rw [if_pos (hiff.mpr hc), if_pos (hiff.mpr hc), if_pos (hiff.mpr hc), if_pos (hiff.mpr hc),
      if_pos hc, if_pos hc]
    exact ⟨hleft, hright⟩
  · have hnot := mt hiff.mp hc
    rw [if_neg hnot, if_neg hnot, if_neg hnot, if_neg hnot, if_neg hc, if_neg hc]
    exact ⟨hright, hleft⟩

/-! ## The buffers -/

/-- The first chunks of the buffers. -/
def Holds (n : ℕ) (buf : SortBuffers α) (f : ℕ → ℕ → α × ℕ) : Prop :=
  ∀ c < n, ∀ a < 16, (buf.yv (c * 16 + a), buf.xi (c * 16 + a)) = f c a

omit [LinearOrder α] in
/-- A chunk that is stored. -/
theorem Holds.store {n c : ℕ} {buf : SortBuffers α} {f : ℕ → ℕ → α × ℕ} (h : Holds n buf f)
    {p : PairVector α} {v : ℕ → α × ℕ} (hv : ∀ a < 16, pairLane p a = v a) :
    Holds n (buf.store p (c * VECTOR_SIZE)) (Function.update f c v) := by
  intro e he a ha
  unfold SortBuffers.store SortTemplate.store VECTOR_SIZE
  dsimp only
  by_cases hec : e = c
  · subst hec
    have hin : e * 16 ≤ e * 16 + a ∧ e * 16 + a < e * 16 + 16 := by omega
    have hsub : e * 16 + a - e * 16 = a := by omega
    rw [if_pos hin, if_pos hin, hsub, Function.update_self]
    exact hv a ha
  · have hout : ¬(c * 16 ≤ e * 16 + a ∧ e * 16 + a < c * 16 + 16) := by omega
    rw [if_neg hout, if_neg hout, Function.update_of_ne hec]
    exact h e he a ha

/-- The body of the merge loops. -/
theorem Holds.mergeChunks (stable : Bool) {n c e : ℕ} {buf : SortBuffers α} {f : ℕ → ℕ → α × ℕ}
    (h : Holds n buf f) (hc : c < n) (he : e < n) (ascDir : Bool) :
    Holds n (SortTemplate.mergeChunks ascDir stable (c * VECTOR_SIZE) (e * VECTOR_SIZE) buf)
      (Function.update (Function.update f c (exchangeLanes (!ascDir) stable (f c) (f e)).1) e
        (exchangeLanes (!ascDir) stable (f c) (f e)).2) := by
  have hload {b : ℕ} (hb : b < n) : ∀ a < 16, pairLane (buf.load (b * VECTOR_SIZE)) a = f b a :=
    fun a ha => h b hb a ha
  have hleft := bitonicSortPair_sortLanes (!ascDir) stable _ (hload hc)
  have hright := bitonicSortPair_sortLanes (!ascDir) stable _ (hload he)
  have hmerge := mergeSortedPairVectors_lane stable ascDir _ _ hleft hright
  refine (h.store ?_).store ?_
  · exact bitonicSortPair_sortLanes _ _ _ fun a ha => (hmerge a ha).1
  · exact bitonicSortPair_sortLanes _ _ _ fun a ha => (hmerge a ha).2

/-! ## The loops -/

/-- The first chunks of the pairs, in the order of the loops. -/
def loopChunks (n k j start : ℕ) : List ℕ :=
  (pyRange start n (2 * k)).flatMap fun base =>
    (pyRange 0 k (2 * j)).flatMap fun p => (List.range j).map fun q => base + p + q

theorem runLoops_eq (n : ℕ) (buf : SortBuffers α) (loops : MergeLoops) :
    runLoops n stable buf loops = (loopChunks n loops.k loops.j loops.blockStart).foldl
      (fun buf c => SortTemplate.mergeChunks loops.ascDir stable (c * VECTOR_SIZE)
        ((c + loops.j) * VECTOR_SIZE) buf) buf := by
  unfold runLoops loopChunks
  simp only [List.foldl_flatMap, List.foldl_map]

section

variable {n k j t : ℕ}

/-- The first chunks of the pairs are the chunks of even stride number, in the blocks of one
parity. -/
theorem mem_loopChunks (hj : 0 < j) (hk : 2 * j ∣ k) (hkpos : 0 < k) (hn : k ∣ n) (ht : t < 2)
    {c : ℕ} : c ∈ loopChunks n k j (k * t) ↔ c < n ∧ c / j % 2 = 0 ∧ c / k % 2 = t := by
  obtain ⟨u, rfl⟩ := hk
  obtain ⟨w, rfl⟩ := hn
  simp only [loopChunks, List.mem_flatMap, List.mem_map, List.mem_range,
    mem_pyRange (show 0 < 2 * (2 * j * u) by omega), mem_pyRange (show 0 < 2 * j by omega)]
  constructor
  · rintro ⟨_, ⟨b, rfl, hb⟩, _, ⟨v, rfl, hv⟩, q, hq, rfl⟩
    have hvu : v < u := Nat.lt_of_mul_lt_mul_left (a := 2 * j) (by omega)
    have hroom := Nat.mul_le_mul_left (2 * j) (Nat.succ_le_of_lt hvu)
    rw [Nat.mul_succ] at hroom
    have hbase : 2 * j * u * t + 2 * (2 * j * u) * b = 2 * j * u * (t + 2 * b) := by ring
    rw [hbase] at hb ⊢
    have hblock : t + 2 * b < w := Nat.lt_of_mul_lt_mul_left (a := 2 * j * u) hb
    have hlast := Nat.mul_le_mul_left (2 * j * u) (Nat.succ_le_of_lt hblock)
    rw [Nat.mul_succ] at hlast
    refine ⟨by omega, ?_, ?_⟩
    · have hsum : 2 * j * u * (t + 2 * b) + (0 + 2 * j * v) + q =
          j * (2 * (u * (t + 2 * b) + v)) + q := by ring
      rw [hsum, Nat.mul_add_div hj, Nat.div_eq_of_lt hq, Nat.add_zero, Nat.mul_mod_right]
    · rw [Nat.add_assoc, Nat.mul_add_div hkpos, Nat.div_eq_of_lt (by omega)]
      omega
  · rintro ⟨hc, heven, hblock⟩
    have hdiv := Nat.div_add_mod c (2 * j * u)
    have hlt := Nat.mod_lt c hkpos
    have hparity := Nat.div_add_mod (c / (2 * j * u)) 2
    have htwo : c % (2 * j * u) % (2 * j) = c % j := by
      rw [Nat.mod_mod_of_dvd _ ⟨u, rfl⟩, Nat.mul_comm 2 j, Nat.mod_mul, heven, Nat.mul_zero,
        Nat.add_zero]
    have hrest := Nat.div_add_mod (c % (2 * j * u)) (2 * j)
    rw [htwo] at hrest
    have hbase : 2 * j * u * t + 2 * (2 * j * u) * (c / (2 * j * u) / 2) =
        2 * j * u * (c / (2 * j * u)) := by
      conv_rhs => rw [← hparity, hblock]
      ring
    refine ⟨2 * j * u * t + 2 * (2 * j * u) * (c / (2 * j * u) / 2), ⟨_, rfl, by omega⟩,
      0 + 2 * j * (c % (2 * j * u) / (2 * j)), ⟨_, rfl, by omega⟩, c % j, Nat.mod_lt c hj, ?_⟩
    omega

/-- The numbers of a range are a step apart. -/
theorem pyRange_pairwise {start stop step : ℕ} (hstep : 0 < step) :
    (pyRange start stop step).Pairwise fun a b => a + step ≤ b := by
  refine (List.pairwise_lt_range' step hstep).imp_of_mem fun ha hb hab => ?_
  obtain ⟨u, -, rfl⟩ := List.mem_range'.mp ha
  obtain ⟨w, -, rfl⟩ := List.mem_range'.mp hb
  have huw : u < w := Nat.lt_of_mul_lt_mul_left (a := step) (by omega)
  have hle := Nat.mul_le_mul_left step (Nat.succ_le_of_lt huw)
  rw [Nat.mul_succ] at hle
  omega

/-- No pair comes twice. -/
theorem loopChunks_nodup (hj : 0 < j) (hk : 2 * j ∣ k) (hkpos : 0 < k) (start : ℕ) :
    (loopChunks n k j start).Nodup := by
  have hsorted : (loopChunks n k j start).Pairwise (· < ·) := by
    have hinner {p q : ℕ} (hp : p ∈ pyRange 0 k (2 * j)) (hq : q < j) : p + q < k := by
      obtain ⟨v, rfl, hv⟩ := (mem_pyRange (by omega)).mp hp
      obtain ⟨u, rfl⟩ := hk
      have hvu : v < u := Nat.lt_of_mul_lt_mul_left (a := 2 * j) (by omega)
      have hroom := Nat.mul_le_mul_left (2 * j) (Nat.succ_le_of_lt hvu)
      rw [Nat.mul_succ] at hroom
      omega
    unfold loopChunks
    rw [List.pairwise_flatMap]
    refine ⟨fun base _ => ?_, ?_⟩
    · rw [List.pairwise_flatMap]
      refine ⟨fun p _ => ?_, ?_⟩
      · rw [List.pairwise_map]
        exact List.pairwise_lt_range.imp fun h => by omega
      · refine (pyRange_pairwise (by omega)).imp fun {p p'} hpp x hx y hy => ?_
        obtain ⟨q, hq, rfl⟩ := List.mem_map.mp hx
        obtain ⟨q', -, rfl⟩ := List.mem_map.mp hy
        have := List.mem_range.mp hq
        omega
    · refine (pyRange_pairwise (by omega)).imp fun {b b'} hbb x hx y hy => ?_
      obtain ⟨p, hp, hx⟩ := List.mem_flatMap.mp hx
      obtain ⟨q, hq, rfl⟩ := List.mem_map.mp hx
      obtain ⟨p', -, hy⟩ := List.mem_flatMap.mp hy
      obtain ⟨q', -, rfl⟩ := List.mem_map.mp hy
      have := hinner hp (List.mem_range.mp hq)
      omega
  exact hsorted.imp fun h => Nat.ne_of_lt h

end

/-- What the loops do to the chunks, when the pairs of a list are merged. -/
def exchangeAll (d stable : Bool) (j : ℕ) (l : List ℕ) (f : ℕ → ℕ → α × ℕ) (c : ℕ) : ℕ → α × ℕ :=
  if c ∈ l then (exchangeLanes d stable (f c) (f (c + j))).1
  else if j ≤ c ∧ c - j ∈ l then (exchangeLanes d stable (f (c - j)) (f c)).2
  else f c

/-- Merging one pair more. -/
theorem exchangeAll_cons {d : Bool} {j b : ℕ} {l : List ℕ} (hj : 0 < j) (hb : b ∉ l)
    (heven : ∀ c ∈ b :: l, c / j % 2 = 0) (f g : ℕ → ℕ → α × ℕ)
    (hfirst : g b = (exchangeLanes d stable (f b) (f (b + j))).1)
    (hsecond : g (b + j) = (exchangeLanes d stable (f b) (f (b + j))).2)
    (hother : ∀ c, c ≠ b → c ≠ b + j → g c = f c) :
    exchangeAll d stable j l g = exchangeAll d stable j (b :: l) f := by
  have hodd (c : ℕ) (hc : c ∈ b :: l) : c + j ∉ b :: l := by
    intro hin
    have hnext := heven _ hin
    rw [Nat.add_div_right c hj] at hnext
    have := heven c hc
    omega
  funext c
  unfold exchangeAll
  by_cases hc : c ∈ l
  · have hcons : c ∈ b :: l := List.mem_cons_of_mem b hc
    have hcb : c ≠ b := fun heq => hb (heq ▸ hc)
    have hcj : c ≠ b + j := fun heq => hodd b List.mem_cons_self (heq ▸ hcons)
    have hnext : c + j ≠ b := fun heq => hodd c hcons (heq ▸ List.mem_cons_self)
    rw [if_pos hc, if_pos hcons, hother c hcb hcj, hother (c + j) hnext (by omega)]
  · rw [if_neg hc]
    by_cases hcb : c = b
    · subst hcb
      have hback : ¬(j ≤ c ∧ c - j ∈ l) := by
        rintro ⟨hle, hin⟩
        apply hodd (c - j) (List.mem_cons_of_mem c hin)
        rw [Nat.sub_add_cancel hle]
        exact List.mem_cons_self
      rw [if_neg hback, if_pos List.mem_cons_self, hfirst]
    · have hcons : c ∉ b :: l := fun hin => (List.mem_cons.mp hin).elim hcb hc
      rw [if_neg hcons]
      by_cases hcj : c = b + j
      · subst hcj
        rw [Nat.add_sub_cancel, if_neg fun h => hb h.2, if_pos ⟨by omega, List.mem_cons_self⟩,
          hsecond]
      · rw [hother c hcb hcj]
        by_cases hback : j ≤ c ∧ c - j ∈ l
        · have hback' : j ≤ c ∧ c - j ∈ b :: l := ⟨hback.1, List.mem_cons_of_mem b hback.2⟩
          have hne : c - j ≠ b := by omega
          have hne' : c - j ≠ b + j := fun heq => hodd b List.mem_cons_self (heq ▸ hback'.2)
          rw [if_pos hback, if_pos hback', hother (c - j) hne hne']
        · have hback' : ¬(j ≤ c ∧ c - j ∈ b :: l) := by
            rintro ⟨hle, hin⟩
            rcases List.mem_cons.mp hin with heq | hin
            · omega
            · exact hback ⟨hle, hin⟩
          rw [if_neg hback, if_neg hback']

/-- The loops merge each pair once. -/
theorem Holds.foldl {n j : ℕ} {buf : SortBuffers α} {f : ℕ → ℕ → α × ℕ} (h : Holds n buf f)
    (ascDir : Bool) (hj : 0 < j) (l : List ℕ) (hl : l.Nodup)
    (hmem : ∀ c ∈ l, c / j % 2 = 0 ∧ c + j < n) :
    Holds n (l.foldl (fun buf c => SortTemplate.mergeChunks ascDir stable (c * VECTOR_SIZE)
      ((c + j) * VECTOR_SIZE) buf) buf) (exchangeAll (!ascDir) stable j l f) := by
  induction l generalizing buf f with
  | nil =>
      intro c hc a ha
      simp only [exchangeAll, List.not_mem_nil, and_false, if_false]
      exact h c hc a ha
  | cons b l ih =>
      obtain ⟨hb, hl⟩ := List.nodup_cons.mp hl
      obtain ⟨-, hroom⟩ := hmem b List.mem_cons_self
      have hnext := h.mergeChunks stable (show b < n by omega) hroom ascDir
      have hrest := ih hnext hl fun c hc => hmem c (List.mem_cons_of_mem b hc)
      have hne : b ≠ b + j := by omega
      rw [exchangeAll_cons hj hb (fun c hc => (hmem c hc).1) f _
        (by rw [Function.update_of_ne hne, Function.update_self]) (Function.update_self _ _ _)
        fun c hcb hcj => by rw [Function.update_of_ne hcj, Function.update_of_ne hcb]] at hrest
      exact hrest

/-- The blocks of one parity. -/
theorem Holds.runLoops (stable : Bool) {n k j t : ℕ} {buf : SortBuffers α} {f : ℕ → ℕ → α × ℕ}
    (h : Holds n buf f) (hs : FitsStage n (k, j)) (ht : t < 2) (ascDir : Bool) :
    Holds n (SortTemplate.runLoops n stable buf { k, j, blockStart := k * t, ascDir })
      (exchangeAll (!ascDir) stable j (loopChunks n k j (k * t)) f) := by
  rw [runLoops_eq]
  refine h.foldl ascDir hs.pos _ (loopChunks_nodup hs.pos hs.block hs.size _) fun c hc => ?_
  obtain ⟨hcn, heven, -⟩ := (mem_loopChunks hs.pos hs.block hs.size hs.places ht).mp hc
  exact ⟨heven, pair_lt hs.pos (hs.block.trans hs.places) heven hcn⟩

/-- What the loops of one parity do to a chunk. -/
theorem exchangeAll_loopChunks (stable : Bool) {n k j t : ℕ} (hs : FitsStage n (k, j))
    (ht : t < 2) (d : Bool) (f : ℕ → ℕ → α × ℕ) {c : ℕ} (hc : c < n) :
    exchangeAll d stable j (loopChunks n k j (k * t)) f c =
      if c / k % 2 = t then
        if c / j % 2 = 0 then (exchangeLanes d stable (f c) (f (c + j))).1
        else (exchangeLanes d stable (f (c - j)) (f c)).2
      else f c := by
  have hmem {b : ℕ} := mem_loopChunks (c := b) hs.pos hs.block hs.size hs.places ht
  unfold exchangeAll
  by_cases heven : c / j % 2 = 0
  · have hback : ¬(j ≤ c ∧ c - j ∈ loopChunks n k j (k * t)) := by
      rintro ⟨hle, hin⟩
      have hprev := (hmem.mp hin).2.1
      have hnext := (pair_second hs.pos hs.block hprev).1
      rw [Nat.sub_add_cancel hle] at hnext
      dsimp only at hnext
      omega
    by_cases hblock : c / k % 2 = t
    · rw [if_pos (hmem.mpr ⟨hc, heven, hblock⟩), if_pos hblock, if_pos heven]
    · rw [if_neg fun hin => hblock (hmem.mp hin).2.2, if_neg hback, if_neg hblock]
  · have hnot : c ∉ loopChunks n k j (k * t) := fun hin => heven (hmem.mp hin).2.1
    obtain ⟨hle, hfirst⟩ := pair_first heven
    have hsame : (c - j) / k = c / k := by
      have hnext := (pair_second hs.pos hs.block hfirst).2
      dsimp only at hnext
      rw [Nat.sub_add_cancel hle] at hnext
      exact hnext.symm
    rw [if_neg hnot]
    by_cases hblock : c / k % 2 = t
    · have hin : c - j ∈ loopChunks n k j (k * t) :=
        hmem.mpr ⟨by omega, hfirst, by rw [hsame]; exact hblock⟩
      rw [if_pos ⟨hle, hin⟩, if_pos hblock, if_neg heven]
    · have hout : ¬(j ≤ c ∧ c - j ∈ loopChunks n k j (k * t)) := by
        rintro ⟨-, hin⟩
        apply hblock
        rw [← hsame]
        exact (hmem.mp hin).2.2
      rw [if_neg hout, if_neg hblock]

/-- The loops that are emitted for a size and a stride. -/
def loopsOf (n : ℕ) (descending : Bool) (k j : ℕ) : List MergeLoops :=
  [(0, true), (k, false)].filterMap fun (blockStart, isEvenBlock) =>
    if blockStart ≥ n then none
    else some { k, j, blockStart, ascDir := if !descending then isEvenBlock else !isEvenBlock }

/-- **The loops of a stage do the stage.** -/
theorem Holds.stage {n : ℕ} {s : ℕ × ℕ} {buf : SortBuffers α} {f : ℕ → ℕ → α × ℕ}
    (h : Holds n buf f) (hs : FitsStage n s) (hn : 0 < n) :
    Holds n ((loopsOf n descending s.1 s.2).foldl (SortTemplate.runLoops n stable) buf)
      (chunkStage descending stable s.1 s.2 f) := by
  obtain ⟨k, j⟩ := s
  have hfirst := h.runLoops stable hs (t := 0) (by decide)
    (if !descending then true else !true)
  have heven : (!(if !descending then true else !true)) = descending := by
    cases descending <;> rfl
  rw [heven, Nat.mul_zero] at hfirst
  dsimp only
  by_cases hk : k ≥ n
  · have hloops : loopsOf n descending k j =
        [{ k, j, blockStart := 0, ascDir := if !descending then true else !true }] := by
      simp [loopsOf, Nat.not_le.mpr hn, hk]
    rw [hloops]
    intro c hc a ha
    have hall := exchangeAll_loopChunks stable hs (t := 0) (by decide) descending f hc
    have hblock : c / k % 2 = 0 := by rw [Nat.div_eq_of_lt (by omega)]
    rw [Nat.mul_zero, if_pos hblock] at hall
    have hdir : blockDescending descending k c = descending := by
      rw [blockDescending, if_pos hblock]
    rw [chunkStage, hdir, ← hall]
    exact hfirst c hc a ha
  · have hloops : loopsOf n descending k j =
        [{ k, j, blockStart := 0, ascDir := if !descending then true else !true },
          { k, j, blockStart := k, ascDir := if !descending then false else !false }] := by
      simp [loopsOf, Nat.not_le.mpr hn, hk]
    rw [hloops]
    have hodd : (!(if !descending then false else !false)) = !descending := by
      cases descending <;> rfl
    have hsecond := hfirst.runLoops stable hs (t := 1) (by decide)
      (if !descending then false else !false)
    rw [hodd, Nat.mul_one] at hsecond
    intro c hc a ha
    have hone {e : ℕ} (he : e < n) := exchangeAll_loopChunks stable hs (t := 0) (by decide)
      descending f he
    have htwo := exchangeAll_loopChunks stable hs (t := 1) (by decide) (!descending)
      (exchangeAll descending stable j (loopChunks n k j 0) f) hc
    rw [Nat.mul_zero] at hone
    rw [Nat.mul_one] at htwo
    refine (hsecond c hc a ha).trans (congrFun (htwo.trans ?_) a)
    unfold chunkStage
    by_cases hblock : c / k % 2 = 0
    · have hdir : blockDescending descending k c = descending := by
        rw [blockDescending, if_pos hblock]
      have hnot : ¬c / k % 2 = 1 := by omega
      rw [if_neg hnot, hone hc, if_pos hblock, hdir]
    · have hdir : blockDescending descending k c = !descending := by
        rw [blockDescending, if_neg hblock]
      have hparity : c / k % 2 = 1 := by omega
      rw [if_pos hparity, hdir, hone hc, if_neg hblock]
      by_cases hstride : c / j % 2 = 0
      · have hnext := (pair_second hs.pos hs.block hstride).2
        have hroom := pair_lt hs.pos (hs.block.trans hs.places) hstride hc
        dsimp only at hnext hroom
        rw [if_pos hstride, if_pos hstride, hone hroom, hnext, if_neg hblock]
      · obtain ⟨hle, hprev⟩ := pair_first hstride
        have hnext := (pair_second hs.pos hs.block hprev).2
        dsimp only at hnext
        rw [Nat.sub_add_cancel hle] at hnext
        rw [if_neg hstride, if_neg hstride, hone (show c - j < n by omega), ← hnext, if_neg hblock]

/-! ## The kernel -/

/-- The chunks of a row after they are sorted. -/
def sortedChunks (descending stable : Bool) (x : ℕ → α) (c : ℕ) : ℕ → α × ℕ :=
  sortLanes descending stable fun l => (x (c * 16 + l), c * 16 + l)

/-- The loop that sorts each chunk. -/
theorem localSort_holds (descending stable : Bool) (n : ℕ) (x : ℕ → α) (buf : SortBuffers α) :
    Holds n (localSort descending stable n x buf) (sortedChunks descending stable x) := by
  suffices h : ∀ (l : List ℕ) (buf : SortBuffers α) (f : ℕ → ℕ → α × ℕ), Holds n buf f →
      Holds n (l.foldl (fun buf chunk =>
        buf.store (bitonicSortPair
          { values := load x (chunk * VECTOR_SIZE), indices := fun lane => chunk * VECTOR_SIZE + lane }
          VECTOR_SIZE descending stable) (chunk * VECTOR_SIZE)) buf)
        fun c => if c ∈ l then sortedChunks descending stable x c else f c by
    intro c hc a ha
    have hall := h (List.range n) buf (fun c a => (buf.yv (c * 16 + a), buf.xi (c * 16 + a)))
      (fun _ _ _ _ => rfl) c hc a ha
    exact hall.trans (congrFun (if_pos (List.mem_range.mpr hc)) a)
  intro l
  induction l with
  | nil =>
      intro buf f h c hc a ha
      exact (h c hc a ha).trans (congrFun (if_neg List.not_mem_nil).symm a)
  | cons b l ih =>
      intro buf f h c hc a ha
      have hstore := h.store (c := b) (bitonicSortPair_sortLanes descending stable
        { values := load x (b * VECTOR_SIZE), indices := fun lane => b * VECTOR_SIZE + lane }
        (v := fun l => (x (b * 16 + l), b * 16 + l)) fun _ _ => rfl)
      refine (ih _ _ hstore c hc a ha).trans (congrFun ?_ a)
      by_cases hcl : c ∈ l
      · rw [if_pos hcl, if_pos (List.mem_cons_of_mem b hcl)]
      · by_cases hcb : c = b
        · subst hcb
          rw [if_neg hcl, if_pos List.mem_cons_self, Function.update_self]
          rfl
        · have hcons : c ∉ b :: l := fun hin => (List.mem_cons.mp hin).elim hcb hcl
          rw [if_neg hcl, if_neg hcons, Function.update_of_ne hcb]

/-- **The kernel runs through the stages of the network on the chunks.** -/
theorem runKernel_holds (descending stable : Bool) (d : ℕ) (x : ℕ → α) (buf : SortBuffers α) :
    Holds (2 ^ d) (runKernel descending stable (2 ^ d) x buf)
      (chunkRun descending stable (networkStages d) (sortedChunks descending stable x)) := by
  have hloops : mergeLoops (2 ^ d) descending =
      (networkStages d).flatMap fun s => loopsOf (2 ^ d) descending s.1 s.2 :=
    stages_eq d (loopsOf (2 ^ d) descending)
  have hstart := localSort_holds descending stable (2 ^ d) x buf
  have hfits : ∀ s ∈ networkStages d, FitsStage (2 ^ d) s := fun s hs => fitsStage hs
  unfold runKernel chunkRun
  rw [hloops, List.foldl_flatMap]
  revert hstart hfits
  generalize networkStages d = l
  generalize localSort descending stable (2 ^ d) x buf = start
  generalize sortedChunks descending stable x = f
  intro hstart hl
  induction l generalizing start f with
  | nil => exact hstart
  | cons s l ih =>
      exact ih _ _ (hstart.stage (hl s List.mem_cons_self) (Nat.two_pow_pos d))
        fun t ht => hl t (List.mem_cons_of_mem s ht)

/-- The template renders a kernel for a power of two of chunks. -/
theorem render_ok (descending stable : Bool) (d : ℕ) :
    render (α := α) descending stable (16 * 2 ^ d) = .ok (runKernel descending stable (2 ^ d)) := by
  have hpos := Nat.two_pow_pos d
  have hpower : 2 ^ d &&& (2 ^ d - 1) = 0 := by
    rw [Nat.and_two_pow_sub_one_eq_mod, Nat.mod_self]
  have hchunks : 16 * 2 ^ d / VECTOR_SIZE = 2 ^ d := Nat.mul_div_cancel_left _ (by decide)
  have hsize : ¬(16 * 2 ^ d < VECTOR_SIZE ∨ 16 * 2 ^ d % VECTOR_SIZE ≠ 0) := by
    unfold VECTOR_SIZE
    omega
  have hnonzero : ¬16 * 2 ^ d ≤ 0 := by omega
  unfold render
  rw [if_neg hnonzero, if_neg hsize]
  dsimp only
  rw [hchunks, if_neg (by rw [hpower]; decide)]

omit [LinearOrder α] in
/-- The elements of the row, by their place. -/
theorem Holds.flatten {n : ℕ} {buf : SortBuffers α} {f : ℕ → ℕ → α × ℕ} (h : Holds n buf f)
    {i : ℕ} (hi : i < n * 16) : (buf.yv i, buf.xi i) = Analysis.flatten f i := by
  have hplace : i / 16 * 16 + i % 16 = i := by omega
  have hat := h (i / 16) (by omega) (i % 16) (by omega)
  rwa [hplace] at hat

end

end PyTorchSim.Analysis
