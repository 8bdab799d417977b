import Mathlib.Data.Nat.Basic
import Mathlib.Algebra.BigOperators.Intervals
import Mathlib.Algebra.Order.Ring.Nat
import Mathlib.Tactic.Common

/-!
# Bitonic merging of bins

A bitonic network compares and exchanges.  Here its places are bins of `m` cells, and a vector says
how many cells of each bin are marked.  Exchanging two bins moves all marks into one of them, as
far as there is room: `exchange`.  With `m = 1` this is a comparator on zeros and ones, with larger
`m` a comparator that merges two sorted blocks and splits them.

The cells of a row of bins are seen as a circle.  A vector is an arc if its marks are the cells of
an interval of the circle: an ascending row followed by a descending one is an arc.  Exchanging each
bin of the first half with its partner in the second half moves all marks into one half as far as
there is room, and both halves are arcs again (`IsArc.halves`).  So a merge turns an arc into a
sorted row (`merge_arc`), and the network sorts every vector (`sorted_levels`).
-/

set_option autoImplicit false

namespace PyTorchSim.Library

/-! ## Arcs -/

/-- The number of cells below `z` of the bin that starts at `p` on a circle of `h` cells, which is
rolled along the numbers. -/
def cellsBelow (m h p z : ℕ) : ℕ := z / h * m + min m (z % h - p)

section

variable {m h p z x y : ℕ}

/-- A circle that is rolled on by one turn passes each cell once. -/
theorem cellsBelow_period (hh : 0 < h) : cellsBelow m h p (z + h) = cellsBelow m h p z + m := by
  unfold cellsBelow
  rw [Nat.add_div_right z hh, Nat.add_mod_right, Nat.succ_mul]
  omega

theorem cellsBelow_mono (hxy : x ≤ y) : cellsBelow m h p x ≤ cellsBelow m h p y := by
  unfold cellsBelow
  have hdiv : x / h ≤ y / h := Nat.div_le_div_right hxy
  rcases Nat.lt_or_ge (x / h) (y / h) with hlt | hge
  · have hmul : (x / h + 1) * m ≤ y / h * m := Nat.mul_le_mul_right m hlt
    rw [Nat.succ_mul] at hmul
    omega
  · have heq : x / h = y / h := Nat.le_antisymm hdiv hge
    have hx := Nat.div_add_mod x h
    have hy := Nat.div_add_mod y h
    rw [heq] at hx ⊢
    omega

/-- On a circle of half the size the bins of both halves are one. -/
theorem cellsBelow_halves (hp : p + m ≤ h) :
    cellsBelow m (2 * h) p z + cellsBelow m (2 * h) (p + h) z = cellsBelow m h p z := by
  rcases Nat.eq_zero_or_pos h with rfl | hh
  · have hm : m = 0 := by omega
    subst hm
    simp [cellsBelow]
  unfold cellsBelow
  have hdiv : z / (2 * h) = z / h / 2 := by rw [Nat.mul_comm 2 h, Nat.div_div_eq_div_mul]
  have hmod : z % (2 * h) = h * (z / h % 2) + z % h := by
    rw [Nat.mul_comm 2 h, Nat.mod_mul]
    omega
  have hlt := Nat.mod_lt z hh
  have htwo := Nat.div_add_mod (z / h) 2
  rw [hdiv, hmod]
  generalize z / h / 2 = q at *
  rcases Nat.mod_two_eq_zero_or_one (z / h) with hbit | hbit
  · rw [hbit] at htwo ⊢
    rw [← htwo, Nat.add_zero, Nat.mul_comm 2 q, Nat.mul_assoc, Nat.mul_left_comm q 2 m]
    omega
  · rw [hbit] at htwo ⊢
    rw [← htwo, Nat.succ_mul, Nat.mul_comm 2 q, Nat.mul_assoc, Nat.mul_left_comm q 2 m]
    omega

/-- The marked cells of a bin, when the cells from `x` to `y` are marked. -/
def arc (m h x y p : ℕ) : ℕ := cellsBelow m h p y - cellsBelow m h p x

theorem arc_halves (hp : p + m ≤ h) (hxy : x ≤ y) :
    arc m (2 * h) x y p + arc m (2 * h) x y (p + h) = arc m h x y p := by
  have hx := cellsBelow_halves (z := x) hp
  have hy := cellsBelow_halves (z := y) hp
  have hlow := cellsBelow_mono (m := m) (h := 2 * h) (p := p) hxy
  have hhigh := cellsBelow_mono (m := m) (h := 2 * h) (p := p + h) hxy
  unfold arc
  omega

theorem arc_le (hh : 0 < h) (hy : y ≤ x + h) : arc m h x y p ≤ m := by
  have hmono := cellsBelow_mono (m := m) (h := h) (p := p) hy
  have hperiod := cellsBelow_period (m := m) (p := p) (z := x) hh
  unfold arc
  omega

theorem arc_turn (hh : 0 < h) (hxy : x ≤ y) :
    arc m h x (y + h) p = m + arc m h x y p := by
  have hmono := cellsBelow_mono (m := m) (h := h) (p := p) hxy
  have hperiod := cellsBelow_period (m := m) (p := p) (z := y) hh
  unfold arc
  omega

end

/-- The marks of `n` bins are an arc of `len` cells. -/
def IsArc (m n len : ℕ) (g : ℕ → ℕ) : Prop :=
  ∃ x, ∀ c < n, g c = arc m (n * m) x (x + len) (c * m)

/-- The bins fill from the end. -/
def ascendingBins (m n len c : ℕ) : ℕ := min m (len - (n - 1 - c) * m)

/-- The bins fill from the start. -/
def descendingBins (m len c : ℕ) : ℕ := min m (len - c * m)

/-- What two bins have after an exchange: the marks go to the second one, or to the first. -/
def exchange (m : ℕ) (up : Bool) (a b : ℕ) : ℕ × ℕ :=
  if up then (a + b - m, min m (a + b)) else (min m (a + b), a + b - m)

section

variable {m n len : ℕ} {g : ℕ → ℕ}

theorem IsArc.congr {g' : ℕ → ℕ} (h : IsArc m n len g) (hg : ∀ c < n, g' c = g c) :
    IsArc m n len g' := by
  obtain ⟨x, hx⟩ := h
  exact ⟨x, fun c hc => (hg c hc).trans (hx c hc)⟩

theorem isArc_empty (hg : ∀ c < n, g c = 0) : IsArc m n 0 g := by
  refine ⟨0, fun c hc => ?_⟩
  rw [hg c hc, arc, Nat.sub_self]

theorem bin_le {c : ℕ} (hc : c < n) : c * m + m ≤ n * m := by
  have hle := Nat.mul_le_mul_right m (Nat.succ_le_of_lt hc)
  rwa [Nat.succ_mul] at hle

theorem isArc_full (hm : 0 < m) (hg : ∀ c < n, g c = m) : IsArc m n (n * m) g := by
  refine ⟨0, fun c hc => ?_⟩
  have hpos : 0 < n * m := Nat.mul_pos (by omega) hm
  have hzero : arc m (n * m) 0 0 (c * m) = 0 := by rw [arc, Nat.sub_self]
  rw [hg c hc, arc_turn hpos (Nat.le_refl 0), hzero]
  rfl

/-- **Half cleaning**: exchanging the bins of the two halves of an arc gives two arcs, and one of
them is empty or the other one is full. -/
theorem IsArc.halves (h : IsArc m (2 * n) len g) (hm : 0 < m) :
    IsArc m n (len - n * m) (fun c => g c + g (c + n) - m) ∧
    IsArc m n (min len (n * m)) (fun c => min m (g c + g (c + n))) := by
  obtain ⟨x, hx⟩ := h
  have hsum : ∀ c < n, g c + g (c + n) = arc m (n * m) x (x + len) (c * m) := by
    intro c hc
    rw [hx c (by omega), hx (c + n) (by omega), Nat.add_mul, Nat.mul_assoc]
    exact arc_halves (bin_le hc) (by omega)
  have hpos {c : ℕ} (hc : c < n) : 0 < n * m := Nat.mul_pos (by omega) hm
  rcases Nat.le_total len (n * m) with hshort | hlong
  · have hle : ∀ c < n, g c + g (c + n) ≤ m := by
      intro c hc
      rw [hsum c hc]
      exact arc_le (hpos hc) (by omega)
    rw [Nat.sub_eq_zero_of_le hshort, Nat.min_eq_left hshort]
    refine ⟨isArc_empty fun c hc => Nat.sub_eq_zero_of_le (hle c hc), x, fun c hc => ?_⟩
    exact (Nat.min_eq_right (hle c hc)).trans (hsum c hc)
  · have hmore : ∀ c < n, g c + g (c + n) = m + arc m (n * m) x (x + (len - n * m)) (c * m) := by
      intro c hc
      have hturn : x + len = x + (len - n * m) + n * m := by omega
      rw [hsum c hc, hturn]
      exact arc_turn (hpos hc) (by omega)
    rw [Nat.min_eq_right hlong]
    refine ⟨⟨x, fun c hc => ?_⟩, isArc_full hm fun c hc => ?_⟩
    · dsimp only
      rw [hmore c hc]
      omega
    · rw [hmore c hc]
      omega

/-- The cells of a bin below a place within the first turn. -/
theorem cellsBelow_of_le {h p z : ℕ} (hp : p + m ≤ h) (hz : z ≤ h) :
    cellsBelow m h p z = min m (z - p) := by
  rcases Nat.eq_or_lt_of_le hz with rfl | hlt
  · rcases Nat.eq_zero_or_pos z with rfl | hpos
    · simp [cellsBelow]
    · have hperiod := cellsBelow_period (m := m) (p := p) (z := 0) hpos
      rw [Nat.zero_add] at hperiod
      rw [hperiod, cellsBelow, Nat.zero_div, Nat.zero_mod, Nat.zero_mul]
      omega
  · rw [cellsBelow, Nat.div_eq_of_lt hlt, Nat.mod_eq_of_lt hlt]
    omega

/-- The cells of the bins before and after a bin. -/
theorem bins_around {c : ℕ} (hc : c < n) : (n - 1 - c) * m + c * m + m = n * m := by
  obtain ⟨d, rfl⟩ := Nat.exists_eq_add_of_lt hc
  have hd : c + d + 1 - 1 - c = d := by omega
  rw [hd, Nat.succ_mul, Nat.add_mul]
  omega

/-- A row that fills from the end, followed by one that fills from the start. -/
theorem isArc_append {a b : ℕ} (ha : a ≤ n * m) (hb : b ≤ n * m)
    (hasc : ∀ c < n, g c = ascendingBins m n a c)
    (hdesc : ∀ c < n, g (n + c) = descendingBins m b c) : IsArc m (2 * n) (a + b) g := by
  refine ⟨n * m - a, fun c hc => ?_⟩
  have hend : n * m - a + (a + b) = n * m + b := by omega
  have hturn : 2 * n * m = n * m + n * m := by rw [Nat.two_mul, Nat.add_mul]
  rw [hend, hturn, arc]
  rcases Nat.lt_or_ge c n with hlow | hhigh
  · have hbin := bin_le (m := m) hlow
    have haround := bins_around (m := m) hlow
    rw [hasc c hlow, ascendingBins, cellsBelow_of_le (by omega) (by omega),
      cellsBelow_of_le (by omega) (by omega)]
    omega
  · obtain ⟨d, rfl⟩ := Nat.exists_eq_add_of_le hhigh
    have hd : d < n := by omega
    have hbin := bin_le (m := m) hd
    rw [hdesc d hd, descendingBins, Nat.add_mul, cellsBelow_of_le (by omega) (by omega),
      cellsBelow_of_le (by omega) (by omega)]
    omega

end

/-! ## The network -/

/-- One stage: each place of a pair of places that are `s` apart gets its part of the exchange. -/
def exchangeStage (m : ℕ) (up : ℕ → Bool) (s : ℕ) (f : ℕ → ℕ) (a : ℕ) : ℕ :=
  if a / s % 2 = 0 then (exchange m (up a) (f a) (f (a + s))).1
  else (exchange m (up a) (f (a - s)) (f a)).2

/-- The distances of a merge of `2 ^ e` places. -/
def halvings : ℕ → List ℕ
  | 0 => []
  | e + 1 => 2 ^ e :: halvings e

/-- A merge of each block of `2 ^ e` places. -/
def mergeBins (m : ℕ) (up : ℕ → Bool) (e : ℕ) (f : ℕ → ℕ) : ℕ → ℕ :=
  (halvings e).foldl (fun f s => exchangeStage m up s f) f

/-- Blocks of `2 ^ e` places alternate in their direction. -/
def upBlock (e a : ℕ) : Bool := a / 2 ^ e % 2 = 0

/-- The network: merges of larger and larger blocks. -/
def sortBins (m : ℕ) : ℕ → (ℕ → ℕ) → ℕ → ℕ
  | 0, f => f
  | e + 1, f => mergeBins m (upBlock (e + 1)) (e + 1) (sortBins m e f)

/-- A block of `n` bins that is sorted. -/
def sortedBins (m n : ℕ) (up : Bool) (len c : ℕ) : ℕ :=
  if up then ascendingBins m n len c else descendingBins m len c

section

variable {m e len : ℕ} {f : ℕ → ℕ} {up : ℕ → Bool} {b : ℕ}

/-- The places of the first half of a block. -/
theorem exchangeStage_low {c : ℕ} (hb : 2 ^ (e + 1) ∣ b) (hc : c < 2 ^ e) :
    exchangeStage m up (2 ^ e) f (b + c) =
      (exchange m (up (b + c)) (f (b + c)) (f (b + (c + 2 ^ e)))).1 := by
  obtain ⟨q, rfl⟩ := hb
  have hdiv : (2 ^ (e + 1) * q + c) / 2 ^ e % 2 = 0 := by
    rw [Nat.pow_succ, Nat.mul_assoc, Nat.mul_add_div (Nat.two_pow_pos e), Nat.div_eq_of_lt hc]
    omega
  rw [exchangeStage, if_pos hdiv, Nat.add_assoc]

/-- The places of the second half of a block. -/
theorem exchangeStage_high {c : ℕ} (hb : 2 ^ (e + 1) ∣ b) (hc : c < 2 ^ e) :
    exchangeStage m up (2 ^ e) f (b + (c + 2 ^ e)) =
      (exchange m (up (b + (c + 2 ^ e))) (f (b + c)) (f (b + (c + 2 ^ e)))).2 := by
  obtain ⟨q, rfl⟩ := hb
  have hdiv : ¬(2 ^ (e + 1) * q + (c + 2 ^ e)) / 2 ^ e % 2 = 0 := by
    rw [Nat.pow_succ, Nat.mul_assoc, Nat.mul_add_div (Nat.two_pow_pos e),
      Nat.add_div_right c (Nat.two_pow_pos e), Nat.div_eq_of_lt hc]
    omega
  have hback : 2 ^ (e + 1) * q + (c + 2 ^ e) - 2 ^ e = 2 ^ (e + 1) * q + c := by omega
  rw [exchangeStage, if_neg hdiv, hback]

/-- Two sorted halves of which one is empty or the other one is full. -/
theorem sortedBins_halves {n c : ℕ} {d : Bool} (hc : c < n) :
    sortedBins m (2 * n) d len c =
      sortedBins m n d (if d then len - n * m else min len (n * m)) c ∧
    sortedBins m (2 * n) d len (c + n) =
      sortedBins m n d (if d then min len (n * m) else len - n * m) c := by
  have hbin := bin_le (m := m) hc
  have haround := bins_around (m := m) hc
  cases d with
  | true =>
    have hlow : (2 * n - 1 - c) * m = n * m + (n - 1 - c) * m := by
      rw [← Nat.add_mul]
      congr 1
      omega
    have hhigh : 2 * n - 1 - (c + n) = n - 1 - c := by omega
    simp only [sortedBins, if_true, ascendingBins, hlow, hhigh]
    omega
  | false =>
    simp only [sortedBins, Bool.false_eq_true, if_false, descendingBins, Nat.add_mul]
    omega

/-- **A merge sorts an arc.** -/
theorem merge_arc (hm : 0 < m) {d : Bool} (hb : 2 ^ e ∣ b) (hup : ∀ c < 2 ^ e, up (b + c) = d)
    (hlen : len ≤ 2 ^ e * m) (harc : IsArc m (2 ^ e) len fun c => f (b + c)) :
    ∀ c < 2 ^ e, mergeBins m up e f (b + c) = sortedBins m (2 ^ e) d len c := by
  induction e generalizing f b len with
  | zero =>
      intro c hc
      obtain ⟨x, hx⟩ := harc
      have hzero : c = 0 := by
        rw [Nat.pow_zero] at hc
        omega
      have hall : ∀ z, cellsBelow m m 0 z = z := by
        intro z
        have hmod := Nat.mod_lt z hm
        have hdiv := Nat.div_add_mod z m
        rw [Nat.mul_comm] at hdiv
        rw [cellsBelow]
        omega
      have hbin : f b = len := by
        have hone := hx 0 Nat.one_pos
        rw [Nat.pow_zero, Nat.one_mul, Nat.zero_mul, arc, hall, hall] at hone
        exact hone.trans (by omega)
      subst hzero
      rw [Nat.pow_zero, Nat.one_mul] at hlen
      change f b = _
      rw [hbin]
      cases d <;> simp [sortedBins, ascendingBins, descendingBins, hlen]
  | succ e ih =>
      have hpow : 2 ^ (e + 1) = 2 * 2 ^ e := by rw [Nat.pow_succ, Nat.mul_comm]
      have hdvd : 2 ^ e ∣ b := (Nat.pow_dvd_pow 2 (Nat.le_succ e)).trans hb
      rw [hpow] at harc hlen hup
      obtain ⟨hless, hmore⟩ := harc.halves hm
      have hhalf : 2 * 2 ^ e * m = 2 ^ e * m + 2 ^ e * m := by rw [Nat.two_mul, Nat.add_mul]
      have hlow : IsArc m (2 ^ e) (if d then len - 2 ^ e * m else min len (2 ^ e * m))
          fun c => exchangeStage m up (2 ^ e) f (b + c) := by
        cases d with
        | true =>
          refine hless.congr fun c hc => ?_
          rw [exchangeStage_low hb hc, hup c (by omega), exchange, if_pos rfl]
        | false =>
          refine hmore.congr fun c hc => ?_
          rw [exchangeStage_low hb hc, hup c (by omega), exchange, if_neg Bool.false_ne_true]
      have hhigh : IsArc m (2 ^ e) (if d then min len (2 ^ e * m) else len - 2 ^ e * m)
          fun c => exchangeStage m up (2 ^ e) f (b + 2 ^ e + c) := by
        cases d with
        | true =>
          refine hmore.congr fun c hc => ?_
          rw [Nat.add_assoc, Nat.add_comm _ c, exchangeStage_high hb hc, hup _ (by omega), exchange,
            if_pos rfl]
        | false =>
          refine hless.congr fun c hc => ?_
          rw [Nat.add_assoc, Nat.add_comm _ c, exchangeStage_high hb hc, hup _ (by omega), exchange,
            if_neg Bool.false_ne_true]
      have hfirst := ih hdvd (fun c hc => hup c (by omega)) (by split <;> omega) hlow
      have hsecond := ih (Nat.dvd_add hdvd (Nat.dvd_refl _))
        (fun c hc => by rw [Nat.add_assoc]; exact hup _ (by omega)) (by split <;> omega) hhigh
      intro c hc
      rw [hpow] at hc ⊢
      change mergeBins m up e (exchangeStage m up (2 ^ e) f) (b + c) = _
      rcases Nat.lt_or_ge c (2 ^ e) with hlt | hge
      · rw [hfirst c hlt, (sortedBins_halves hlt).1]
      · obtain ⟨k, rfl⟩ := Nat.exists_eq_add_of_le hge
        have hk : k < 2 ^ e := by omega
        rw [← Nat.add_assoc, hsecond k hk, Nat.add_comm _ k, (sortedBins_halves hk).2]

/-- A stage of bins that are not overfull. -/
theorem exchangeStage_le (hf : ∀ a, f a ≤ m) (s a : ℕ) : exchangeStage m up s f a ≤ m := by
  have hself := hf a
  have hnext := hf (a + s)
  have hback := hf (a - s)
  unfold exchangeStage exchange
  split <;> split <;> dsimp only <;> omega

theorem mergeBins_le (hf : ∀ a, f a ≤ m) (e a : ℕ) : mergeBins m up e f a ≤ m := by
  induction e generalizing f with
  | zero => exact hf a
  | succ e ih => exact ih (exchangeStage_le hf (2 ^ e))

theorem sortBins_le (hf : ∀ a, f a ≤ m) (e a : ℕ) : sortBins m e f a ≤ m := by
  induction e generalizing a with
  | zero => exact hf a
  | succ e ih => exact mergeBins_le ih (e + 1) a

/-- **The network sorts**: a block of `2 ^ e` bins is sorted in its direction. -/
theorem sortBins_sorted (hm : 0 < m) (hf : ∀ a, f a ≤ m) (hb : 2 ^ e ∣ b) :
    ∃ len ≤ 2 ^ e * m, ∀ c < 2 ^ e,
      sortBins m e f (b + c) = sortedBins m (2 ^ e) (upBlock e b) len c := by
  induction e generalizing b with
  | zero =>
      refine ⟨f b, by rw [Nat.pow_zero, Nat.one_mul]; exact hf b, fun c hc => ?_⟩
      have hzero : c = 0 := by
        rw [Nat.pow_zero] at hc
        omega
      subst hzero
      have hle := hf b
      change f b = _
      cases upBlock 0 b <;> simp [sortedBins, ascendingBins, descendingBins, hle]
  | succ e ih =>
      have hpow : 2 ^ (e + 1) = 2 * 2 ^ e := by rw [Nat.pow_succ, Nat.mul_comm]
      have hpos := Nat.two_pow_pos e
      obtain ⟨q, hq⟩ := hb
      have hfirst : b / 2 ^ e = 2 * q := by
        rw [hq, hpow, Nat.mul_comm 2, Nat.mul_assoc, Nat.mul_div_cancel_left _ hpos]
      have hsecond : (b + 2 ^ e) / 2 ^ e = 2 * q + 1 := by
        rw [Nat.add_div_right _ hpos, hfirst]
      have hdvd : 2 ^ e ∣ b := (Nat.pow_dvd_pow 2 (Nat.le_succ e)).trans ⟨q, hq⟩
      obtain ⟨l₁, hl₁, hasc⟩ := ih hdvd
      obtain ⟨l₂, hl₂, hdesc⟩ := ih (Nat.dvd_add hdvd (Nat.dvd_refl _))
      have hup : upBlock e b = true := by
        rw [upBlock, hfirst, Nat.mul_mod_right]
        rfl
      have hdown : upBlock e (b + 2 ^ e) = false := by
        rw [upBlock, hsecond, Nat.mul_add_mod]
        rfl
      rw [hup] at hasc
      rw [hdown] at hdesc
      have harc : IsArc m (2 ^ (e + 1)) (l₁ + l₂) fun c => sortBins m e f (b + c) := by
        rw [hpow]
        refine isArc_append hl₁ hl₂ hasc fun c hc => ?_
        rw [← Nat.add_assoc]
        exact hdesc c hc
      refine ⟨l₁ + l₂, by rw [hpow, Nat.two_mul, Nat.add_mul]; omega, ?_⟩
      refine merge_arc hm ⟨q,
        hq⟩ (fun c hc => ?_) (by rw [hpow, Nat.two_mul, Nat.add_mul]; omega) harc
      have hblock : (b + c) / 2 ^ (e + 1) = b / 2 ^ (e + 1) := by
        rw [hq, Nat.mul_add_div (Nat.two_pow_pos _), Nat.div_eq_of_lt hc,
          Nat.mul_div_cancel_left _ (Nat.two_pow_pos _), Nat.add_zero]
      rw [upBlock, upBlock, hblock]

/-- In a row that is sorted upwards, the bins after one with a mark are full. -/
theorem sortedBins_full {n c c' : ℕ} (hcc : c < c') (hc' : c' < n)
    (hmark : 0 < sortedBins m n true len c) : sortedBins m n true len c' = m := by
  have hone := bins_around (m := m) (hcc.trans hc')
  have htwo := bins_around (m := m) hc'
  have hbin := bin_le (m := m) hcc
  simp only [sortedBins, if_true, ascendingBins] at hmark ⊢
  omega

/-- A row is sorted downwards if the bins before one with a mark are full. -/
theorem exists_descendingBins {n : ℕ} {g : ℕ → ℕ} (hg : ∀ c < n, g c ≤ m)
    (hfull : ∀ c c', c < c' → c' < n → 0 < g c' → g c = m) :
    ∃ len ≤ n * m, ∀ c < n, g c = descendingBins m len c := by
  induction n with
  | zero => exact ⟨0, Nat.zero_le _, fun c hc => absurd hc (Nat.not_lt_zero c)⟩
  | succ n ih =>
      obtain ⟨len, hlen, hrow⟩ := ih (fun c hc => hg c (by omega))
        fun c c' hcc hc' => hfull c c' hcc (by omega)
      have hlast := hg n (Nat.lt_succ_self n)
      rcases Nat.eq_zero_or_pos (g n) with hzero | hpos
      · refine ⟨len, by rw [Nat.succ_mul]; omega, fun c hc => ?_⟩
        rcases Nat.lt_or_ge c n with hlt | hge
        · exact hrow c hlt
        · have hcn : c = n := by omega
          rw [hcn, hzero, descendingBins, Nat.sub_eq_zero_of_le hlen, Nat.min_zero]
      · refine ⟨n * m + g n, by rw [Nat.succ_mul]; omega, fun c hc => ?_⟩
        rcases Nat.lt_or_ge c n with hlt | hge
        · have hbin := bin_le (m := m) hlt
          rw [hfull c n hlt (Nat.lt_succ_self n) hpos, descendingBins]
          omega
        · have hcn : c = n := by omega
          rw [hcn, descendingBins]
          omega

end

/-! ## Runs in step -/

/-- What each pair of places keeps, all places keep. -/
theorem sum_pairs {s n : ℕ} (hs : 0 < s) (hn : 2 * s ∣ n) {w w' : ℕ → ℕ}
    (hw : ∀ a, a / s % 2 = 0 → a + s < n → w' a + w' (a + s) = w a + w (a + s)) :
    (Finset.range n).sum w' = (Finset.range n).sum w := by
  obtain ⟨u, rfl⟩ := hn
  induction u with
  | zero => rfl
  | succ u ih =>
      have hsplit : 2 * s * (u + 1) = 2 * s * u + (s + s) := by
        rw [Nat.mul_succ, Nat.two_mul]
      have hblock : ∀ a < s, w' (2 * s * u + a) + w' (2 * s * u + (s + a)) =
          w (2 * s * u + a) + w (2 * s * u + (s + a)) := by
        intro a ha
        have hdiv : (2 * s * u + a) / s = 2 * u := by
          rw [Nat.mul_comm 2 s, Nat.mul_assoc, Nat.mul_add_div hs, Nat.div_eq_of_lt ha]
          rfl
        have hpair := hw (2 * s * u + a) (by rw [hdiv, Nat.mul_mod_right]) (by omega)
        rwa [Nat.add_assoc, Nat.add_comm a s] at hpair
      have hrest := ih fun a ha han => hw a ha (by omega)
      rw [hsplit, Finset.sum_range_add, Finset.sum_range_add _ (2 * s * u), hrest]
      congr 1
      rw [Finset.sum_range_add, Finset.sum_range_add _ s s, ← Finset.sum_add_distrib,
        ← Finset.sum_add_distrib]
      exact Finset.sum_congr rfl fun a ha => hblock a (Finset.mem_range.mp ha)

end PyTorchSim.Library
