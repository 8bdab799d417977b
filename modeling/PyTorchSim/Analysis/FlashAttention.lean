import PyTorchSim.Model.FlashSdpa
import PyTorchSim.Library.WeightedMean
import Mathlib.Algebra.BigOperators.Intervals
import Mathlib.Tactic.FinCases
import Mathlib.Tactic.NormNum

/-!
# Flash attention and softmax attention

After each tile of keys a lane holds the weighted sum of the values and the sum of the weights
over the keys so far, both under the shift of the running maximum.  The shift cancels in the
final division, so what the maximum is does not matter.  The last tile is filled up with keys
of score 0, and their weights stay in the sum: the kernel is softmax attention exactly if there
are none of them or the attention vanishes.
-/

set_option autoImplicit false

namespace PyTorchSim.Analysis

open Finset PyTorchSim.Model PyTorchSim.Library

/-! ## Loops -/

/-- The number of iterations of an `affine.for`. -/
def tripCount (lo hi step : ℕ) : ℕ := (hi - lo + step - 1) / step

/-- A property that each iteration carries on holds after the loop. -/
theorem affineFor_induction {σ : Type} (lo hi step : ℕ) {init : σ} {body : ℕ → σ → σ}
    (P : ℕ → σ → Prop) (hinit : P 0 init)
    (hbody : ∀ i s, i < tripCount lo hi step → P i s → P (i + 1) (body (lo + step * i) s)) :
    P (tripCount lo hi step) (affineFor lo hi step init body) := by
  have hrun : ∀ n ≤ tripCount lo hi step,
      P n ((List.range' lo n step).foldl (fun s i => body i s) init) := by
    intro n hn
    induction n with
    | zero => exact hinit
    | succ n ih =>
        rw [List.range'_concat, List.foldl_append]
        exact hbody n _ (by omega) (ih (by omega))
  exact hrun _ le_rfl

theorem tripCount_mul {n step : ℕ} (hstep : 0 < step) : tripCount 0 (step * n) step = n := by
  unfold tripCount
  rw [Nat.sub_zero, Nat.add_sub_assoc hstep, Nat.mul_add_div hstep, Nat.div_eq_of_lt (by omega),
    Nat.add_zero]

/-- The iterations cover the range. -/
theorem le_tripCount_mul (hi : ℕ) {step : ℕ} (hstep : 0 < step) :
    hi ≤ step * tripCount 0 hi step := by
  unfold tripCount
  have hdiv := Nat.div_add_mod (hi - 0 + step - 1) step
  have hmod := Nat.mod_lt (hi - 0 + step - 1) hstep
  omega

/-- Nothing is left over exactly if the step divides the range. -/
theorem tripCount_mul_eq_iff (hi : ℕ) {step : ℕ} (hstep : 0 < step) :
    step * tripCount 0 hi step = hi ↔ step ∣ hi := by
  constructor
  · intro h
    rw [← h]
    exact Nat.dvd_mul_right _ _
  · rintro ⟨n, rfl⟩
    rw [tripCount_mul hstep]

/-! ## Reductions in chunks -/

variable {α : Type} [Field α] [LinearOrder α]

omit [LinearOrder α] in
/-- The sum over a range in chunks. -/
theorem sum_range_mul (f : ℕ → α) (size n : ℕ) :
    ∑ c ∈ range size, ∑ i ∈ range n, f (size * i + c) = ∑ s ∈ range (size * n), f s := by
  induction n with
  | zero => simp
  | succ n ih =>
      simp only [Finset.sum_range_succ, Finset.sum_add_distrib]
      rw [ih, Nat.mul_succ, Finset.sum_range_add]

omit [LinearOrder α] in
theorem foldl_add (f : ℕ → α) (a : α) (n : ℕ) :
    (List.range n).foldl (fun a i => a + f i) a = a + ∑ i ∈ range n, f i := by
  induction n with
  | zero => simp
  | succ n ih =>
      rw [List.range_succ, List.foldl_append, ih, Finset.sum_range_succ, ← add_assoc]
      rfl

omit [LinearOrder α] in
/-- The sums that the loop over the chunks leaves. -/
theorem chunkSum_eq (n : ℕ) (mul : ℕ → α) (c : ℕ) :
    affineFor 0 (chunkSize * n) chunkSize (fun _ => (0 : α))
      (fun index5 iterSum c => mul (index5 + c) + iterSum c) c =
        ∑ i ∈ range n, mul (chunkSize * i + c) := by
  have hloop : affineFor 0 (chunkSize * n) chunkSize (fun _ => (0 : α))
      (fun index5 iterSum c => mul (index5 + c) + iterSum c) c =
        ∑ i ∈ range (tripCount 0 (chunkSize * n) chunkSize), mul (chunkSize * i + c) := by
    apply affineFor_induction 0 (chunkSize * n) chunkSize
      fun i (chunk : ℕ → α) => chunk c = ∑ i ∈ range i, mul (chunkSize * i + c)
    · simp
    · intro i chunk _ hi
      rw [Finset.sum_range_succ, ← hi, Nat.zero_add, add_comm]
  rwa [tripCount_mul (by decide)] at hloop

omit [LinearOrder α] in
theorem multiReduction_add (chunk : ℕ → α) (j : Fin 2) :
    multiReduction (· + ·) chunk (fun _ => 0) j =
      ∑ i ∈ range (chunkSize / 2), chunk (2 * i + j) := by
  unfold multiReduction
  rw [foldl_add, zero_add]

omit [LinearOrder α] in
/-- Both elements of the reduced sum are the sum of the scores. -/
theorem reducedSum_eq (n : ℕ) (mul : ℕ → α) (j : Fin 2) :
    reducedSum (chunkSize * n) mul j = ∑ s ∈ range (chunkSize * n), mul s := by
  have htotal : ∀ chunk : ℕ → α, multiReduction (· + ·) chunk (fun _ => 0) 0 +
      multiReduction (· + ·) chunk (fun _ => 0) 1 = ∑ c ∈ range chunkSize, chunk c := by
    intro chunk
    rw [multiReduction_add, multiReduction_add]
    have hsplit := sum_range_mul chunk 2 (chunkSize / 2)
    rwa [Finset.sum_range_succ, Finset.sum_range_one] at hsplit
  have hchunks : ∑ c ∈ range chunkSize, affineFor 0 (chunkSize * n) chunkSize (fun _ => (0 : α))
      (fun index5 iterSum c => mul (index5 + c) + iterSum c) c =
        ∑ s ∈ range (chunkSize * n), mul s := by
    simp only [chunkSum_eq]
    exact sum_range_mul mul chunkSize n
  unfold reducedSum
  rw [← hchunks, ← htotal]
  fin_cases j
  · rfl
  · exact add_comm _ _

/-! ## One tile of keys -/

variable {p : SdpaKernel α} {exp : α → α}

/-- The score of a query row and a key row. -/
def score (p : SdpaKernel α) (query key : ℕ → α) : α :=
  (∑ i ∈ range p.e, key i * query i) * p.scale

/-- The lanes after some keys: the weighted sum of the values and the sum of the weights, under
the shift of the running maximum. -/
structure RunningAttention (exp : α → α) (p : SdpaKernel α) (x : ℕ → ℕ → α) (v : ℕ → ℕ → α)
    (n : ℕ) (buf : SdpaBuffers α) : Prop where
  out : ∀ lane, ∀ i < p.e,
    buf.out lane i = exp (-buf.max lane 0) * ∑ s ∈ range n, exp (x lane s) * v s i
  sum : ∀ lane j, buf.sum lane j = exp (-buf.max lane 0) * ∑ s ∈ range n, exp (x lane s)

theorem getSpadSizePerLane_le (vectorLane tileM : ℕ) {tileN : ℕ} (hlane : 0 < vectorLane)
    (hn : 0 < tileN) : tileM ≤ getSpadSizePerLane vectorLane tileM tileN := by
  have hdiv : 1 ≤ (tileN + vectorLane - 1) / vectorLane := by
    rw [Nat.le_div_iff_mul_le hlane]
    omega
  unfold getSpadSizePerLane
  calc tileM = tileM * 1 := (Nat.mul_one tileM).symm
    _ ≤ tileM * ((tileN + vectorLane - 1) / vectorLane) := Nat.mul_le_mul_left tileM hdiv
    _ ≤ _ := le_max_left _ _

omit [Field α] [LinearOrder α] in
theorem vectorStore_of_lt {size : ℕ} {value buffer : SpadBuffer α} {lane i : ℕ} (h : i < size) :
    vectorStore size value buffer lane i = value lane i := by
  unfold vectorStore
  rw [if_pos h]

/-- The maximum of a lane after a tile of keys. -/
def newMax (p : SdpaKernel α) (exp : α → α) (query : SpadBuffer α) (key value : ℕ → ℕ → α)
    (buf : SdpaBuffers α) (lane : ℕ) : α :=
  (p.keyTile exp query key value buf).max lane ⟨0, Nat.zero_lt_two⟩

theorem newMax_eq (query : SpadBuffer α) (key value : ℕ → ℕ → α) (buf : SdpaBuffers α)
    (lane : ℕ) : newMax p exp query key value buf lane =
      (p.keyTile exp query key value buf).max lane 0 := rfl

/-- What a tile of keys stores to `mul`: the exponentials of the shifted scores. -/
theorem keyTile_mul (query : SpadBuffer α) (key value : ℕ → ℕ → α) (buf : SdpaBuffers α)
    {lane s : ℕ} (hs : s < p.vectorLane) :
    (p.keyTile exp query key value buf).mul lane s =
      exp (score p (query lane) (key s) - newMax p exp query key value buf lane) := by
  have hspad : s < getSpadSizePerLane p.vectorLane p.vectorLane p.vectorLane :=
    lt_of_lt_of_le hs (getSpadSizePerLane_le _ _ (by omega) (by omega))
  rw [newMax_eq]
  unfold SdpaKernel.keyTile score
  dsimp only
  rw [vectorStore_of_lt hs, vectorStore_of_lt hs, vectorStore_of_lt hspad, zero_add]

theorem keyTile_out (query : SpadBuffer α) (key value : ℕ → ℕ → α) (buf : SdpaBuffers α)
    {lane i : ℕ} (hi : i < p.e) :
    (p.keyTile exp query key value buf).out lane i =
      exp (buf.max lane 0 - newMax p exp query key value buf lane) * buf.out lane i +
        ∑ s ∈ range p.vectorLane, value s i * (p.keyTile exp query key value buf).mul lane s := by
  rw [newMax_eq]
  unfold SdpaKernel.keyTile
  dsimp only
  rw [vectorStore_of_lt hi]

theorem keyTile_sum {m : ℕ} (hlane : p.vectorLane = chunkSize * m) (query : SpadBuffer α)
    (key value : ℕ → ℕ → α) (buf : SdpaBuffers α) (lane : ℕ) (j : Fin 2) :
    (p.keyTile exp query key value buf).sum lane j =
      ∑ s ∈ range p.vectorLane, (p.keyTile exp query key value buf).mul lane s +
        buf.sum lane j * exp (buf.max lane 0 - newMax p exp query key value buf lane) := by
  have hsum := reducedSum_eq m ((p.keyTile exp query key value buf).mul lane) j
  rw [← hlane] at hsum
  rw [← hsum]
  rfl

/-- A tile of keys keeps the running attention. -/
theorem keyTile_running (hexp : IsExp exp) {m n : ℕ} (hlane : p.vectorLane = chunkSize * m)
    {query : SpadBuffer α} {key value : ℕ → ℕ → α} {x v : ℕ → ℕ → α}
    {buf : SdpaBuffers α} (hbuf : RunningAttention exp p x v n buf)
    (hx : ∀ lane, ∀ s < p.vectorLane, x lane (n + s) = score p (query lane) (key s))
    (hv : ∀ s i, v (n + s) i = value s i) :
    RunningAttention exp p x v (n + p.vectorLane) (p.keyTile exp query key value buf) := by
  have hmul : ∀ lane, ∀ s ∈ range p.vectorLane,
      (p.keyTile exp query key value buf).mul lane s =
        exp (-newMax p exp query key value buf lane) * exp (x lane (n + s)) := by
    intro lane s hs
    rw [keyTile_mul query key value buf (mem_range.mp hs), hx lane s (mem_range.mp hs),
      hexp.sub]
  constructor
  · intro lane i hi
    change _ = exp (-newMax p exp query key value buf lane) * _
    have htile : ∑ s ∈ range p.vectorLane, value s i *
        (p.keyTile exp query key value buf).mul lane s =
          exp (-newMax p exp query key value buf lane) *
            ∑ s ∈ range p.vectorLane, exp (x lane (n + s)) * v (n + s) i := by
      rw [Finset.mul_sum]
      apply Finset.sum_congr rfl
      intro s hs
      rw [hmul lane s hs, hv]
      ring
    rw [keyTile_out query key value buf hi, hbuf.out lane i hi, htile, Finset.sum_range_add,
      mul_add, ← mul_assoc, hexp.rescale]
  · intro lane j
    change _ = exp (-newMax p exp query key value buf lane) * _
    rw [keyTile_sum hlane, Finset.sum_congr rfl (hmul lane), ← Finset.mul_sum, hbuf.sum,
      Finset.sum_range_add, mul_add, ← hexp.rescale (buf.max lane 0)]
    ring

/-! ## One tile of query rows -/

/-- A row of a tensor, 0 behind the last one. -/
def paddedRow (tensor : DramTensor α) (rows head row : ℕ) : ℕ → α :=
  fun c => if row < rows then tensor head row c else 0

/-- The number of keys that fill up the last tile. -/
def paddingKeys (p : SdpaKernel α) : ℕ :=
  p.vectorLane * tripCount 0 p.s p.vectorLane - p.s

/-- The weight of a key for a query row. -/
def keyWeight (exp : α → α) (p : SdpaKernel α) (q k : DramTensor α) (h r s : ℕ) : α :=
  exp (p.scale * ∑ i ∈ range p.e, q h r i * k h s i)

/-- What the kernel writes: the padding keys have weight 1 and value 0. -/
def paddedAttention (exp : α → α) (p : SdpaKernel α) (q k v : DramTensor α) (h r c : ℕ) : α :=
  (∑ s ∈ range p.s, keyWeight exp p q k h r s * v h s c) /
    (∑ s ∈ range p.s, keyWeight exp p q k h r s + paddingKeys p)

omit [LinearOrder α] in
theorem mvin_eq (tensor : DramTensor α) (rows head row i : ℕ) :
    mvin tensor rows head row 0 i = paddedRow tensor rows head (row + i) := by
  unfold mvin paddedRow
  funext j
  rw [Nat.zero_add]

omit [LinearOrder α] in
theorem exp_score_of_lt (exp : α → α) {q k : DramTensor α} {h r s : ℕ} (hr : r < p.l)
    (hs : s < p.s) :
    exp (score p (paddedRow q p.l h r) (paddedRow k p.s h s)) = keyWeight exp p q k h r s := by
  unfold score keyWeight paddedRow
  simp only [hr, hs, if_true]
  rw [mul_comm]
  congr 2
  apply Finset.sum_congr rfl
  intro i _
  exact mul_comm _ _

theorem exp_score_of_le (hexp : IsExp exp) {query : ℕ → α} {k : DramTensor α} {h s : ℕ}
    (hs : p.s ≤ s) : exp (score p query (paddedRow k p.s h s)) = 1 := by
  unfold score paddedRow
  simp only [Nat.not_lt.mpr hs, if_false, zero_mul, Finset.sum_const_zero]
  exact hexp.zero

omit [Field α] [LinearOrder α] in
theorem tripCount_mul_eq_add (hlane : 0 < p.vectorLane) :
    p.vectorLane * tripCount 0 p.s p.vectorLane = p.s + paddingKeys p := by
  have hle := le_tripCount_mul p.s hlane
  unfold paddingKeys
  omega

/-- The sums over all tiles of keys, with the padding. -/
theorem sum_padded_weight (hexp : IsExp exp) (hlane : 0 < p.vectorLane) {q k : DramTensor α}
    {h r : ℕ} (hr : r < p.l) :
    ∑ s ∈ range (p.vectorLane * tripCount 0 p.s p.vectorLane),
      exp (score p (paddedRow q p.l h r) (paddedRow k p.s h s)) =
        ∑ s ∈ range p.s, keyWeight exp p q k h r s + paddingKeys p := by
  rw [tripCount_mul_eq_add hlane, Finset.sum_range_add]
  congr 1
  · apply Finset.sum_congr rfl
    intro s hs
    exact exp_score_of_lt exp hr (mem_range.mp hs)
  · calc ∑ s ∈ range (paddingKeys p),
          exp (score p (paddedRow q p.l h r) (paddedRow k p.s h (p.s + s)))
        = ∑ s ∈ range (paddingKeys p), 1 := by
          apply Finset.sum_congr rfl
          intro s _
          exact exp_score_of_le hexp (Nat.le_add_right _ _)
      _ = paddingKeys p := by rw [Finset.sum_const, card_range, nsmul_eq_mul, mul_one]

omit [LinearOrder α] in
theorem sum_padded_value (hlane : 0 < p.vectorLane) {q k v : DramTensor α}
    {h r : ℕ} (hr : r < p.l) (c : ℕ) :
    ∑ s ∈ range (p.vectorLane * tripCount 0 p.s p.vectorLane),
      exp (score p (paddedRow q p.l h r) (paddedRow k p.s h s)) * paddedRow v p.s h s c =
        ∑ s ∈ range p.s, keyWeight exp p q k h r s * v h s c := by
  rw [tripCount_mul_eq_add hlane, Finset.sum_range_add]
  have hzero : ∑ s ∈ range (paddingKeys p),
      exp (score p (paddedRow q p.l h r) (paddedRow k p.s h (p.s + s))) *
        paddedRow v p.s h (p.s + s) c = 0 := by
    apply Finset.sum_eq_zero
    intro s _
    have hpad : paddedRow v p.s h (p.s + s) c = 0 := by
      unfold paddedRow
      rw [if_neg (by omega)]
    rw [hpad, mul_zero]
  rw [hzero, add_zero]
  apply Finset.sum_congr rfl
  intro s hs
  have hvalue : paddedRow v p.s h s c = v h s c := by
    unfold paddedRow
    rw [if_pos (mem_range.mp hs)]
  rw [exp_score_of_lt exp hr (mem_range.mp hs), hvalue]

/-- The buffers after the loop over the tiles of keys. -/
def keyLoop (p : SdpaKernel α) (exp : α → α) (q k v : DramTensor α) (index0 index3 index1 : ℕ)
    (buf : SdpaBuffers α) : SdpaBuffers α :=
  affineFor 0 p.s p.vectorLane
    { out := vectorStore (getSpadSizePerLane p.vectorLane p.vectorLane p.e) (fun _ _ => 0) buf.out
      mul := buf.mul
      max := fun _ _ => SdpaKernel.negInf
      sum := fun _ _ => 0 }
    fun index2 buf =>
      p.keyTile exp (mvin q p.l index0 index1 index3) (mvin k p.s index0 index2 index3)
        (mvin v p.s index0 index2 index3) buf

theorem keyLoop_running (hexp : IsExp exp) {m : ℕ} (hlane : p.vectorLane = chunkSize * m)
    (hm : 0 < m) (q k v : DramTensor α) (index0 index1 : ℕ) (buf : SdpaBuffers α) :
    RunningAttention exp p
      (fun lane s => score p (paddedRow q p.l index0 (index1 + lane)) (paddedRow k p.s index0 s))
      (fun s => paddedRow v p.s index0 s) (p.vectorLane * tripCount 0 p.s p.vectorLane)
      (keyLoop p exp q k v index0 0 index1 buf) := by
  have hpos : 0 < p.vectorLane := by
    rw [hlane]
    exact Nat.mul_pos (by decide) hm
  unfold keyLoop
  apply affineFor_induction 0 p.s p.vectorLane
    fun i buf => RunningAttention exp p _ _ (p.vectorLane * i) buf
  · constructor
    · intro lane i hi
      have hspad : i < getSpadSizePerLane p.vectorLane p.vectorLane p.e := by
        have hle := le_tripCount_mul p.e hpos
        unfold tripCount at hle
        rw [Nat.sub_zero] at hle
        unfold getSpadSizePerLane
        exact lt_of_lt_of_le hi (hle.trans (le_max_left _ _))
      dsimp only
      rw [vectorStore_of_lt hspad, Nat.mul_zero, Finset.sum_range_zero, mul_zero]
    · intro lane j
      dsimp only
      rw [Nat.mul_zero, Finset.sum_range_zero, mul_zero]
  · intro i buf _ hbuf
    rw [Nat.mul_succ]
    apply keyTile_running hexp hlane hbuf
    · intro lane s _
      rw [mvin_eq, mvin_eq, Nat.zero_add]
    · intro s c
      rw [mvin_eq, Nat.zero_add]

/-- The rows of a tile of query rows are written with the padded attention. -/
theorem queryTile_dram (hexp : IsExp exp) {m : ℕ} (hlane : p.vectorLane = chunkSize * m)
    (hm : 0 < m) (q k v : DramTensor α) (index0 index1 : ℕ) (st : DramTensor α × SdpaBuffers α)
    (h r c : ℕ) :
    (p.queryTile exp q k v index0 0 index1 st).1 h r c =
      if h = index0 ∧ index1 ≤ r ∧ r < index1 + p.vectorLane ∧ r < p.l ∧ c < p.e then
        paddedAttention exp p q k v h r c
      else st.1 h r c := by
  have hpos : 0 < p.vectorLane := by
    rw [hlane]
    exact Nat.mul_pos (by decide) hm
  obtain ⟨hout, hsum⟩ := keyLoop_running hexp hlane hm q k v index0 index1 st.2
  change mvout _ _ _ _ _ _ _ _ _ _ _ = _
  unfold mvout
  simp only [Nat.zero_le, Nat.zero_add, true_and, Nat.sub_zero]
  split
  · rename_i hrow
    obtain ⟨rfl, hle, hlt, hr, hc⟩ := hrow
    have hlane' : index1 + (r - index1) = r := by omega
    rw [vectorStore_of_lt hc]
    change (keyLoop p exp q k v h 0 index1 st.2).out (r - index1) c *
      (1 / (keyLoop p exp q k v h 0 index1 st.2).sum (r - index1) 0) = _
    rw [hout _ c hc, hsum, hlane', sum_padded_value hpos hr, sum_padded_weight hexp hpos hr,
      mul_one_div, mul_div_mul_left _ _ (hexp.ne_zero _)]
    rfl
  · rfl

/-- The rows of a head are written with the padded attention, and no other head is. -/
theorem headLoop_dram (hexp : IsExp exp) {m : ℕ} (hlane : p.vectorLane = chunkSize * m)
    (hm : 0 < m) (q k v : DramTensor α) (index0 : ℕ) (st : DramTensor α × SdpaBuffers α)
    {h r c : ℕ} (hr : r < p.l) (hc : c < p.e) :
    (affineFor 0 1 1 st fun index3 st => affineFor 0 p.l p.vectorLane st fun index1 st =>
      p.queryTile exp q k v index0 index3 index1 st).1 h r c =
        if h = index0 then paddedAttention exp p q k v h r c else st.1 h r c := by
  have hpos : 0 < p.vectorLane := by
    rw [hlane]
    exact Nat.mul_pos (by decide) hm
  have hrows : (affineFor 0 p.l p.vectorLane st fun index1 st =>
      p.queryTile exp q k v index0 0 index1 st).1 h r c =
        if h = index0 ∧ r < p.vectorLane * tripCount 0 p.l p.vectorLane then
          paddedAttention exp p q k v h r c
        else st.1 h r c := by
    apply affineFor_induction 0 p.l p.vectorLane fun i (st' : DramTensor α × SdpaBuffers α) =>
      st'.1 h r c = if h = index0 ∧ r < p.vectorLane * i then paddedAttention exp p q k v h r c
        else st.1 h r c
    · simp
    · intro i st' _ hi
      rw [queryTile_dram hexp hlane hm, hi, Nat.mul_succ, Nat.zero_add]
      split_ifs <;> first | rfl | omega
  have hle := le_tripCount_mul p.l hpos
  have hlt : r < p.vectorLane * tripCount 0 p.l p.vectorLane := by omega
  simp only [hlt, and_true] at hrows
  exact hrows

/-- The kernel writes the padded attention to every element. -/
theorem flashSdpa_dram (hexp : IsExp exp) {m : ℕ} (hlane : p.vectorLane = chunkSize * m)
    (hm : 0 < m) (q k v : DramTensor α) (st : DramTensor α × SdpaBuffers α) {h r c : ℕ}
    (hh : h < p.b) (hr : r < p.l) (hc : c < p.e) :
    (p.flashSdpa exp q k v st).1 h r c = paddedAttention exp p q k v h r c := by
  have hb : tripCount 0 p.b 1 = p.b := by
    unfold tripCount
    omega
  have hheads : h < tripCount 0 p.b 1 →
      (p.flashSdpa exp q k v st).1 h r c = paddedAttention exp p q k v h r c := by
    apply affineFor_induction 0 p.b 1
      fun i (st' : DramTensor α × SdpaBuffers α) =>
        h < i → st'.1 h r c = paddedAttention exp p q k v h r c
    · simp
    · intro i st' _ hi hlt
      rw [headLoop_dram hexp hlane hm q k v _ st' hr hc, Nat.zero_add, Nat.one_mul]
      split
      · rfl
      · exact hi (by omega)
  rw [hb] at hheads
  exact hheads hh

/-! ## Against softmax attention -/

/-- `softmax(scale * Q * K^T) * V` -/
def softmaxAttention (exp : α → α) (p : SdpaKernel α) (q k v : DramTensor α) (h r c : ℕ) : α :=
  weightedMean (range p.s) (keyWeight exp p q k h r) fun s => v h s c

/-- The kernel is softmax attention exactly if no key is padding or the attention vanishes. -/
theorem flashSdpa_exact_iff [IsStrictOrderedRing α] (hexp : IsExp exp) (p : SdpaKernel α)
    (hs : 0 < p.s) (hpos : 0 < p.vectorLane) (hlane : 16 ∣ p.vectorLane) (q k v : DramTensor α)
    (st : DramTensor α × SdpaBuffers α) :
    (∀ h < p.b, ∀ r < p.l, ∀ c < p.e,
      (p.flashSdpa exp q k v st).1 h r c = softmaxAttention exp p q k v h r c) ↔
    p.vectorLane ∣ p.s ∨
      ∀ h < p.b, ∀ r < p.l, ∀ c < p.e, softmaxAttention exp p q k v h r c = 0 := by
  obtain ⟨m, hm⟩ := hlane
  have hm0 : 0 < m := by
    by_contra hcontra
    have hzero : m = 0 := by omega
    rw [hzero] at hm
    omega
  have hpad : (paddingKeys p : α) = 0 ↔ p.vectorLane ∣ p.s := by
    rw [Nat.cast_eq_zero, ← tripCount_mul_eq_iff p.s hpos, tripCount_mul_eq_add hpos]
    omega
  have hpoint : ∀ h < p.b, ∀ r < p.l, ∀ c < p.e,
      ((p.flashSdpa exp q k v st).1 h r c = softmaxAttention exp p q k v h r c ↔
        p.vectorLane ∣ p.s ∨ softmaxAttention exp p q k v h r c = 0) := by
    intro h hh r hr c hc
    have hz : 0 < ∑ s ∈ range p.s, keyWeight exp p q k h r s :=
      hexp.sum_pos (Finset.nonempty_range_iff.mpr hs.ne') _
    have hzp : ∑ s ∈ range p.s, keyWeight exp p q k h r s + (paddingKeys p : α) ≠ 0 := by
      have hnonneg : (0 : α) ≤ paddingKeys p := Nat.cast_nonneg _
      exact (add_pos_of_pos_of_nonneg hz hnonneg).ne'
    rw [flashSdpa_dram hexp hm hm0 q k v st hh hr hc]
    unfold softmaxAttention
    rw [weightedMean_eq_zero_iff hz.ne', ← hpad]
    exact extra_weight_iff hz.ne' hzp
  constructor
  · intro hexact
    by_cases hdvd : p.vectorLane ∣ p.s
    · exact .inl hdvd
    · refine .inr fun h hh r hr c hc => ?_
      exact ((hpoint h hh r hr c hc).mp (hexact h hh r hr c hc)).resolve_left hdvd
  · intro hcond h hh r hr c hc
    exact (hpoint h hh r hr c hc).mpr (hcond.imp id fun hzero => hzero h hh r hr c hc)

/-- One head with one token, on sixteen lanes. -/
def oneToken : SdpaKernel ℝ := ⟨1, 1, 1, 1, 16, 1⟩

/-- Output and buffers before the kernel. -/
def zeroState : DramTensor ℝ × SdpaBuffers ℝ := (0, ⟨0, 0, 0, 0⟩)

theorem flashSdpa_exact_iff_oneToken :
    (0 < oneToken.s ∧ 0 < oneToken.vectorLane ∧ 16 ∣ oneToken.vectorLane) ∧
    ((∀ h < oneToken.b, ∀ r < oneToken.l, ∀ c < oneToken.e,
      (oneToken.flashSdpa Real.exp 0 0 1 zeroState).1 h r c =
        softmaxAttention Real.exp oneToken 0 0 1 h r c) ↔
    oneToken.vectorLane ∣ oneToken.s ∨ ∀ h < oneToken.b, ∀ r < oneToken.l, ∀ c < oneToken.e,
      softmaxAttention Real.exp oneToken 0 0 1 h r c = 0) :=
  ⟨⟨by decide, by decide, by decide⟩,
    flashSdpa_exact_iff isExp_real oneToken (by decide) (by decide) (by decide) 0 0 1 zeroState⟩

/-- Values of 1 have attention 1, and the kernel writes a sixteenth. -/
theorem oneToken_not_exact :
    ¬ ∀ h < oneToken.b, ∀ r < oneToken.l, ∀ c < oneToken.e,
      (oneToken.flashSdpa Real.exp 0 0 1 zeroState).1 h r c =
        softmaxAttention Real.exp oneToken 0 0 1 h r c := by
  intro hexact
  have hpad : paddingKeys oneToken = 15 := rfl
  have hweight : ∀ s, keyWeight Real.exp oneToken 0 0 0 0 s = 1 := by
    intro s
    unfold keyWeight
    simp
  have hone := hexact 0 (by decide) 0 (by decide) 0 (by decide)
  rw [flashSdpa_dram (m := 1) isExp_real rfl (by decide) 0 0 1 zeroState (by decide) (by decide)
    (by decide)] at hone
  unfold paddedAttention softmaxAttention weightedMean at hone
  rw [hpad] at hone
  simp only [hweight] at hone
  norm_num [oneToken] at hone

end PyTorchSim.Analysis
