import Mathlib.Algebra.BigOperators.Pi
import PyTorchSim.Analysis.PerLaneLayout
import PyTorchSim.Frontend.TileReduction
import PyTorchSim.Library.SlotProducts

/-!
# The slots of a reduction

The vector size of a reduction is a multiple of the number of rows that a lane has, so the element
at place `e` of a lane's buffer is combined into the slot of `e` modulo that number, with the tail
masked.
-/

set_option autoImplicit false

namespace PyTorchSim.Analysis

open PyTorchSim.Frontend PyTorchSim.Library

variable {T : MLIRMultiDimTile} {M : Type} [CommMonoid M] {levels : List LoopLevel}
  {value : List ℕ → ℕ → M}

/-! ## The vector size -/

theorem firstMultiple_eq_mul (fits : ℕ → Bool) (val : ℕ) :
    ∃ k, 0 < k ∧ VectorLaneMapping.firstMultiple fits val = k * val := by
  unfold VectorLaneMapping.firstMultiple
  split
  · rename_i mult hfind
    have hmem := List.mem_of_find?_eq_some hfind
    refine ⟨mult, ?_, Nat.mul_comm val mult⟩
    simp only [List.mem_cons, List.not_mem_nil, or_false] at hmem
    omega
  · exact ⟨1, Nat.one_pos, (Nat.one_mul val).symm⟩

/-- The vectors of a reduction have whole multiples of a lane's rows. -/
theorem getComputeVecSize_reduction (hrdim : T.nrRdim ≠ 0) (hred : 0 < T.getReductionNumel)
    (hsize : 0 < reductionSize T) :
    ∃ k, 0 < k ∧ T.getComputeVecSize = k * reductionSize T := by
  have hval : T.vmap.getNumelPerLane T.tileSize / max T.getReductionNumel 1 = reductionSize T := by
    rw [Nat.max_eq_left hred]
    rfl
  obtain ⟨k, hk, hmult⟩ := firstMultiple_eq_mul
    (fun mult => reductionSize T * mult ≤ T.vmap.getNumelPerLane T.tileSize) (reductionSize T)
  unfold MLIRMultiDimTile.getComputeVecSize VectorLaneMapping.getComputeVecSize
  rw [if_pos hrdim]
  simp only [hval]
  cases T.vmap.forcedVecSize with
  | none => exact ⟨k, hk, hmult⟩
  | some forced =>
    rw [Nat.max_eq_left hsize]
    simp only
    rcases Nat.le_total
      (min (VectorLaneMapping.firstMultiple
        (fun mult => reductionSize T * mult ≤ T.vmap.getNumelPerLane T.tileSize) (reductionSize T))
        forced / reductionSize T * reductionSize T) (reductionSize T) with hle | hle
    · rw [Nat.max_eq_right hle]
      exact ⟨1, Nat.one_pos, (Nat.one_mul _).symm⟩
    · rw [Nat.max_eq_left hle]
      exact ⟨_, Nat.pos_of_mul_pos_right (Nat.lt_of_lt_of_le hsize hle), rfl⟩

/-! ## The loops -/

/-- The indices of loops inside each other. -/
def loopPoints : List LoopLevel → List (List ℕ)
  | [] => [[]]
  | level :: levels => level.indices.flatMap fun i => (loopPoints levels).map (i :: ·)

theorem nestedFor_mul {N : Type} [CommMonoid N] (levels : List LoopLevel) (factor : List ℕ → N)
    (acc : N) :
    nestedFor levels (fun indices acc => factor indices * acc) acc =
      ((loopPoints levels).map factor).prod * acc := by
  induction levels generalizing factor acc with
  | nil =>
    rw [loopPoints, List.map_singleton, List.prod_singleton]
    rfl
  | cons level levels ih =>
    have hinner :
      (fun acc i => nestedFor levels (fun indices acc => factor (i :: indices) * acc) acc) =
        fun acc i => ((loopPoints levels).map fun indices => factor (i :: indices)).prod * acc := by
      funext acc i
      exact ih (fun indices => factor (i :: indices)) acc
    unfold nestedFor
    rw [hinner, foldl_mul_acc, loopPoints, List.map_flatMap, List.flatMap, List.prod_flatten,
      List.map_map]
    congr 2
    apply List.map_congr_left
    intro i _
    simp only [Function.comp_apply, List.map_map]
    rfl

/-- With or without a mask, the places behind the buffer are neutral. -/
theorem maskedValue_eq {size step slot i : ℕ} (hslot : slot < step) (hi : i < size ⌈/⌉ step)
    (value : ℕ → M) :
    maskedValue ⟨0, size, step⟩ value (i * step) slot =
      if i * step + slot < size then value (i * step + slot) else 1 := by
  have hstep : 0 < step := Nat.zero_lt_of_lt hslot
  unfold maskedValue getMask
  by_cases hdvd : size % step = 0
  · have hexact : size ⌈/⌉ step * step = size := by
      rw [Nat.ceilDiv_eq_add_pred_div]
      obtain ⟨k, rfl⟩ := Nat.dvd_of_mod_eq_zero hdvd
      have hquot : (step * k + step - 1) / step = k := by
        rw [Nat.add_sub_assoc hstep, Nat.mul_add_div hstep,
          Nat.div_eq_of_lt (by omega : step - 1 < step), Nat.add_zero]
      rw [hquot, Nat.mul_comm]
    have hlt : i * step + slot < size := by
      calc i * step + slot < i * step + step := Nat.add_lt_add_left hslot _
        _ = (i + 1) * step := (Nat.succ_mul i step).symm
        _ ≤ size ⌈/⌉ step * step := Nat.mul_le_mul_right step hi
        _ = size := hexact
    rw [if_pos hdvd, if_pos hlt]
  · rw [if_neg hdvd]
    have hlt : slot < size - i * step ↔ i * step + slot < size := by omega
    simp only [decide_eq_true_eq, hlt]

/-- What the compute loop multiplies into the slots. -/
def loopFactor (size step : ℕ) (value : ℕ → M) (slot : ℕ) : M :=
  ((List.range (size ⌈/⌉ step)).map fun i => maskedValue ⟨0, size, step⟩ value (i * step) slot).prod

theorem computeLoop_eq (size step : ℕ) (value : ℕ → M) (acc : ℕ → M) :
    computeLoop ⟨0, size, step⟩ value acc = loopFactor size step value * acc := by
  have hindices : (LoopLevel.mk 0 size step).indices =
      (List.range (size ⌈/⌉ step)).map fun i => i * step := by
    unfold LoopLevel.indices
    rw [Nat.sub_zero]
    apply List.ext_getElem
    · simp
    · intro i hi _
      simp [Nat.mul_comm]
  have hfold := foldl_mul_acc (List.range (size ⌈/⌉ step))
    (fun i slot => maskedValue ⟨0, size, step⟩ value (i * step) slot) acc
  unfold computeLoop
  rw [hindices, List.foldl_map]
  refine hfold.trans ?_
  congr 1
  funext slot
  rw [Pi.list_prod_apply, List.map_map]
  rfl

theorem loopFactor_eq {size step slot : ℕ} (hslot : slot < step) (value : ℕ → M) :
    loopFactor size step value slot =
      ∏ i ∈ Finset.range (size ⌈/⌉ step), if i * step + slot < size then value
        (i * step + slot) else 1 := by
  unfold loopFactor
  rw [prod_map_range]
  apply Finset.prod_congr rfl
  intro i hi
  exact maskedValue_eq hslot (Finset.mem_range.1 hi) value

/-- The slots of a vector that end up in one slot of the result have the values of that slot. -/
theorem prod_loopFactor {size mult slots slot : ℕ} (hmult : 0 < mult) (hslot : slot < slots)
    (value : ℕ → M) :
    ∏ i ∈ Finset.range mult, loopFactor size (mult * slots) value (i * slots + slot) =
      slotProduct size slots slot value := by
  have hslots : 0 < slots := Nat.zero_lt_of_lt hslot
  have hstep : 0 < mult * slots := Nat.mul_pos hmult hslots
  have hin : ∀ i ∈ Finset.range mult, i * slots + slot < mult * slots := by
    intro i hi
    calc i * slots + slot < i * slots + slots := Nat.add_lt_add_left hslot _
      _ = (i + 1) * slots := (Nat.succ_mul i slots).symm
      _ ≤ mult * slots := Nat.mul_le_mul_right slots (Finset.mem_range.1 hi)
  have hcover : size ≤ size ⌈/⌉ (mult * slots) * mult * slots := by
    rw [Nat.mul_assoc, Nat.mul_comm]
    exact (ceilDiv_le_iff_le_mul hstep).1 le_rfl
  rw [Finset.prod_congr rfl fun i hi => loopFactor_eq (hin i hi) value]
  rw [prod_rows (size ⌈/⌉ (mult * slots)) mult slots slot fun e => if e < size then value e else 1]
  exact prod_range_eq_slotProduct hslot hcover value

/-! ## The result -/

/-- The accumulators behind the loops. -/
theorem nestedFor_computeLoop (size step slot : ℕ) :
    nestedFor levels (fun indices => computeLoop ⟨0, size, step⟩ (value indices))
      (fun _ => 1) slot =
      ((loopPoints levels).map fun indices => loopFactor size step (value indices) slot).prod := by
  have hbody : (fun indices => computeLoop ⟨0, size, step⟩ (value indices)) =
      fun indices acc => loopFactor size step (value indices) * acc := by
    funext indices acc
    exact computeLoop_eq size step (value indices) acc
  have hloops := nestedFor_mul levels (fun indices => loopFactor size step (value indices)) 1
  rw [hbody]
  refine (congrFun hloops slot).trans ?_
  rw [mul_one, Pi.list_prod_apply, List.map_map]
  rfl

/-- A slot of the result has the values of its places in the lane's buffer, of each round of the
loops. -/
theorem reduction_slot (levels : List LoopLevel) (value : List ℕ → ℕ → M) (hrdim : T.nrRdim ≠ 0)
    (hred : 0 < T.getReductionNumel) (hsize : 0 < reductionSize T) :
    ∃ result,
      reduction T ⟨0, T.getNumelPerLane, T.getComputeVecSize⟩ levels value = .ok result ∧
        ∀ slot < reductionSize T,
          result[slot]? = some ((loopPoints levels).map fun indices =>
            slotProduct T.getNumelPerLane (reductionSize T) slot (value indices)).prod := by
  obtain ⟨mult, hmult, hvec⟩ := getComputeVecSize_reduction hrdim hred hsize
  have hmod : ¬ T.getComputeVecSize % reductionSize T ≠ 0 := by
    rw [hvec, Nat.mul_mod_left]
    exact not_not_intro rfl
  -- the slots of the vector that belong to a slot of the result
  have hslots : ∀ slot < reductionSize T,
      ∏ i ∈ Finset.range mult, nestedFor levels
          (fun indices => computeLoop ⟨0, T.getNumelPerLane, T.getComputeVecSize⟩ (value indices))
          (fun _ => 1) (i * reductionSize T + slot) =
        ((loopPoints levels).map fun indices =>
          slotProduct T.getNumelPerLane (reductionSize T) slot (value indices)).prod := by
    intro slot hslot
    simp only [nestedFor_computeLoop]
    rw [prod_list_prod_comm, hvec]
    simp only [prod_loopFactor hmult hslot]
  unfold reduction
  rw [if_neg hsize.ne', if_neg hmod]
  by_cases hgt : T.getComputeVecSize > reductionSize T
  · rw [if_pos hgt]
    refine ⟨_, rfl, ?_⟩
    intro slot hslot
    have hquot : T.getComputeVecSize / reductionSize T = mult := by
      rw [hvec, Nat.mul_div_cancel _ hsize]
    rw [← hslots slot hslot, multiReduction, hquot, List.getElem?_map, List.getElem?_range hslot,
      Option.map_some, one_mul, prod_map_range]
  · rw [if_neg hgt]
    refine ⟨_, rfl, ?_⟩
    intro slot hslot
    have hone : mult = 1 := by
      have hle : mult * reductionSize T ≤ 1 * reductionSize T := by
        rw [Nat.one_mul, ← hvec]
        exact Nat.le_of_not_gt hgt
      exact Nat.le_antisymm (Nat.le_of_mul_le_mul_right hle hsize) hmult
    rw [← hslots slot hslot, hone, Finset.prod_range_one, Nat.zero_mul, Nat.zero_add,
      List.getElem?_map, List.getElem?_range hslot, Option.map_some]

end PyTorchSim.Analysis
