import Mathlib.Data.Set.Function
import PyTorchSim.Analysis.PerLaneLayout
import PyTorchSim.Frontend.IndexExpr

/-!
# The coordinates of an index expression

An index expression takes the position in a lane's buffer apart into a digit for each axis, and puts
the digit of the split axis and the lane together again.  The digit counts the elements of a lane in
rounds of one stride each; a round of all lanes is `lanes * stride` long, but the rounds are counted
`lanes` apart.
-/

set_option autoImplicit false

namespace PyTorchSim.Analysis

open PyTorchSim.Frontend PyTorchSim.Library

variable {T : MLIRMultiDimTile} {lane lanes stride rounds used dim p idx : ℕ}

/-! ## The coordinate along the split axis -/

/-- The coordinate that the index expression gives to a digit of the split axis in a lane. -/
def laneCoordinate (stride lanes lane dim : ℕ) : ℕ :=
  dim % stride + dim / stride * lanes + lane * stride

/-- Numbers below a product from a digit and a rest. -/
theorem digit_bijOn {base n : ℕ} (hbase : 0 < base) :
    Set.BijOn (fun x : ℕ × ℕ => x.1 + base * x.2) {x | x.1 < base ∧ x.2 < n}
      {c | c < base * n} := by
  refine ⟨?_, ?_, ?_⟩
  · rintro x ⟨hdigit, hrest⟩
    have hle : base * (x.2 + 1) ≤ base * n := Nat.mul_le_mul_left _ hrest
    rw [Nat.mul_succ] at hle
    change x.1 + base * x.2 < base * n
    omega
  · rintro x ⟨hdigit, -⟩ y ⟨hdigit', -⟩ heq
    have hfst : x.1 = y.1 := by
      have hmod := congrArg (· % base) heq
      simpa [Nat.mod_eq_of_lt hdigit, Nat.mod_eq_of_lt hdigit'] using hmod
    have hsnd : x.2 = y.2 := by
      simp only [hfst, Nat.add_left_cancel_iff] at heq
      exact Nat.eq_of_mul_eq_mul_left hbase heq
    exact Prod.ext hfst hsnd
  · intro c hc
    exact ⟨(c % base, c / base), ⟨Nat.mod_lt c hbase, Nat.div_lt_of_lt_mul hc⟩,
      Nat.mod_add_div c base⟩

/-- In one round, and for strides of one element, the coordinates are those of the elements. -/
theorem laneCoordinate_bijOn (hstride : 0 < stride) (hused : 0 < used)
    (hrounds : rounds = 1 ∨ stride = 1 ∧ used = lanes) :
    Set.BijOn (fun x : ℕ × ℕ => laneCoordinate stride lanes x.1 x.2)
      {x | x.1 < used ∧ x.2 < rounds * stride} {c | c < rounds * stride * used} := by
  rcases hrounds with rfl | ⟨rfl, rfl⟩
  · -- the digit is the place within the stride of the lane
    rw [Nat.one_mul]
    have hswap : Set.BijOn Prod.swap {x : ℕ × ℕ | x.1 < used ∧ x.2 < stride}
        {x : ℕ × ℕ | x.1 < stride ∧ x.2 < used} :=
      ⟨fun x hx => ⟨hx.2, hx.1⟩, Prod.swap_injective.injOn,
        fun x hx => ⟨x.swap, ⟨hx.2, hx.1⟩, x.swap_swap⟩⟩
    apply ((digit_bijOn hstride).comp hswap).congr
    rintro x ⟨-, hdim⟩
    change x.2 + stride * x.1 = x.2 % stride + x.2 / stride * lanes + x.1 * stride
    rw [Nat.mod_eq_of_lt hdim, Nat.div_eq_of_lt hdim, Nat.zero_mul, Nat.add_zero, Nat.mul_comm]
  · -- the digit is the round
    rw [Nat.mul_one, Nat.mul_comm]
    apply (digit_bijOn hused).congr
    intro x _
    change x.1 + used * x.2 = x.2 % 1 + x.2 / 1 * used + x.1 * 1
    rw [Nat.mod_one, Nat.div_one, Nat.mul_one, Nat.zero_add, Nat.add_comm, Nat.mul_comm]

/-- With several rounds of strides of more than one element the last coordinate is not given. -/
theorem laneCoordinate_lt_last (hstride : 1 < stride) (hrounds : 1 < rounds) (hlane : lane < lanes)
    (hdim : dim < rounds * stride) :
    laneCoordinate stride lanes lane dim < rounds * stride * lanes - 1 := by
  have hdigit : dim % stride ≤ stride - 1 := Nat.le_pred_of_lt (Nat.mod_lt _ (by omega))
  have hround : dim / stride ≤ rounds - 1 :=
    Nat.le_pred_of_lt (Nat.div_lt_of_lt_mul (by rw [Nat.mul_comm]; exact hdim))
  have hrest : dim / stride * lanes ≤ (rounds - 1) * lanes := Nat.mul_le_mul_right _ hround
  have hoffset : lane * stride ≤ (lanes - 1) * stride :=
    Nat.mul_le_mul_right _ (Nat.le_pred_of_lt hlane)
  obtain ⟨r, rfl⟩ : ∃ r, rounds = r + 2 := ⟨rounds - 2, by omega⟩
  obtain ⟨s, rfl⟩ : ∃ s, stride = s + 2 := ⟨stride - 2, by omega⟩
  obtain ⟨l, rfl⟩ : ∃ l, lanes = l + 1 := ⟨lanes - 1, by omega⟩
  have hexpand : (r + 2) * (s + 2) * (l + 1) =
      (s + 1) + (r + 1) * (l + 1) + l * (s + 2) + 1 + (r + 1) * (s + 1) * (l + 1) := by ring
  have hextra : 0 < (r + 1) * (s + 1) * (l + 1) :=
    Nat.mul_pos (Nat.mul_pos r.succ_pos s.succ_pos) l.succ_pos
  unfold laneCoordinate
  simp only [Nat.add_sub_cancel, show s + 2 - 1 = s + 1 by omega,
    show r + 2 - 1 = r + 1 by omega] at hdigit hrest hoffset
  omega

/-! ## The coordinates of a tile -/

theorem prod_entry (list : List ℕ) : ∏ i ∈ Finset.range list.length, entry list i = list.prod := by
  induction list with
  | nil => rfl
  | cons head tail ih =>
    rw [List.length_cons, Finset.prod_range_succ', List.prod_cons, ← ih, Nat.mul_comm]
    rfl

theorem length_dimList (T : MLIRMultiDimTile) (lane p : ℕ) :
    (dimList T lane p).length = T.tileSize.length := by
  rw [dimList, List.length_map, List.length_range, length_getTileSizePerLane]

theorem entry_dimList (hidx : idx < T.tileSize.length) :
    entry (dimList T lane p) idx = tileDim T lane p idx := by
  rw [entry_eq_getElem (by rw [length_dimList]; exact hidx)]
  simp only [dimList, List.getElem_map, List.getElem_range]

/-- A lane has an element for each choice of digits. -/
theorem getNumelPerLane_eq (T : MLIRMultiDimTile) :
    T.getNumelPerLane = ∏ i ∈ Finset.range T.tileSize.length, entry T.getTileSizePerLane i := by
  rw [← length_getTileSizePerLane, prod_entry]
  rfl

/-- The places of the used lanes' buffers. -/
def lanePlaces (T : MLIRMultiDimTile) : Set (ℕ × ℕ) :=
  {x | x.1 < T.getUsedVlane ∧ x.2 < T.getNumelPerLane}

/-- The coordinates of the elements of the tile. -/
def tileCoordinates (T : MLIRMultiDimTile) : Set (List ℕ) :=
  {c | c.length = T.tileSize.length ∧ ∀ i < T.tileSize.length, entry c i < entry T.tileSize i}

/-- The digit of an axis at a position of a lane's buffer. -/
def laneDigit (T : MLIRMultiDimTile) (p i : ℕ) : ℕ :=
  digitIn (Finset.range T.tileSize.length) (entry T.tileAxisOrder) (entry T.getTileSizePerLane) p i

theorem SoundTile.lane_size_pos (h : SoundTile T) {i : ℕ} (hi : i < T.tileSize.length) :
    0 < entry T.getTileSizePerLane i := by
  by_cases hne : i = T.vmap.vlaneSplitAxis
  · rw [hne]
    exact h.laneSize_pos
  · rw [entry_getTileSizePerLane hne, entry_eq_getElem hi]
    exact h.size_pos _ (List.getElem_mem hi)

theorem SoundTile.laneDigit_lt (h : SoundTile T) {i : ℕ} (hi : i < T.tileSize.length) :
    laneDigit T p i < entry T.getTileSizePerLane i := Nat.mod_lt _ (h.lane_size_pos hi)

/-- The place with given digits. -/
theorem exists_laneDigit (hinj : Set.InjOn (entry T.tileAxisOrder)
      (Finset.range T.tileSize.length : Set ℕ)) (digits : ℕ → ℕ)
    (hdigits : ∀ i < T.tileSize.length, digits i < entry T.getTileSizePerLane i) :
    ∃ p < T.getNumelPerLane, ∀ i < T.tileSize.length, laneDigit T p i = digits i := by
  have hbound : ∀ i ∈ Finset.range T.tileSize.length, digits i < entry T.getTileSizePerLane i :=
    fun i hi => hdigits i (Finset.mem_range.1 hi)
  refine ⟨offsetIn (Finset.range T.tileSize.length) (entry T.tileAxisOrder)
    (entry T.getTileSizePerLane) digits, ?_, ?_⟩
  · rw [getNumelPerLane_eq]
    exact offsetIn_lt hinj hbound
  · intro i hi
    exact digitIn_offsetIn hinj hbound (Finset.mem_range.2 hi)

/-- A place is that of its digits. -/
theorem place_eq_of_laneDigit (hinj : Set.InjOn (entry T.tileAxisOrder)
      (Finset.range T.tileSize.length : Set ℕ)) {q : ℕ} (hp : p < T.getNumelPerLane)
    (hq : q < T.getNumelPerLane)
    (hdigits : ∀ i < T.tileSize.length, laneDigit T p i = laneDigit T q i) : p = q := by
  rw [getNumelPerLane_eq] at hp hq
  rw [← offsetIn_digitIn hinj hp, ← offsetIn_digitIn hinj hq]
  apply Finset.sum_congr rfl
  intro i hi
  exact congrArg (· * _) (hdigits i (Finset.mem_range.1 hi))

namespace PaddedTile

variable (h : PaddedTile T)
include h

theorem laneDigit_lt {i : ℕ} (hi : i < T.tileSize.length) :
    laneDigit T p i < entry T.getTileSizePerLane i := h.sound.laneDigit_lt hi

/-- Without the lane, the coordinate of an axis is its digit. -/
theorem tileDim_of_ne (hidx : idx < T.tileSize.length) (hne : idx ≠ T.vmap.vlaneSplitAxis) :
    tileDim T lane p idx = laneDigit T p idx := by
  unfold tileDim laneDigit digitIn
  rw [← h.entry_getTileStridePerLane hidx]
  exact if_neg hne

/-- The split axis has the coordinate of its digit in the lane. -/
theorem tileDim_split :
    tileDim T lane p T.vmap.vlaneSplitAxis =
      laneCoordinate T.vmap.vlaneStride T.vmap.vectorLane lane
        (laneDigit T p T.vmap.vlaneSplitAxis) := by
  have hlt := h.laneDigit_lt (p := p) h.sound.axis_lt
  have hdigit : laneDigit T p T.vmap.vlaneSplitAxis =
      p / entry T.getTileStridePerLane T.vmap.vlaneSplitAxis %
        entry T.getTileSizePerLane T.vmap.vlaneSplitAxis := by
    unfold laneDigit digitIn
    rw [← h.entry_getTileStridePerLane h.sound.axis_lt]
  -- the rounds are fewer than those of the whole tile
  have hround : laneDigit T p T.vmap.vlaneSplitAxis / T.vmap.vlaneStride <
      splitSize T / T.vmap.vlaneStride := by
    have hrounds : laneSize T / T.vmap.vlaneStride ≤ splitSize T / T.vmap.vlaneStride := by
      rw [← h.laneSize_mul]
      exact Nat.div_le_div_right (Nat.le_mul_of_pos_right _ h.sound.getUsedVlane_pos)
    obtain ⟨rounds, hdvd⟩ := h.stride_dvd_laneSize
    have hlt' : laneDigit T p T.vmap.vlaneSplitAxis / T.vmap.vlaneStride < rounds := by
      apply Nat.div_lt_of_lt_mul
      rw [← hdvd]
      exact hlt
    rw [hdvd, Nat.mul_div_cancel_left _ h.sound.stride_pos] at hrounds
    exact lt_of_lt_of_le hlt' hrounds
  unfold tileDim laneCoordinate vlaneOffset
  rw [if_pos rfl]
  change _ % _ + _ % (splitSize T / T.vmap.vlaneStride) * _ + _ = _
  rw [← hdigit, Nat.mod_eq_of_lt hround]

/-- A lane has a number of rounds of the split axis; with more than one, all lanes are used. -/
theorem exists_rounds : ∃ rounds, 0 < rounds ∧ laneSize T = rounds * T.vmap.vlaneStride ∧
    splitSize T = rounds * T.vmap.vlaneStride * T.getUsedVlane ∧
    (rounds = 1 ∨ T.getUsedVlane = T.vmap.vectorLane) := by
  obtain ⟨rounds, hdvd⟩ := h.stride_dvd_laneSize
  rw [Nat.mul_comm] at hdvd
  have hpos : 0 < rounds := by
    have hlane := h.sound.laneSize_pos
    rw [hdvd] at hlane
    exact Nat.pos_of_mul_pos_right hlane
  have hsplit : splitSize T = rounds * T.vmap.vlaneStride * T.getUsedVlane := by
    rw [← hdvd, h.laneSize_mul]
  refine ⟨rounds, hpos, hdvd, hsplit, ?_⟩
  have hused : T.getUsedVlane = min (rounds * T.getUsedVlane) T.vmap.vectorLane := by
    have hceil : splitSize T ⌈/⌉ T.vmap.vlaneStride = rounds * T.getUsedVlane := by
      rw [hsplit, Nat.mul_right_comm, mul_ceilDiv_self h.sound.stride_pos]
    rw [← hceil]
    rfl
  have hlanes := h.sound.getUsedVlane_pos
  by_contra hnot
  rw [not_or] at hnot
  have hmany : 2 * T.getUsedVlane ≤ rounds * T.getUsedVlane :=
    Nat.mul_le_mul_right _ (by omega)
  omega

/-- The lane and the digit of the split axis. -/
abbrev lanePlace (T : MLIRMultiDimTile) (x : ℕ × ℕ) : ℕ × ℕ :=
  (x.1, laneDigit T x.2 T.vmap.vlaneSplitAxis)

/-- The lanes and the digits of the split axis. -/
abbrev laneDigits (T : MLIRMultiDimTile) : Set (ℕ × ℕ) :=
  {x | x.1 < T.getUsedVlane ∧ x.2 < laneSize T}

/-- The coordinate along the split axis. -/
abbrev splitCoordinateOf (T : MLIRMultiDimTile) (x : ℕ × ℕ) : ℕ :=
  laneCoordinate T.vmap.vlaneStride T.vmap.vectorLane x.1 x.2

theorem lanePlace_mem {x : ℕ × ℕ} (hx : x ∈ lanePlaces T) : lanePlace T x ∈ laneDigits T :=
  ⟨hx.1, h.laneDigit_lt h.sound.axis_lt⟩

theorem dimList_mapsTo
    (hmaps : Set.MapsTo (splitCoordinateOf T) (laneDigits T) {c | c < splitSize T}) :
    Set.MapsTo (fun x : ℕ × ℕ => dimList T x.1 x.2) (lanePlaces T) (tileCoordinates T) := by
  intro x hx
  refine ⟨length_dimList T x.1 x.2, ?_⟩
  intro i hi
  simp only [entry_dimList hi]
  by_cases hne : i = T.vmap.vlaneSplitAxis
  · rw [hne, h.tileDim_split]
    exact hmaps (h.lanePlace_mem hx)
  · rw [h.tileDim_of_ne hi hne, ← entry_getTileSizePerLane hne]
    exact h.laneDigit_lt hi

theorem dimList_injOn (hinj : Set.InjOn (splitCoordinateOf T) (laneDigits T)) :
    Set.InjOn (fun x : ℕ × ℕ => dimList T x.1 x.2) (lanePlaces T) := by
  intro x hx y hy heq
  have hentry : ∀ i < T.tileSize.length, tileDim T x.1 x.2 i = tileDim T y.1 y.2 i := by
    intro i hi
    rw [← entry_dimList hi, ← entry_dimList hi]
    exact congrArg (fun list => entry list i) heq
  -- the coordinate along the split axis gives the lane and the digit
  have hpair : lanePlace T x = lanePlace T y := by
    apply hinj (h.lanePlace_mem hx) (h.lanePlace_mem hy)
    have hsplit := hentry _ h.sound.axis_lt
    rwa [h.tileDim_split, h.tileDim_split] at hsplit
  obtain ⟨hlane, hdigit⟩ := Prod.mk.inj hpair
  have hdigits : ∀ i < T.tileSize.length, laneDigit T x.2 i = laneDigit T y.2 i := by
    intro i hi
    by_cases hne : i = T.vmap.vlaneSplitAxis
    · rw [hne]
      exact hdigit
    · have hother := hentry i hi
      rwa [h.tileDim_of_ne hi hne, h.tileDim_of_ne hi hne] at hother
  have hplace : x.2 = y.2 := place_eq_of_laneDigit h.order_injOn hx.2 hy.2 hdigits
  exact Prod.ext hlane hplace

theorem dimList_surjOn
    (hsurj : Set.SurjOn (splitCoordinateOf T) (laneDigits T) {c | c < splitSize T}) :
    Set.SurjOn (fun x : ℕ × ℕ => dimList T x.1 x.2) (lanePlaces T) (tileCoordinates T) := by
  rintro c ⟨hlen, hc⟩
  obtain ⟨⟨lane, dim⟩, ⟨hlane, hdim⟩, hsplit⟩ := hsurj (hc _ h.sound.axis_lt)
  set digits : ℕ → ℕ := fun i => if i = T.vmap.vlaneSplitAxis then dim else entry c i with hdigits
  have hbound : ∀ i < T.tileSize.length, digits i < entry T.getTileSizePerLane i := by
    intro i hi
    by_cases hne : i = T.vmap.vlaneSplitAxis
    · simp only [hdigits, if_pos hne]
      rw [hne]
      exact hdim
    · simp only [hdigits, if_neg hne]
      rw [entry_getTileSizePerLane hne]
      exact hc i hi
  obtain ⟨place, hplace, hback⟩ := exists_laneDigit h.order_injOn digits hbound
  refine ⟨(lane, place), ⟨hlane, hplace⟩, ?_⟩
  apply List.ext_getElem
  · exact (length_dimList T lane place).trans hlen.symm
  · intro i hi hi'
    have hi'' : i < T.tileSize.length := hlen ▸ hi'
    rw [← entry_eq_getElem, ← entry_eq_getElem, entry_dimList hi'']
    by_cases hne : i = T.vmap.vlaneSplitAxis
    · subst hne
      rw [h.tileDim_split, hback _ hi'', hdigits]
      simpa using hsplit
    · rw [h.tileDim_of_ne hi'' hne, hback _ hi'', hdigits]
      exact if_neg hne

/-- Each element is reached once where the split axis keeps the elements apart. -/
theorem dimList_bijOn (hcond : T.vmap.vlaneStride = 1 ∨
    splitSize T ≤ T.vmap.vectorLane * T.vmap.vlaneStride) :
    Set.BijOn (fun x : ℕ × ℕ => dimList T x.1 x.2) (lanePlaces T) (tileCoordinates T) := by
  obtain ⟨rounds, hpos, hlane, hsplit, hall⟩ := h.exists_rounds
  have hrounds : rounds = 1 ∨ T.vmap.vlaneStride = 1 ∧ T.getUsedVlane = T.vmap.vectorLane := by
    rcases hall with hone | hused
    · exact Or.inl hone
    rcases hcond with hstride | hle
    · exact Or.inr ⟨hstride, hused⟩
    · rw [hsplit, hused, Nat.mul_assoc, Nat.mul_comm T.vmap.vlaneStride] at hle
      have hround : 0 < T.vmap.vectorLane * T.vmap.vlaneStride :=
        Nat.mul_pos h.sound.lane_pos h.sound.stride_pos
      have hone : rounds ≤ 1 := Nat.le_of_mul_le_mul_right (by rw [Nat.one_mul]; exact hle) hround
      exact Or.inl (Nat.le_antisymm hone hpos)
  have hbij := laneCoordinate_bijOn h.sound.stride_pos h.sound.getUsedVlane_pos hrounds
  rw [← hsplit, ← hlane] at hbij
  exact ⟨h.dimList_mapsTo hbij.mapsTo, h.dimList_injOn hbij.injOn, h.dimList_surjOn hbij.surjOn⟩

end PaddedTile

/-- An index expression reaches each element of a padded tile from one place of one lane exactly
when the lane stride is one or the split axis fits in one round of the lanes. -/
theorem dimList_bijOn_iff (h : PaddedTile T) :
    Set.BijOn (fun x : ℕ × ℕ => dimList T x.1 x.2) (lanePlaces T) (tileCoordinates T) ↔
      T.vmap.vlaneStride = 1 ∨ splitSize T ≤ T.vmap.vectorLane * T.vmap.vlaneStride := by
  constructor
  · intro hbij
    by_contra hnot
    rw [not_or] at hnot
    obtain ⟨hstride, hlarge⟩ := hnot
    have hone : 1 < T.vmap.vlaneStride := lt_of_le_of_ne h.sound.stride_pos (Ne.symm hstride)
    obtain ⟨rounds, hpos, hlane, hsplit, hall⟩ := h.exists_rounds
    have hrounds : 1 < rounds := by
      apply lt_of_le_of_ne hpos
      rintro rfl
      rw [hsplit, Nat.one_mul, Nat.mul_comm] at hlarge
      exact hlarge (Nat.mul_le_mul_right _ (getUsedVlane_le T))
    have hused : T.getUsedVlane = T.vmap.vectorLane := hall.resolve_left (Nat.ne_of_gt hrounds)
    -- no place has the last coordinates
    have hlast : (T.tileSize.map (· - 1)) ∈ tileCoordinates T := by
      refine ⟨List.length_map _, ?_⟩
      intro i hi
      rw [entry_map hi]
      exact Nat.sub_lt (h.size_pos i (Finset.mem_range.2 hi)) Nat.one_pos
    obtain ⟨⟨lane, p⟩, ⟨hlt, -⟩, heq⟩ := hbij.surjOn hlast
    have hentry := congrArg (fun list => entry list T.vmap.vlaneSplitAxis) heq
    simp only [entry_dimList h.sound.axis_lt, entry_map h.sound.axis_lt, h.tileDim_split] at hentry
    have hdigit : laneDigit T p T.vmap.vlaneSplitAxis < laneSize T := h.laneDigit_lt h.sound.axis_lt
    rw [hlane] at hdigit
    have hbelow := laneCoordinate_lt_last hone hrounds (hused ▸ hlt) hdigit
    rw [← hused, ← hsplit, hused, hentry] at hbelow
    exact lt_irrefl _ hbelow
  · exact h.dimList_bijOn

/-- Eight rows over four lanes, one row at a time. -/
theorem dimList_bijOn_iff_eight :
    Set.BijOn (fun x : ℕ × ℕ => dimList (MLIRMultiDimTile.make [8, 3] 4 0 1 none) x.1 x.2)
      (lanePlaces (MLIRMultiDimTile.make [8, 3] 4 0 1 none))
      (tileCoordinates (MLIRMultiDimTile.make [8, 3] 4 0 1 none)) :=
  (dimList_bijOn_iff ⟨⟨by decide, by decide, by decide, by decide⟩, ⟨by decide, rfl⟩, rfl⟩).2
    (by decide)

/-- Sixteen elements over four lanes, two at a time: element 15 is reached from no place. -/
theorem dimList_misses_last :
    ¬ Set.BijOn (fun x : ℕ × ℕ => dimList (MLIRMultiDimTile.make [16] 4 0 2 none) x.1 x.2)
      (lanePlaces (MLIRMultiDimTile.make [16] 4 0 2 none))
      (tileCoordinates (MLIRMultiDimTile.make [16] 4 0 2 none)) := by
  intro hbij
  have hmem : [15] ∈ tileCoordinates (MLIRMultiDimTile.make [16] 4 0 2 none) := by
    refine ⟨rfl, ?_⟩
    intro i hi
    rw [Nat.lt_one_iff.1 hi]
    decide
  obtain ⟨⟨lane, p⟩, ⟨hlane, hp⟩, heq⟩ := hbij.surjOn hmem
  have hnone : ∀ lane < 4, ∀ p < 4,
      dimList (MLIRMultiDimTile.make [16] 4 0 2 none) lane p ≠ [15] := by decide
  exact hnone lane hlane p hp heq

end PyTorchSim.Analysis
