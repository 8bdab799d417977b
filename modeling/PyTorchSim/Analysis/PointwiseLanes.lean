import PyTorchSim.Analysis.PointwiseEmission

/-!
# Pointwise operations on a lane

Where an operation on a lane gives what PyTorch means by it.  On integers the patterns are those of
the integers, so that only a division that overflows and the remainder differ: `remsi` has the sign
of the dividend.  On booleans an `i1` is read as a signed number, in which true is `-1` and comes
before false, and a sum of two trues is not true.
-/

set_option autoImplicit false

namespace PyTorchSim.Analysis

open PyTorchSim.Frontend PyTorchSim.Frontend.ExtensionOverrides
open PyTorchSim.Library PyTorchSim.Library.Arith

/-! ## The conditions -/

/-- On two booleans that are held in `t`: a sum is true once, and the order of an `i1` is not asked
for. -/
def BoolMeets (op : BinaryName) (t : ElemType) (a b : ℤ) : Prop :=
  (op = .add → ¬ (a = 1 ∧ b = 1)) ∧
    (op ∈ [.minimum, .maximum, .lt, .gt, .le, .ge] → t = .i1 → a = b)

/-- On two integers of `w` bits: a division does not overflow, and the remainder is zero or dividend
and divisor have one sign. -/
def IntMeets (op : BinaryName) (w : ℕ) (a b : ℤ) : Prop :=
  (op ∈ [.truncdiv, .floordiv] → ¬ (a = -2 ^ (w - 1) ∧ b = -1)) ∧
    (op = .remainder → b ∣ a ∨ (0 ≤ a ↔ 0 ≤ b))

/-- On two numbers of the promoted type `d`, held in `t`. -/
def LaneMeets (op : BinaryName) (d : TorchDtype) (t : ElemType) (a b : ℤ) : Prop :=
  (d = .bool → BoolMeets op t a b) ∧ (d ≠ .bool → ∀ w ∈ promotionBits? d, IntMeets op w a b)

/-- A number in another type: to a boolean it is zero or leaves one in the pattern, to a floating
point type it is not negative. -/
def Converts (target : CastTarget) (a : ℤ) : Prop :=
  (targetDtype? target = some .bool → a = 0 ∨ ∀ w ∈ target.toMlir.intWidth?, a % 2 ^ w = 1) ∧
    ((targetDtype? target).bind promotionBits? = none → 0 ≤ a)

instance (op : BinaryName) (t : ElemType) (a b : ℤ) : Decidable (BoolMeets op t a b) :=
  inferInstanceAs (Decidable (_ ∧ _))

instance (op : BinaryName) (w : ℕ) (a b : ℤ) : Decidable (IntMeets op w a b) :=
  inferInstanceAs (Decidable (_ ∧ _))

instance (op : BinaryName) (d : TorchDtype) (t : ElemType) (a b : ℤ) :
    Decidable (LaneMeets op d t a b) :=
  inferInstanceAs (Decidable (_ ∧ _))

instance (target : CastTarget) (a : ℤ) : Decidable (Converts target a) :=
  inferInstanceAs (Decidable (_ ∧ _))

/-! ## The opcodes -/

/-- The opcode of an operation on integers. -/
def intOpcode? : BinaryName → Option IntOp
  | .add => some .addi
  | .sub => some .subi
  | .mul => some .muli
  | .minimum => some .minsi
  | .maximum => some .maxsi
  | .truncdiv => some .divsi
  | .floordiv => some .floordivsi
  | .mod | .remainder => some .remsi
  | .and_ | .bitwiseAnd => some .andi
  | .or_ | .bitwiseOr => some .ori
  | .xor | .bitwiseXor => some .xori
  | _ => none

/-- The predicate of a comparison of integers. -/
def intPredicate? : BinaryName → Option IntPredicate
  | .eq => some .eq
  | .ne => some .ne
  | .lt => some .slt
  | .gt => some .sgt
  | .le => some .sle
  | .ge => some .sge
  | _ => none

section

variable {op : BinaryName} {o : IntOp} {p : IntPredicate} {d d' : TorchDtype} {t t' : ElemType}
  {w w' : ℕ} {a b r : ℤ}

/-- A boolean is in an `i1` or an `i8`, a signed integer in the type of its width. -/
theorem HeldIn.cases (hd : HeldIn d t) (hbits : (promotionBits? d).isSome) :
    (d = .bool ∧ (t = .i1 ∨ t = .i8)) ∨
      (d ≠ .bool ∧ ∃ w, promotionBits? d = some w ∧ t.intWidth? = some w ∧ 1 < w) := by
  rcases hd with rfl | ⟨rfl, rfl⟩
  · cases d <;> first | (cases hbits; done) | skip
    all_goals simp [TorchDtype.toMlir, promotionBits?, ElemType.intWidth?]
  · exact .inl ⟨rfl, .inl rfl⟩

theorem InRange.bool (ha : InRange .bool a) : a = 0 ∨ a = 1 := ha.1 rfl

theorem InRange.int (ha : InRange d a) (hd : d ≠ .bool) (hw : promotionBits? d = some w) :
    InSigned w a := ha.2 hd w hw

/-! ## Patterns of integers -/

theorem not_divUndefined_iff (hw : 0 < w) (ha : InSigned w a) (hb : InSigned w b) (h0 : b ≠ 0) :
    ¬ DivUndefined (BitVec.ofInt w a) (BitVec.ofInt w b) ↔ ¬ (a = -2 ^ (w - 1) ∧ b = -1) := by
  unfold DivUndefined
  rw [toInt_ofInt_of_inSigned hw ha, toInt_ofInt_of_inSigned hw hb]
  simp [h0]

theorem intMeets_total (h : op ∉ [.truncdiv, .floordiv, .remainder]) : IntMeets op w a b := by
  simp only [List.mem_cons, List.not_mem_nil, or_false, not_or] at h
  refine ⟨fun hop => ?_, fun hop => absurd hop h.2.2⟩
  simp [h.1, h.2.1] at hop

theorem intMeets_division (h : op ∈ [.truncdiv, .floordiv]) :
    IntMeets op w a b ↔ ¬ (a = -2 ^ (w - 1) ∧ b = -1) := by
  have hrem : op ≠ .remainder := by
    rintro rfl
    simp at h
  simp only [IntMeets, h, hrem, forall_const, false_implies, and_true]

/-- **An opcode on integers.** -/
theorem intOp_apply_iff (hw : 0 < w) (ho : intOpcode? op = some o) (ha : InSigned w a)
    (hb : InSigned w b) (hr : intMeaning op w a b = some r) :
    o.apply (BitVec.ofInt w a) (BitVec.ofInt w b) = some (BitVec.ofInt w r) ↔
      IntMeets op w a b := by
  have hta := toInt_ofInt_of_inSigned hw ha
  have htb := toInt_ofInt_of_inSigned hw hb
  cases op <;> cases ho <;> simp only [intMeaning, IntOp.apply] at hr ⊢
  case truncdiv =>
    split at hr
    · cases hr
    · rename_i h0
      cases hr
      rw [ofInt_bmod, sdiv_ofInt hw ha hb, intMeets_division (by simp),
        ← not_divUndefined_iff hw ha hb h0]
      split <;> simp_all
  case floordiv =>
    split at hr
    · cases hr
    · rename_i h0
      cases hr
      rw [ofInt_bmod, hta, htb, intMeets_division (by simp), ← not_divUndefined_iff hw ha hb h0]
      split <;> simp_all
  case mod =>
    split at hr
    · cases hr
    · rename_i h0
      cases hr
      rw [htb, if_neg h0, srem_ofInt hw ha hb]
      exact iff_of_true rfl (intMeets_total (by simp))
  case remainder =>
    split at hr
    · cases hr
    · rename_i h0
      cases hr
      rw [htb, if_neg h0, srem_ofInt hw ha hb, Option.some.injEq,
        ofInt_inj hw (inSigned_tmod hw ha hb) (inSigned_fmod hw ha hb), tmod_eq_fmod_iff h0]
      simp [IntMeets]
  all_goals
    cases hr
    refine iff_of_true (congrArg some ?_) (intMeets_total (by simp))
  case add => rw [ofInt_bmod, BitVec.ofInt_add]
  case sub => rw [ofInt_bmod, ofInt_sub]
  case mul => rw [ofInt_bmod, BitVec.ofInt_mul]
  case minimum =>
    rw [slt_ofInt hw ha hb]
    rcases lt_or_ge a b with h | h
    · simp [h, min_eq_left h.le]
    · simp [not_lt.mpr h, min_eq_right h]
  case maximum =>
    rw [slt_ofInt hw hb ha]
    rcases lt_or_ge b a with h | h
    · simp [h, max_eq_left h.le]
    · simp [not_lt.mpr h, max_eq_right h]
  all_goals rw [BitVec.ofInt_toInt]

/-- **A comparison of integers.** -/
theorem intPredicate_apply (hw : 0 < w) (hp : intPredicate? op = some p) (ha : InSigned w a)
    (hb : InSigned w b) (hr : intMeaning op w a b = some r) :
    BitVec.ofBool (p.apply (BitVec.ofInt w a) (BitVec.ofInt w b)) = BitVec.ofInt 1 r := by
  have hbeq : (BitVec.ofInt w a == BitVec.ofInt w b) = decide (a = b) := by
    rw [Bool.eq_iff_iff, beq_iff_eq, decide_eq_true_iff, ofInt_inj hw ha hb]
  cases op <;> cases hp <;>
    simp only [intMeaning, relationMeaning, IntPredicate.apply, Option.some.injEq] at hr ⊢ <;>
    subst hr
  case eq => rw [hbeq]; by_cases h : a = b <;> simp [truth, h]
  case ne => rw [bne, hbeq]; by_cases h : a = b <;> simp [truth, h]
  case lt => rw [slt_ofInt hw ha hb]; by_cases h : a < b <;> simp [truth, h]
  case gt => rw [slt_ofInt hw hb ha]; by_cases h : b < a <;> simp [truth, h]
  case le => rw [sle_ofInt hw ha hb]; by_cases h : a ≤ b <;> simp [truth, h]
  case ge => rw [sle_ofInt hw hb ha]; by_cases h : b ≤ a <;> simp [truth, h]

/-! ## Lanes of a type -/

theorem intOp_lane_bits (o : IntOp) (x y : BitVec w) :
    o.lane (.bits w x) (.bits w y) = (o.apply x y).map (.bits w) := by
  simp only [IntOp.lane, if_true, BitVec.setWidth_eq]

theorem intPredicate_lane_bits (p : IntPredicate) (x y : BitVec w) :
    p.lane (.bits w x) (.bits w y) = some (.bits 1 (BitVec.ofBool (p.apply x y))) := by
  simp only [IntPredicate.lane, if_true, BitVec.setWidth_eq]

theorem binaryMeaning_int (hd : d ≠ .bool) (hw : promotionBits? d = some w) :
    binaryMeaning op d a b = intMeaning op w a b := by
  unfold binaryMeaning
  rw [if_neg hd, hw]
  rfl

theorem laneMeets_int (hd : d ≠ .bool) (hw : promotionBits? d = some w) :
    LaneMeets op d t a b ↔ IntMeets op w a b := by
  simp [LaneMeets, hd, hw]

/-- **An opcode on two lanes of the promoted type.** -/
theorem intOp_lane_iff (ho : intOpcode? op = some o) (hd : HeldIn d t)
    (hbits : (promotionBits? d).isSome) (ha : InRange d a) (hb : InRange d b)
    (hr : binaryMeaning op d a b = some r) :
    o.lane (encodeLane t a) (encodeLane t b) = some (encodeLane t r) ↔ LaneMeets op d t a b := by
  rcases hd.cases hbits with ⟨rfl, ht⟩ | ⟨hne, w, hw, ht, hw1⟩
  · -- two booleans: all values are looked at, in both types that hold them
    rcases ht with rfl | rfl <;> rcases ha.bool with rfl | rfl <;> rcases hb.bool with rfl | rfl <;>
      cases op <;> cases ho <;> cases hr <;> decide
  · rw [binaryMeaning_int hne hw] at hr
    rw [laneMeets_int hne hw, encodeLane_int ht, encodeLane_int ht, encodeLane_int ht,
      intOp_lane_bits, ← intOp_apply_iff (hw1.trans' one_pos) ho (ha.int hne hw) (hb.int hne hw) hr]
    simp

/-- **A comparison of two lanes of the promoted type.** -/
theorem intPredicate_lane_iff (hp : intPredicate? op = some p) (hd : HeldIn d t)
    (hbits : (promotionBits? d).isSome) (ha : InRange d a) (hb : InRange d b)
    (hr : binaryMeaning op d a b = some r) :
    p.lane (encodeLane t a) (encodeLane t b) = some (encodeLane .i1 r) ↔
      LaneMeets op d t a b := by
  rcases hd.cases hbits with ⟨rfl, ht⟩ | ⟨hne, w, hw, ht, hw1⟩
  · rcases ht with rfl | rfl <;> rcases ha.bool with rfl | rfl <;> rcases hb.bool with rfl | rfl <;>
      cases op <;> cases hp <;> cases hr <;> decide
  · rw [binaryMeaning_int hne hw] at hr
    have hmeets : IntMeets op w a b := intMeets_total (by cases op <;> cases hp <;> simp)
    rw [laneMeets_int hne hw, encodeLane_int ht, encodeLane_int ht, intPredicate_lane_bits,
      intPredicate_apply (hw1.trans' one_pos) hp (ha.int hne hw) (hb.int hne hw) hr]
    exact iff_of_true rfl hmeets

/-! ## Other types -/

/-- Different numbers of a type are in different lanes. -/
theorem encodeLane_inj (hd : HeldIn d t) (hbits : (promotionBits? d).isSome) (ha : InRange d a)
    (hb : InRange d b) : encodeLane t a = encodeLane t b ↔ a = b := by
  rcases hd.cases hbits with ⟨rfl, ht⟩ | ⟨hne, w, hw, ht, hw1⟩
  · rcases ht with rfl | rfl <;> rcases ha.bool with rfl | rfl <;> rcases hb.bool with rfl | rfl <;>
      decide
  · rw [encodeLane_int ht, encodeLane_int ht, Lane.bits.injEq, heq_eq_eq, and_iff_right rfl]
    exact ofInt_inj (hw1.trans' one_pos) (ha.int hne hw) (hb.int hne hw)

/-- **Filling up with zeros is right for a number that is not negative, and for no other.** -/
theorem widenedLane_iff (hd : HeldIn d t) (hbits : (promotionBits? d).isSome) (ha : InRange d a)
    (ht : t.intWidth? = some w) (ht' : t'.intWidth? = some w') (h : w < w' ∨ t = t') :
    widenedLane t t' a = encodeLane t' a ↔ (w < w' → 0 ≤ a) := by
  rcases h with hlt | rfl
  · simp only [widenedLane, ht, ht', hlt, if_true, encodeLane_int ht', Lane.bits.injEq, heq_eq_eq,
      true_and, forall_const]
    rcases hd.cases hbits with ⟨rfl, htb⟩ | ⟨hne, v, hv, htv, hv1⟩
    · have hpos : 0 ≤ a := by rcases ha.bool with rfl | rfl <;> decide
      have hone : a < 2 ^ w := by
        have hw : (2 : ℤ) ≤ 2 ^ w := by
          rcases htb with rfl | rfl <;> cases ht <;> decide
        rcases ha.bool with rfl | rfl <;> omega
      exact iff_of_true (setWidth_ofInt_of_lt hpos hone) hpos
    · rw [ht] at htv
      cases htv
      exact setWidth_ofInt_iff (hv1.trans' one_pos) (ha.int hne hv) hlt
  · rw [widenedLane_same]
    rw [ht] at ht'
    cases ht'
    simp

end

/-! ## Conversions -/

/-- What a conversion between two types makes of a lane. -/
def castLane (t t' : ElemType) (a : ℤ) : Lane :=
  match t.intWidth?, t'.intWidth? with
  | some w, some w' =>
    .bits w' (if w < w' ∧ t ≠ .i1 then (BitVec.ofInt w a).signExtend w'
      else (BitVec.ofInt w a).setWidth w')
  | some w, none => .real ((floatOfNat? t' (BitVec.ofInt w a).toNat).getD .infinity)
  | none, _ => encodeLane t a

section

variable {d d' : TorchDtype} {t t' : ElemType} {target : CastTarget} {w w' : ℕ} {a r : ℤ}

/-- A boolean has its pattern at every width. -/
theorem setWidth_ofInt_bool (ha : a = 0 ∨ a = 1) (hw : 0 < w) :
    (BitVec.ofInt w a).setWidth w' = BitVec.ofInt w' a := by
  have hone : (1 : ℤ) < 2 ^ w := one_lt_pow₀ (by norm_num) hw.ne'
  rcases ha with rfl | rfl
  · exact setWidth_ofInt_of_lt le_rfl (zero_lt_one.trans hone)
  · exact setWidth_ofInt_of_lt zero_le_one hone

theorem castLane_bits (ht : t.intWidth? = some w) (ht' : t'.intWidth? = some w') (a : ℤ) :
    castLane t t' a = .bits w' (if w < w' ∧ t ≠ .i1 then (BitVec.ofInt w a).signExtend w'
      else (BitVec.ofInt w a).setWidth w') := by
  simp only [castLane, ht, ht']

/-- **Between integer types a conversion keeps the number.** -/
theorem castLane_int (hd : HeldIn d t) (hbits : (promotionBits? d).isSome) (ha : InRange d a)
    (ht' : t'.intWidth? = some w') : castLane t t' a = .bits w' (BitVec.ofInt w' a) := by
  rcases hd.cases hbits with ⟨rfl, rfl | rfl⟩ | ⟨hne, w, hw, ht, hw1⟩
  · have ht : ElemType.i1.intWidth? = some 1 := rfl
    rw [castLane_bits ht ht', if_neg fun h => h.2 rfl, setWidth_ofInt_bool ha.bool one_pos]
  · have ht : ElemType.i8.intWidth? = some 8 := rfl
    have hsigned : InSigned 8 a := by rcases ha.bool with rfl | rfl <;> decide
    rw [castLane_bits ht ht']
    split
    · rename_i hlt
      rw [signExtend_ofInt (by decide) hsigned hlt.1.le]
    · rw [setWidth_ofInt_bool ha.bool (by decide)]
  · have hi1 : t ≠ .i1 := by
      rintro rfl
      cases ht
      exact absurd hw1 (lt_irrefl 1)
    rw [castLane_bits ht ht']
    split
    · rename_i hlt
      rw [signExtend_ofInt (hw1.trans' one_pos) (ha.int hne hw) hlt.1.le]
    · rename_i hge
      rw [setWidth_ofInt_of_le (not_lt.mp fun hlt => hge ⟨hlt, hi1⟩)]

/-- A pattern is that of a truth value when the number is zero or leaves one. -/
theorem ofInt_truth_iff (hw : 0 < w) (a : ℤ) :
    BitVec.ofInt w a = BitVec.ofInt w (truth (a ≠ 0)) ↔ a = 0 ∨ a % 2 ^ w = 1 := by
  have hone : (1 : ℤ) < 2 ^ w := one_lt_pow₀ (by norm_num) hw.ne'
  by_cases h0 : a = 0
  · simp [h0, truth]
  · simp only [truth, ne_eq, h0, not_false_eq_true, if_true, false_or]
    have hnonneg : 0 ≤ a % 2 ^ w := Int.emod_nonneg _ (by positivity)
    rw [← BitVec.toNat_inj, BitVec.toNat_ofInt, BitVec.toNat_ofInt]
    push_cast
    rw [Int.emod_eq_of_lt zero_le_one hone]
    omega

/-- The number that a natural number is rounded to is not negative. -/
theorem floatOfNat?_nonneg {n : ℕ} (h : floatOfNat? t n = some (.finite a)) : 0 ≤ a := by
  unfold floatOfNat? at h
  cases hp : t.precision? with
  | none =>
    rw [hp] at h
    cases h
  | some p =>
    rw [hp] at h
    simp only [Option.map_some, Option.some.injEq] at h
    split at h
    · cases h
    · cases h
      exact Int.natCast_nonneg _

/-- **The conversion to a floating point type reads the pattern without its sign.** -/
theorem castLane_float_iff (hd : HeldIn d t) (hbits : (promotionBits? d).isSome)
    (ha : InRange d a) (ht' : t'.intWidth? = none) (hholds : FloatHolds t' a) :
    castLane t t' a = encodeLane t' a ↔ 0 ≤ a := by
  have hencode : encodeLane t' a = .real (.finite a) := by
    unfold encodeLane
    rw [ht']
  obtain ⟨w, ht, hlt⟩ : ∃ w, t.intWidth? = some w ∧ (0 ≤ a → a < 2 ^ w) := by
    rcases hd.cases hbits with ⟨rfl, htb⟩ | ⟨hne, w, hw, ht, hw1⟩
    · rcases htb with rfl | rfl
      · exact ⟨1, rfl, fun _ => by rcases ha.bool with rfl | rfl <;> decide⟩
      · exact ⟨8, rfl, fun _ => by rcases ha.bool with rfl | rfl <;> decide⟩
    · have hhigh := (ha.int hne hw).2
      have hpow : (2 : ℤ) ^ (w - 1) ≤ 2 ^ w := pow_le_pow_right₀ (by norm_num) (Nat.sub_le w 1)
      exact ⟨w, ht, fun _ => by omega⟩
  have hcast : castLane t t' a =
      .real ((floatOfNat? t' (BitVec.ofInt w a).toNat).getD .infinity) := by
    simp only [castLane, ht, ht']
  rw [hcast, hencode, Lane.real.injEq]
  constructor
  · intro h
    cases hfloat : floatOfNat? t' (BitVec.ofInt w a).toNat with
    | none =>
      rw [hfloat] at h
      cases h
    | some x =>
      rw [hfloat] at h
      cases h
      exact floatOfNat?_nonneg hfloat
  · intro h0
    have hnat : (BitVec.ofInt w a).toNat = a.natAbs := by
      rw [BitVec.toNat_ofInt]
      push_cast
      rw [Int.emod_eq_of_lt h0 (hlt h0)]
      omega
    rw [hnat, hholds, Option.getD_some, Int.natAbs_of_nonneg h0]

/-- The type that a value of the target type is held in. -/
theorem heldIn_target (h : targetDtype? target = some d) : HeldIn d target.toMlir := by
  cases target with
  | torch d' =>
    cases h
    exact .inl rfl
  | mlir t =>
    cases t <;> cases h <;> first | exact .inl rfl | exact .inr ⟨rfl, rfl⟩

/-- **A conversion gives PyTorch's number where the condition holds.** -/
theorem castLane_iff (hd : HeldIn d t) (hbits : (promotionBits? d).isSome) (ha : InRange d a)
    (hd' : targetDtype? target = some d') (hr : convertMeaning d' a = some r) :
    castLane t target.toMlir a = encodeLane target.toMlir r ↔ Converts target a := by
  have hheld := heldIn_target hd'
  cases hbits' : promotionBits? d' with
  | some k =>
    have hsome : (promotionBits? d').isSome := by rw [hbits']; rfl
    rcases hheld.cases hsome with ⟨rfl, ht'⟩ | ⟨hne, w', hw', ht', hw1⟩
    · obtain ⟨w', hw', hpos⟩ : ∃ w', target.toMlir.intWidth? = some w' ∧ 0 < w' := by
        rcases ht' with h | h <;> rw [h]
        · exact ⟨1, rfl, one_pos⟩
        · exact ⟨8, rfl, by decide⟩
      cases hr
      rw [castLane_int hd hbits ha hw', encodeLane_int hw', Lane.bits.injEq, heq_eq_eq,
        and_iff_right rfl, ofInt_truth_iff hpos]
      simp [Converts, hd', hw', promotionBits?]
    · have hwrap : r = a.bmod (2 ^ w') := by
        cases d' <;> first | exact absurd rfl hne | cases hw'
        all_goals
          cases hr
          rfl
      have hconverts : Converts target a := by
        simp [Converts, hd', hne, hw']
      rw [castLane_int hd hbits ha ht', encodeLane_int ht', hwrap, ofInt_bmod]
      exact iff_of_true rfl hconverts
  | none =>
    have hne : d' ≠ .bool := by
      rintro rfl
      cases hbits'
    have hmlir : target.toMlir = d'.toMlir := hheld.resolve_right fun h => hne h.1
    have hfloat : target.toMlir.intWidth? = none ∧ FloatHolds target.toMlir a ∧ r = a := by
      rw [hmlir]
      cases d' <;> first | (cases hbits'; done) | cases hr | skip
      all_goals
        simp only [convertMeaning, promotionBits?] at hr
        split at hr
        · cases hr
          exact ⟨rfl, ‹_›, rfl⟩
        · cases hr
    obtain ⟨hint, hholds, rfl⟩ := hfloat
    rw [castLane_float_iff hd hbits ha hint hholds]
    simp [Converts, hd', hne, hbits']

end

/-! ## Types and ranges of the results -/

section

variable {op : BinaryName} {d d' : TorchDtype} {t t' : ElemType} {target : CastTarget} {w : ℕ}
  {a b r : ℤ}

theorem truth_bool (p : Prop) [Decidable p] : truth p = 0 ∨ truth p = 1 := by
  unfold truth
  split
  · exact .inr rfl
  · exact .inl rfl

theorem inRange_bool (h : a = 0 ∨ a = 1) :
    InRange .bool a := ⟨fun _ => h, fun hne => absurd rfl hne⟩

theorem inRange_int (hd : d ≠ .bool) (hw : promotionBits? d = some w) (h : InSigned w a) :
    InRange d a := by
  refine ⟨fun hbool => absurd hbool hd, fun _ v hv => ?_⟩
  rw [hw] at hv
  cases hv
  exact h

theorem relationMeaning_bool (hr : relationMeaning op a b = some r) : r = 0 ∨ r = 1 := by
  cases op <;> cases hr <;> exact truth_bool _

theorem intMeaning_inSigned (hw : 0 < w) (ha : InSigned w a) (hb : InSigned w b)
    (hop : ¬ IsRelation op) (hr : intMeaning op w a b = some r) : InSigned w r := by
  cases op <;> first | exact absurd (by decide) hop | simp only [intMeaning] at hr
  case add | sub | mul =>
    cases hr
    exact inSigned_bmod w _
  case minimum =>
    cases hr
    rcases min_choice a b with h | h <;> rw [h] <;> assumption
  case maximum =>
    cases hr
    rcases max_choice a b with h | h <;> rw [h] <;> assumption
  case truncdiv | floordiv =>
    split at hr
    · cases hr
    · cases hr
      exact inSigned_bmod w _
  case mod =>
    split at hr
    · cases hr
    · cases hr
      exact inSigned_tmod hw ha hb
  case remainder =>
    split at hr
    · cases hr
    · cases hr
      exact inSigned_fmod hw ha hb
  all_goals
    cases hr
    exact inSigned_toInt _

/-- The result of an operation is a number of its type. -/
theorem binaryMeaning_inRange (hbits : (promotionBits? d).isSome) (ha : InRange d a)
    (hb : InRange d b) (hr : binaryMeaning op d a b = some r) :
    InRange (if IsRelation op then .bool else d) r := by
  by_cases hne : d = .bool
  · subst hne
    rw [ite_self]
    rcases ha.bool with rfl | rfl <;> rcases hb.bool with rfl | rfl <;> cases op <;> cases hr <;>
      decide
  · obtain ⟨w, hw⟩ := Option.isSome_iff_exists.mp hbits
    rw [binaryMeaning_int hne hw] at hr
    split
    · rename_i hop
      refine inRange_bool ?_
      cases op <;> first
        | exact absurd hop (by decide)
        | (cases hr; exact truth_bool _)
    · rename_i hop
      have hpos : 0 < w := by cases d <;> cases hw <;> decide
      exact inRange_int hne hw (intMeaning_inSigned hpos (ha.int hne hw) (hb.int hne hw) hop hr)

theorem isSome_promote (h : (promotionBits? d).isSome) (h' : (promotionBits? d').isSome) :
    (promotionBits? (promote d d')).isSome := by
  unfold promote
  split <;> assumption

/-- The wider one of two holding types holds the promoted type. -/
theorem heldIn_promote (hd : HeldIn d t) (hd' : HeldIn d' t') (h : (promotionBits? d).isSome)
    (h' : (promotionBits? d').isSome) : HeldIn (promote d d') (widerType t t') := by
  rcases hd with rfl | ⟨rfl, rfl⟩ <;> rcases hd' with rfl | ⟨rfl, rfl⟩ <;>
    (try cases d <;> cases h) <;> (try cases d' <;> cases h') <;> decide

theorem promote_inRange (h : (promotionBits? d).isSome) (h' : (promotionBits? d').isSome)
    (ha : InRange d a) : InRange (promote d d') a := by
  unfold promote
  split
  · rename_i hlt
    obtain ⟨w', hw'⟩ := Option.isSome_iff_exists.mp h'
    have hne' : d' ≠ .bool := by
      rintro rfl
      cases d <;> cases h <;> exact absurd hlt (by decide)
    refine inRange_int hne' hw' ?_
    by_cases hne : d = .bool
    · subst hne
      have hw1 : 1 < w' := by
        rw [hw'] at hlt
        exact hlt
      have hpow : (2 : ℤ) ≤ 2 ^ (w' - 1) := by
        calc (2 : ℤ) = 2 ^ 1 := (pow_one 2).symm
          _ ≤ 2 ^ (w' - 1) := pow_le_pow_right₀ (by norm_num) (Nat.le_sub_one_of_lt hw1)
      rcases ha.bool with rfl | rfl
      · exact ⟨by omega, by omega⟩
      · exact ⟨by omega, by omega⟩
    · obtain ⟨w, hw⟩ := Option.isSome_iff_exists.mp h
      rw [hw, hw'] at hlt
      exact (ha.int hne hw).mono hlt.le
  · exact ha

theorem promote_inRange_right (h : (promotionBits? d).isSome) (h' : (promotionBits? d').isSome)
    (ha : InRange d' a) : InRange (promote d d') a := by
  by_cases hlt : (promotionBits? d).getD 0 < (promotionBits? d').getD 0
  · rw [promote, if_pos hlt]
    exact ha
  · have hsame : promote d d' = promote d' d ∨ d = d' := by
      cases d <;> cases h <;> cases d' <;> cases h' <;> revert hlt <;> decide
    rcases hsame with hsame | rfl
    · rw [hsame]
      exact promote_inRange h' h ha
    · exact promote_inRange h h' ha

/-- A converted number is one of the target type. -/
theorem convertMeaning_inRange (hd' : targetDtype? target = some d')
    (hr : convertMeaning d' a = some r) : InRange d' r := by
  by_cases hne : d' = .bool
  · subst hne
    cases hr
    exact inRange_bool (truth_bool _)
  · refine ⟨fun h => absurd h hne, fun _ w hw => ?_⟩
    cases d' <;> first | exact absurd rfl hne | cases hw
    all_goals
      cases hr
      exact inSigned_bmod _ _

end

end PyTorchSim.Analysis
