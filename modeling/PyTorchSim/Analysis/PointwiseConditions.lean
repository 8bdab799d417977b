import PyTorchSim.Analysis.PointwiseNodes

/-!
# Operations on the truth of their operands

A logical operation and the condition of a `where` look at the truth of an operand: an `i1` is taken
as it is, and a number is compared with a zero of its type (`emits_toBool`).  Both are right for
every operand, negative ones too, so that a logical operation is exact without a condition.  A
`where` chooses between operands that are brought together like those of any other operation, and
its line has a value only where its result is a vector.
-/

set_option autoImplicit false

namespace PyTorchSim.Analysis

open PyTorchSim.Frontend PyTorchSim.Frontend.ExtensionOverrides
open PyTorchSim.Library PyTorchSim.Library.Arith

/-! ## The truth of an operand -/

/-- The truth of an operand, lane by lane. -/
def boolOf (u : TorchValue) : TorchValue := ⟨.bool, .i1, u.lanes.map fun a => truth (a ≠ 0)⟩

section

variable {u v r : TorchValue} {st : EmitState} {x y : Var} {t : ElemType} {n w : ℕ}

theorem length_boolOf (u : TorchValue) : (boolOf u).lanes.length = u.lanes.length :=
  List.length_map _

theorem info_boolOf (u : TorchValue) : (boolOf u).info = ⟨u.lanes.length, .i1⟩ := by
  rw [TorchValue.info, length_boolOf]
  rfl

theorem boolOf_fits (hu : ValueFits u) : ValueFits (boolOf u) := by
  refine ⟨.inr ⟨rfl, rfl⟩, fun a ha => ?_, ?_⟩
  · obtain ⟨b, -, rfl⟩ := List.mem_map.mp ha
    exact inRange_bool (truth_bool _)
  · rw [length_boolOf]
    exact hu.nonempty

/-- A number is compared with zero by its pattern. -/
theorem ne_zero_lane (hu : ValueFits u) (hint : IsInteger u) {a : ℤ} (ha : a ∈ u.lanes) :
    IntPredicate.lane .ne (encodeLane u.held a) (encodeLane u.held 0) =
      some (encodeLane .i1 (truth (a ≠ 0))) := by
  have hrange := hu.inRange a ha
  have hzero : InRange u.dtype 0 := by
    by_cases hbool : u.dtype = .bool
    · rw [hbool]
      exact inRange_bool (.inl rfl)
    · refine ⟨fun h => absurd h hbool, fun _ w _ => ?_⟩
      have hpow : (0 : ℤ) < 2 ^ (w - 1) := by positivity
      exact ⟨by omega, hpow⟩
  have hmeaning : binaryMeaning .ne u.dtype a 0 = some (truth (a ≠ 0)) := by
    by_cases hbool : u.dtype = .bool
    · rw [hbool]
      rfl
    · obtain ⟨w, hw⟩ := Option.isSome_iff_exists.mp hint
      rw [binaryMeaning_int hbool hw]
      rfl
  refine (intPredicate_lane_iff (by rfl) hu.heldIn hint hrange hzero hmeaning).mpr ?_
  exact ⟨fun _ => ⟨by simp, by simp⟩, fun _ w _ => intMeets_total (by simp)⟩

theorem ne_zero_lanes (hu : ValueFits u) (hint : IsInteger u) :
    (u.lanes.zip (List.replicate u.lanes.length (0 : ℤ))).mapM
        ((fun l => IntPredicate.lane .ne l.1 l.2) ∘
          Prod.map (encodeLane u.held) (encodeLane u.held)) =
      some ((boolOf u).lanes.map (encodeLane .i1)) := by
  have hmeant : (u.lanes.zip (List.replicate u.lanes.length (0 : ℤ))).mapM
      (fun p => some (truth (p.1 ≠ 0))) = some (boolOf u).lanes := by
    have hfst : (u.lanes.zip (List.replicate u.lanes.length (0 : ℤ))).map Prod.fst = u.lanes :=
      List.map_fst_zip List.length_replicate.ge
    conv_rhs => rw [boolOf, ← hfst, List.map_map]
    exact List.mapM_pure
  refine (mapM_encode_iff (P := fun _ => True) _ ?_ hmeant).mpr fun _ _ => trivial
  intro p hp a ha
  cases ha
  obtain ⟨hleft, hright⟩ := List.of_mem_zip hp
  rw [Function.comp_apply, Prod.map_fst, Prod.map_snd, List.eq_of_mem_replicate hright, iff_true]
  exact ne_zero_lane hu hint hleft

/-- An `i1` is its own truth. -/
theorem encode_boolOf_i1 (hu : ValueFits u) (hint : IsInteger u) (ht : u.held = .i1) :
    (boolOf u).encode = u.encode := by
  have hbool : u.dtype = .bool := by
    rcases hu.heldIn.cases hint with ⟨h, -⟩ | ⟨-, w, -, hw, hw1⟩
    · exact h
    · rw [ht] at hw
      cases hw
      exact absurd hw1 (lt_irrefl 1)
  have hlanes : u.lanes.map (fun a => truth (a ≠ 0)) = u.lanes := by
    refine (List.map_congr_left fun a ha => ?_).trans (List.map_id _)
    have hrange := hu.inRange a ha
    rw [hbool] at hrange
    rcases hrange.bool with rfl | rfl <;> rfl
  rw [TorchValue.encode, info_boolOf, boolOf, hlanes, TorchValue.encode, TorchValue.info, ht]

/-- The zero that an operand is compared with, at the operand's size. -/
theorem emits_constZeroFor (hst : EmitSound st) (ht : t.intWidth? = some w) (hn : 0 < n)
    (inputs : List Value) :
    Emits (constZeroFor ⟨n, t⟩) st fun z st' => VarKnown st' z ⟨n, t⟩ ∧
      value inputs st'.buffer z =
        some ⟨(VarInfo.mk n t).shape, (List.replicate n 0).map (encodeLane t)⟩ := by
  have hconst : Emits (ops (constant 0 t)) st fun z st' => VarKnown st' z ⟨1, t⟩ ∧
      value inputs st'.buffer z = some ⟨⟨[], t⟩, [(0 : ℤ)].map (encodeLane t)⟩ := by
    apply emits_ops
    refine Emits.pure hst ⟨.constant 0 ⟨[], t⟩, rfl, by simp [Op.uses],
      fun z st' hgrows hline => ?_⟩
    refine ⟨varKnown_of_line hline, ?_⟩
    rw [value_of_line hgrows.sound hline, Op.eval, ht]
    simp [encodeLane_int ht]
  unfold constZeroFor
  refine Emits.bind hconst ?_
  rintro z st₁ hgrows ⟨hz, hzval⟩
  split
  · rename_i hn1
    refine Emits.mono (emits_broadcast hgrows.sound hz one_pos hn1 (one_dvd n) inputs) ?_
    intro z' st' _ hcarries
    refine ⟨hcarries.1, ?_⟩
    rw [hcarries.2 [0] rfl hzval]
    simp [repeated]
  · rename_i hn1
    have hone : n = 1 := Nat.le_antisymm (not_lt.mp hn1) hn
    subst hone
    exact Emits.pure hgrows.sound ⟨hz, hzval⟩

/-- **The truth of an operand.** -/
theorem emits_toBool (hst : EmitSound st) (hx : VarKnown st x u.info) (hu : ValueFits u)
    (hint : IsInteger u) (inputs : List Value) :
    Emits (ops (toBool x)) st fun y st' => VarKnown st' y (boolOf u).info ∧
      (value inputs st.buffer x = some u.encode →
        value inputs st'.buffer y = some (boolOf u).encode) := by
  obtain ⟨w, hw⟩ := integer_width hint hu
  apply emits_ops_var
  unfold ExtensionOverrides.toBool
  refine Emits.varInfo_bind hst hx ?_
  split
  · rename_i hi1
    have hheld : u.held = .i1 := hi1
    have hinfo : (boolOf u).info = u.info := by rw [info_boolOf, TorchValue.info, hheld]
    refine Emits.pure hst ⟨x, _, rfl, ?_, ?_, ?_⟩
    · change VarKnown st x ⟨u.lanes.length, .i1⟩
      rw [← info_boolOf, hinfo]
      exact hx
    · rw [hinfo]
      exact hx
    · intro hval
      rw [encode_boolOf_i1 hu hint hheld, hval]
  · refine Emits.bind (emits_constZeroFor hst hw hu.nonempty inputs) ?_
    rintro z st₁ hgrows ⟨hz, hzval⟩
    have hx₁ := hgrows.varKnown hx
    have hdvd : u.lanes.length ∣ max u.lanes.length u.lanes.length := by rw [max_self]
    refine Emits.bind (emits_comparison .one .ne hgrows.sound hx₁ hz hu.nonempty hu.nonempty hdvd
      hdvd hw hw inputs) ?_
    rintro y st₂ hgrows₂ ⟨x', z', hline, hx', hz'⟩
    simp only [max_self] at hline hx' hz'
    have hknown : VarKnown st₂ y (boolOf u).info := by
      rw [info_boolOf]
      exact hline.varKnown hu.nonempty
    refine Emits.pure hgrows₂.sound ⟨y, _, rfl, ?_, hknown, fun hval => ?_⟩
    · change VarKnown st₂ y ⟨u.lanes.length, .i1⟩
      rw [← info_boolOf]
      exact hknown
    · have hwider : widerType u.held u.held = u.held := ite_self _
      rw [hwider, widenedLane_same] at hx' hz'
      have hxval := lanesAt_eq (hx'.2 u.lanes rfl ((hgrows.value hx).trans hval))
      have hzval' := lanesAt_eq (hz'.2 _ List.length_replicate hzval)
      obtain ⟨op, hop, -, -, heval⟩ := hline
      rw [hwider] at heval
      rw [value_of_line hgrows₂.sound hop, heval _ _ _ hxval hzval', TorchValue.encode, info_boolOf]
      simp only [repeated_self hu.nonempty]
      rw [List.zip_map, List.mapM_map, ne_zero_lanes hu hint]
      rfl

end

/-! ## Logical operations -/

/-- The bitwise operation that a logical one applies to the truth of its operands. -/
def bitwiseName? : BinaryName → Option BinaryName
  | .logicalAnd => some .and_
  | .logicalOr => some .or_
  | .logicalXor => some .xor
  | _ => none

section

variable {op op' : BinaryName} {u v r : TorchValue} {st : EmitState} {x y : Var} {d : TorchDtype}
  {a b : ℤ}

theorem repeated_map (f : ℤ → ℤ) (n s : ℕ) (as : List ℤ) :
    repeated n s (as.map f) = (repeated n s as).map f := by
  unfold repeated
  rw [List.map_flatten, List.map_replicate]

/-- A logical operation on numbers is the bitwise one on their truth. -/
theorem logicalMeaning (h : bitwiseName? op = some op') (hd : (promotionBits? d).isSome) :
    binaryMeaning op d a b = binaryMeaning op' .bool (truth (a ≠ 0)) (truth (b ≠ 0)) := by
  have hrelation : binaryMeaning op d a b = relationMeaning op a b := by
    by_cases hbool : d = .bool
    · subst hbool
      cases op <;> cases h <;> rfl
    · obtain ⟨w, hw⟩ := Option.isSome_iff_exists.mp hd
      rw [binaryMeaning_int hbool hw]
      cases op <;> cases h <;> rfl
  rw [hrelation]
  cases op <;> cases h <;> by_cases ha : a = 0 <;> by_cases hb : b = 0 <;>
    simp [relationMeaning, binaryMeaning, boolMeaning, truth, ha, hb]

theorem operandPairs_boolOf (u v : TorchValue) :
    operandPairs (boolOf u) (boolOf v) =
      (operandPairs u v).map (Prod.map (fun a => truth (a ≠ 0)) fun b => truth (b ≠ 0)) := by
  unfold operandPairs
  simp only [length_boolOf]
  rw [← List.zip_map, ← repeated_map, ← repeated_map]
  rfl

theorem BinaryParts.boolOf (h : BinaryParts op u v r) (hop : bitwiseName? op = some op') :
    BinaryParts op' (boolOf u) (boolOf v) r := by
  have hrelation : IsRelation op ∧ ¬ IsRelation op' := by
    cases op <;> cases hop <;> decide
  refine ⟨rfl, rfl, ?_, ?_, ?_, ?_, ?_⟩
  · rw [length_boolOf, length_boolOf]
    exact h.dvdLeft
  · rw [length_boolOf, length_boolOf]
    exact h.dvdRight
  · rw [operandPairs_boolOf, List.mapM_map, ← h.lanes]
    congr 1
    funext p
    exact (logicalMeaning hop (isSome_promote h.left h.right)).symm
  · rw [h.dtype, if_pos hrelation.1, if_neg hrelation.2]
    rfl
  · rw [h.held, if_pos hrelation.1, if_neg hrelation.2]
    rfl

/-- On two truths the bitwise operations have no condition. -/
theorem bitwise_meets (hop : bitwiseName? op = some op') (u v : TorchValue) :
    BinaryMeets op' (boolOf u) (boolOf v) := by
  refine ⟨fun _ => ⟨fun h => absurd h (lt_irrefl _), fun h => absurd h (lt_irrefl _)⟩, ?_⟩
  intro p _
  refine ⟨fun _ => ?_, fun hne => absurd rfl hne⟩
  cases op <;> cases hop <;> exact ⟨by simp, by simp⟩

/-- A logical operation has no condition. -/
theorem logical_meets (hop : bitwiseName? op = some op') (u v : TorchValue) :
    BinaryMeets op u v := by
  have hlogical : IsLogical op := by
    cases op <;> cases hop <;> decide
  refine ⟨fun h => absurd hlogical h, fun p _ => ⟨fun _ => ?_, fun _ w _ => ?_⟩⟩
  · cases op <;> cases hop <;> exact ⟨by simp, by simp⟩
  · cases op <;> cases hop <;> exact intMeets_total (by simp)

theorem emits_asBool (hst : EmitSound st) (hx : VarKnown st x u.info) (hu : ValueFits u)
    (hint : IsInteger u) (inputs : List Value) :
    Emits (asBool x) st fun y st' => VarKnown st' y (boolOf u).info ∧
      (value inputs st.buffer x = some u.encode →
        value inputs st'.buffer y = some (boolOf u).encode) := by
  unfold asBool
  refine Emits.varInfo_bind hst hx ?_
  split
  · exact emits_toBool hst hx hu hint inputs
  · rename_i hi1
    have hheld : u.held = .i1 := not_not.mp hi1
    have hinfo : (Analysis.boolOf u).info = u.info := by
      rw [info_boolOf, TorchValue.info, hheld]
    refine Emits.pure hst ⟨hinfo ▸ hx, fun hval => ?_⟩
    rw [encode_boolOf_i1 hu hint hheld, hval]

/-- **A logical operation.** -/
theorem emits_logical (hop : bitwiseName? op = some op') (hst : EmitSound st)
    (hx : VarKnown st x u.info) (hy : VarKnown st y v.info) (hu : ValueFits u) (hv : ValueFits v)
    (h : BinaryParts op u v r) (inputs : List Value) :
    Emits (ops (logical op'.override x y)) st fun z st' => VarKnown st' z r.info ∧
      (value inputs st.buffer x = some u.encode → value inputs st.buffer y = some v.encode →
        value inputs st'.buffer z = some r.encode) := by
  have hlogical : ¬ IsLogical op' := by
    cases op <;> cases hop <;> decide
  apply emits_ops_var
  unfold logical
  refine Emits.bind (emits_asBool hst hx hu h.left inputs) ?_
  rintro x' st₁ hgrows₁ ⟨hx', hxval⟩
  refine Emits.bind (emits_asBool hgrows₁.sound (hgrows₁.varKnown hy) hv h.right inputs) ?_
  rintro y' st₂ hgrows₂ ⟨hy', hyval⟩
  refine emits_handOn (Emits.mono (emits_binary hgrows₂.sound (hgrows₂.varKnown hx') hy'
    (boolOf_fits hu) (boolOf_fits hv) (h.boolOf hop) hlogical inputs) ?_)
  rintro z st₃ - ⟨hz, hexact⟩
  refine ⟨⟨r.info, hz⟩, hz, fun hvx hvy => ?_⟩
  have hleft : value inputs st₂.buffer x' = some (Analysis.boolOf u).encode :=
    (hgrows₂.value hx').trans (hxval hvx)
  have hright : value inputs st₂.buffer y' = some (Analysis.boolOf v).encode :=
    hyval ((hgrows₁.value hy).trans hvy)
  exact ((hexact hleft hright).mpr (bitwise_meets hop u v)).1

end

/-! ## `where` -/

/-- The size of the operands that a `where` chooses from. -/
def chosenSize (u v : TorchValue) : ℕ := max u.lanes.length v.lanes.length

/-- The size of a `where`. -/
def whereSize (c u v : TorchValue) : ℕ := max (chosenSize u v) c.lanes.length

/-- An operand of a `where`: first at the size of the two, then at that of the result. -/
def chosenOperand (n m : ℕ) (d : TorchDtype) (t : ElemType) (u : TorchValue) : TorchValue :=
  promoteTo n d t (promoteTo m d t u)

/-- The condition and the two operands that a `where` chooses from. -/
def whereOperands (c u v : TorchValue) : List TorchValue :=
  [promoteTo (whereSize c u v) .bool .i1 (boolOf c),
    chosenOperand (whereSize c u v) (chosenSize u v) (promote u.dtype v.dtype)
      (widerType u.held v.held) u,
    chosenOperand (whereSize c u v) (chosenSize u v) (promote u.dtype v.dtype)
      (widerType u.held v.held) v]

/-- The condition of a `where`: the narrower operand is not negative, and the result is a vector. -/
def WhereMeets (c u v : TorchValue) : Prop := Widens u v ∧ Widens v u ∧ 1 < whereSize c u v

instance (c u v : TorchValue) : Decidable (WhereMeets c u v) :=
  inferInstanceAs (Decidable (_ ∧ _))

/-- What is said by a value of a `where`. -/
structure WhereParts (c u v r : TorchValue) : Prop where
  condition : IsInteger c
  left : IsInteger u
  right : IsInteger v
  dvdCondition : c.lanes.length ∣ whereSize c u v
  dvdLeft : u.lanes.length ∣ chosenSize u v
  dvdRight : v.lanes.length ∣ chosenSize u v
  dvdChosen : chosenSize u v ∣ whereSize c u v
  lanes : r.lanes =
    ((repeated (whereSize c u v) c.lanes.length c.lanes).zip
      ((repeated (whereSize c u v) (chosenSize u v)
          (repeated (chosenSize u v) u.lanes.length u.lanes)).zip
        (repeated (whereSize c u v) (chosenSize u v)
          (repeated (chosenSize u v) v.lanes.length v.lanes)))).map
      fun p => if p.1 = 0 then p.2.2 else p.2.1
  dtype : r.dtype = promote u.dtype v.dtype
  held : r.held = widerType u.held v.held

section

variable {c u v r : TorchValue} {st st' : EmitState} {z x y z' x' y' : Var} {inputs : List Value}
  {n m s : ℕ} {t : ElemType} {d : TorchDtype}

/-- An operand at two sizes, one after the other. -/
theorem broadcastLanes_twice {us : List ℤ}
    (h : (broadcastLanes m u.lanes).bind (broadcastLanes n) = some us) :
    u.lanes.length ∣ m ∧ m ∣ n ∧ us = repeated n m (repeated m u.lanes.length u.lanes) := by
  obtain ⟨as, has, hus⟩ := Option.bind_eq_some_iff.mp h
  obtain ⟨hdvd, rfl⟩ := broadcastLanes_eq_some has
  have hlength : (repeated m u.lanes.length u.lanes).length = m := length_repeated rfl hdvd
  unfold broadcastLanes at hus
  rw [hlength] at hus
  split at hus
  · exact ⟨hdvd, ‹_›, (Option.some.inj hus).symm⟩
  · cases hus

theorem whereParts (h : whereValue c u v = some r) : WhereParts c u v r := by
  unfold whereValue at h
  split at h
  · rename_i hint
    simp only [Option.bind_eq_bind, Option.bind_eq_some_iff] at h
    obtain ⟨cs, hcs, us, hus, vs, hvs, hr⟩ := h
    obtain ⟨hdvdc, rfl⟩ := broadcastLanes_eq_some hcs
    obtain ⟨hdvdu, hdvd, rfl⟩ := broadcastLanes_twice (Option.bind_eq_some_iff.mpr hus)
    obtain ⟨hdvdv, -, rfl⟩ := broadcastLanes_twice (Option.bind_eq_some_iff.mpr hvs)
    cases hr
    exact ⟨hint.1, hint.2.1, hint.2.2, hdvdc, hdvdu, hdvdv, hdvd, rfl, rfl, rfl⟩
  · cases h

theorem WhereParts.length (h : WhereParts c u v r) : r.lanes.length = whereSize c u v := by
  have htwice (w : TorchValue) (hw : w.lanes.length ∣ chosenSize u v) :
      (repeated (whereSize c u v) (chosenSize u v)
        (repeated (chosenSize u v) w.lanes.length w.lanes)).length = whereSize c u v :=
    length_repeated (length_repeated rfl hw) h.dvdChosen
  rw [h.lanes, List.length_map, List.length_zip, List.length_zip,
    length_repeated rfl h.dvdCondition,
    htwice u h.dvdLeft, htwice v h.dvdRight, min_self, min_self]

theorem mem_chosen {a : ℤ} (hn : 0 < n) (hm : u.lanes.length ∣ m) (hdvd : m ∣ n) :
    a ∈ repeated n m (repeated m u.lanes.length u.lanes) ↔ a ∈ u.lanes := by
  have hpos : 0 < m := Nat.pos_of_dvd_of_pos hdvd hn
  have hlength : (repeated m u.lanes.length u.lanes).length = m := length_repeated rfl hm
  have hmem := mem_repeated (u := promoteTo m u.dtype u.held u) (a := a) hn (by
    rw [promoteTo, hlength]
    exact hdvd)
  rw [promoteTo, hlength] at hmem
  rw [hmem, mem_repeated hpos hm]

/-- The value of a `where` is in range of the promoted type. -/
theorem whereValue_fits (hc : ValueFits c) (hu : ValueFits u) (hv : ValueFits v)
    (h : WhereParts c u v r) : ValueFits r := by
  have hn : 0 < whereSize c u v := hc.nonempty.trans_le (le_max_right _ _)
  refine ⟨?_, fun a ha => ?_, ?_⟩
  · rw [h.dtype, h.held]
    exact heldIn_promote hu.heldIn hv.heldIn h.left h.right
  · rw [h.lanes] at ha
    obtain ⟨p, hp, rfl⟩ := List.mem_map.mp ha
    obtain ⟨hleft, hright⟩ := List.of_mem_zip (List.of_mem_zip hp).2
    rw [h.dtype]
    split
    · exact promote_inRange_right h.left h.right
        (hv.inRange _ ((mem_chosen hn h.dvdRight h.dvdChosen).mp hright))
    · exact promote_inRange h.left h.right
        (hu.inRange _ ((mem_chosen hn h.dvdLeft h.dvdChosen).mp hleft))
  · rw [h.length]
    exact hn

/-- **The condition and the operands at one size.** -/
theorem emits_matchCondition (hst : EmitSound st) (hz : VarKnown st z ⟨s, .i1⟩)
    (hx : VarKnown st x ⟨m, t⟩) (hy : VarKnown st y ⟨m, t⟩) (hs : 0 < s) (hm : 0 < m)
    (hdvds : s ∣ max m s) (hdvdm : m ∣ max m s) (inputs : List Value) :
    Emits (matchCondition s m z x y) st fun p st' =>
      (Carries inputs st z ⟨s, .i1⟩ st' p.1 ⟨max m s, .i1⟩
        fun as => (repeated (max m s) s as).map (encodeLane .i1)) ∧
      (Carries inputs st x ⟨m, t⟩ st' p.2.1 ⟨max m s, t⟩
        fun as => (repeated (max m s) m as).map (encodeLane t)) ∧
      Carries inputs st y ⟨m, t⟩ st' p.2.2 ⟨max m s, t⟩
        fun as => (repeated (max m s) m as).map (encodeLane t) := by
  unfold matchCondition
  rcases Nat.lt_trichotomy s m with hlt | heq | hgt
  · rw [max_eq_left hlt.le] at hdvds ⊢
    rw [if_pos hlt]
    refine Emits.bind (emits_broadcast hst hz hs hlt hdvds inputs) ?_
    intro z' st₁ hgrows hcarries
    exact Emits.pure hgrows.sound
      ⟨hcarries, Carries.whole hgrows hx hm, Carries.whole hgrows hy hm⟩
  · subst heq
    simp only [gt_iff_lt, lt_irrefl, if_false, max_self]
    exact Emits.pure hst ⟨Carries.whole (.refl hst) hz hs, Carries.whole (.refl hst) hx hs,
      Carries.whole (.refl hst) hy hs⟩
  · rw [max_eq_right hgt.le] at hdvdm ⊢
    rw [if_neg hgt.asymm, if_pos hgt]
    refine Emits.bind (emits_broadcast hst hx hm hgt hdvdm inputs) ?_
    intro x' st₁ hgrows₁ hx'
    refine Emits.bind (emits_broadcast hgrows₁.sound (hgrows₁.varKnown hy) hm hgt hdvdm inputs) ?_
    intro y' st₂ hgrows₂ hy'
    exact Emits.pure hgrows₂.sound ⟨Carries.whole (hgrows₁.trans hgrows₂) hz hs,
      hx'.grows hgrows₂, Carries.of_grows hgrows₁ hy hy'⟩

/-- A lane that is filled up with zeros is a number of the wider type. -/
theorem exists_widened {t t' : ElemType} {w w' : ℕ} (ht : t.intWidth? = some w)
    (ht' : t'.intWidth? = some w') (h : w < w' ∨ t = t') :
    ∃ g : ℤ → ℤ, ∀ a, widenedLane t t' a = encodeLane t' (g a) := by
  rcases h with hlt | rfl
  · refine ⟨fun a => ((BitVec.ofInt w a).setWidth w').toInt, fun a => ?_⟩
    rw [encodeLane_int ht', BitVec.ofInt_toInt]
    simp only [widenedLane, ht, ht', hlt, if_true]
  · exact ⟨id, fun a => congrFun (widenedLane_same t) a⟩

/-- An operand of a `where`, brought to the common type and then to the size of the result. -/
theorem Carries.chosen {t₀ : ElemType} {s₀ w w' : ℕ} {st₁ st₂ : EmitState} {x₁ x₂ : Var}
    (h : Carries inputs st x ⟨s₀, t₀⟩ st₁ x₁ ⟨m, t⟩
      fun as => (repeated m s₀ as).map (widenedLane t₀ t))
    (h' : Carries inputs st₁ x₁ ⟨m, t⟩ st₂ x₂ ⟨n, t⟩
      fun as => (repeated n m as).map (encodeLane t))
    (ht₀ : t₀.intWidth? = some w) (ht : t.intWidth? = some w') (hwider : w < w' ∨ t₀ = t)
    (hdvd : s₀ ∣ m) :
    Carries inputs st x ⟨s₀, t₀⟩ st₂ x₂ ⟨n, t⟩
      fun as => (repeated n m (repeated m s₀ as)).map (widenedLane t₀ t) := by
  obtain ⟨g, hg⟩ := exists_widened ht₀ ht hwider
  have hlanes : widenedLane t₀ t = encodeLane t ∘ g := funext hg
  rw [hlanes] at h ⊢
  refine ⟨h'.1, fun as has hval => ?_⟩
  have hfirst := h.2 as has hval
  simp only [← List.map_map] at hfirst
  have hlength : ((repeated m s₀ as).map g).length = m := by
    rw [List.length_map, length_repeated has hdvd]
  rw [h'.2 _ hlength hfirst]
  simp only [repeated_map, List.map_map]

theorem selectLane_truth (a : ℤ) (l l' : Lane) :
    selectLane (encodeLane .i1 (truth (a ≠ 0))) l l' = some (if a = 0 then l' else l) := by
  by_cases ha : a = 0
  · rw [if_pos ha, truth, if_neg (not_not.mpr ha)]
    rfl
  · rw [if_neg ha, truth, if_pos ha]
    rfl

/-- The lanes chosen, as lanes of the common type. -/
theorem select_lanes (h : WhereParts c u v r) :
    (((repeated (whereSize c u v) c.lanes.length (boolOf c).lanes).map (encodeLane .i1)).zip
        (((repeated (whereSize c u v) (chosenSize u v)
            (repeated (chosenSize u v) u.lanes.length u.lanes)).map (encodeLane r.held)).zip
          ((repeated (whereSize c u v) (chosenSize u v)
            (repeated (chosenSize u v) v.lanes.length v.lanes)).map
              (encodeLane r.held)))).mapM (fun l => selectLane l.1 l.2.1 l.2.2) =
      some (r.lanes.map (encodeLane r.held)) := by
  rw [boolOf, repeated_map, List.map_map, List.zip_map, List.zip_map, List.mapM_map, h.lanes,
    List.map_map]
  have hchosen (p : ℤ × ℤ × ℤ) :
      ((fun l : Lane × Lane × Lane => selectLane l.1 l.2.1 l.2.2) ∘
        Prod.map (encodeLane .i1 ∘ fun a => truth (a ≠ 0))
          (Prod.map (encodeLane r.held) (encodeLane r.held))) p =
      pure ((encodeLane r.held ∘ fun p => if p.1 = 0 then p.2.2 else p.2.1) p) := by
    simp only [Function.comp_apply, Prod.map_fst, Prod.map_snd, selectLane_truth]
    split <;> rfl
  rw [funext hchosen, List.mapM_pure]
  rfl

theorem encode_chosen {w : TorchValue} (hm : w.lanes.length ∣ m) (hdvd : m ∣ n) :
    (chosenOperand n m d t w).encode = ⟨(VarInfo.mk n t).shape,
      (repeated n m (repeated m w.lanes.length w.lanes)).map (encodeLane t)⟩ := by
  have hlength : (promoteTo m d t w).lanes.length = m := length_repeated rfl hm
  rw [chosenOperand, encode_promoteTo (hlength.symm ▸ hdvd), hlength]
  rfl

/-- **A `where` is exact exactly when its condition is met.** -/
theorem whereExact_iff (hu : ValueFits u) (hv : ValueFits v) (h : WhereParts c u v r)
    (hst' : EmitSound st') {w : Var}
    (hline : st'.buffer[w]? = some (.select z' x' y'
      (if whereSize c u v > 1 then some ⟨[whereSize c u v], .i1⟩ else none)
      (VarInfo.mk (whereSize c u v) r.held).shape))
    (hz : value inputs st'.buffer z' = some ⟨(VarInfo.mk (whereSize c u v) .i1).shape,
      (repeated (whereSize c u v) c.lanes.length (boolOf c).lanes).map (encodeLane .i1)⟩)
    (hx : value inputs st'.buffer x' = some ⟨(VarInfo.mk (whereSize c u v) r.held).shape,
      (repeated (whereSize c u v) (chosenSize u v)
        (repeated (chosenSize u v) u.lanes.length u.lanes)).map (widenedLane u.held r.held)⟩)
    (hy : value inputs st'.buffer y' = some ⟨(VarInfo.mk (whereSize c u v) r.held).shape,
      (repeated (whereSize c u v) (chosenSize u v)
        (repeated (chosenSize u v) v.lanes.length v.lanes)).map (widenedLane v.held r.held)⟩)
    (hn : 0 < whereSize c u v) :
    LineExact inputs st' w (whereOperands c u v) r ↔ WhereMeets c u v := by
  have hleft : value inputs st'.buffer x' = some (chosenOperand (whereSize c u v) (chosenSize u v)
      (promote u.dtype v.dtype) (widerType u.held v.held) u).encode ↔ Widens u v := by
    rw [h.held] at hx
    rw [← promoted_left_iff (d := promote u.dtype v.dtype) hu hv h.left h.right
      (length_repeated (length_repeated rfl h.dvdLeft) h.dvdChosen)
      (fun a => mem_chosen hn h.dvdLeft h.dvdChosen) hx, encode_chosen h.dvdLeft h.dvdChosen,
      TorchValue.encode, TorchValue.info, length_repeated
        (length_repeated rfl h.dvdLeft) h.dvdChosen]
  have hright : value inputs st'.buffer y' = some (chosenOperand (whereSize c u v) (chosenSize u v)
      (promote u.dtype v.dtype) (widerType u.held v.held) v).encode ↔ Widens v u := by
    rw [h.held] at hy
    rw [← promoted_right_iff (d := promote u.dtype v.dtype) hu hv h.left h.right
      (length_repeated (length_repeated rfl h.dvdRight) h.dvdChosen)
      (fun a => mem_chosen hn h.dvdRight h.dvdChosen) hy, encode_chosen h.dvdRight h.dvdChosen,
      TorchValue.encode, TorchValue.info, length_repeated
        (length_repeated rfl h.dvdRight) h.dvdChosen]
  have hcond : (promoteTo (whereSize c u v) .bool .i1 (boolOf c)).encode =
      ⟨(VarInfo.mk (whereSize c u v) .i1).shape,
        (repeated (whereSize c u v) c.lanes.length (boolOf c).lanes).map (encodeLane .i1)⟩ := by
    rw [encode_promoteTo (by rw [length_boolOf]; exact h.dvdCondition), length_boolOf]
  have hresult : r.encode =
      ⟨(VarInfo.mk (whereSize c u v) r.held).shape, r.lanes.map (encodeLane r.held)⟩ := by
    rw [TorchValue.encode, TorchValue.info, h.length]
  constructor
  · rintro ⟨hval, op, hop, hoperands⟩
    rw [hline] at hop
    cases hop
    simp only [Op.uses, whereOperands, List.map_cons, List.map_nil, List.cons.injEq, and_true]
      at hoperands
    refine ⟨hleft.mp hoperands.2.1, hright.mp hoperands.2.2, ?_⟩
    by_contra hle
    rw [value_of_line hst' hline, if_neg hle] at hval
    cases hval
  · rintro ⟨hxe, hye, hvector⟩
    have hxval := hleft.mpr hxe
    have hyval := hright.mpr hye
    refine ⟨?_, _, hline, ?_⟩
    · rw [encode_chosen h.dvdLeft h.dvdChosen, ← h.held] at hxval
      rw [encode_chosen h.dvdRight h.dvdChosen, ← h.held] at hyval
      rw [value_of_line hst' hline, if_pos hvector, Op.eval, if_pos, ← shape_of_one_lt hvector,
        lanesAt_eq hz, lanesAt_eq hxval, lanesAt_eq hyval, hresult]
      · simp only [Option.bind_some, select_lanes h, Option.map_some]
      · rw [shape_of_one_lt hvector]
    · simp only [Op.uses, whereOperands, List.map_cons, List.map_nil, hz, hcond, hxval, hyval]

/-- **A `where`.** -/
theorem emits_where (hst : EmitSound st) (hz : VarKnown st z c.info) (hx : VarKnown st x u.info)
    (hy : VarKnown st y v.info) (hc : ValueFits c) (hu : ValueFits u) (hv : ValueFits v)
    (h : WhereParts c u v r) (inputs : List Value) :
    Emits (ops (whereOp z x y)) st fun w st' => VarKnown st' w r.info ∧
      (value inputs st.buffer z = some c.encode → value inputs st.buffer x = some u.encode →
        value inputs st.buffer y = some v.encode →
        (LineExact inputs st' w (whereOperands c u v) r ↔ WhereMeets c u v)) := by
  have hm : 0 < chosenSize u v := hu.nonempty.trans_le (le_max_left _ _)
  have hn : 0 < whereSize c u v := hm.trans_le (le_max_left _ _)
  obtain ⟨wu, hwu⟩ := integer_width h.left hu
  obtain ⟨wv, hwv⟩ := integer_width h.right hv
  have hwider := widerType_int hwu hwv
  have hinfo : infoOf (VarInfo.mk (whereSize c u v) (widerType u.held v.held)).shape =
      ⟨whereSize c u v, widerType u.held v.held⟩ := infoOf_shape hn
  apply emits_ops
  unfold whereOp
  refine Emits.bind (emits_common hst hx hy hu.nonempty hv.nonempty h.dvdLeft h.dvdRight hwu hwv
    inputs) ?_
  rintro ⟨info, x₁, y₁⟩ st₁ hgrows₁ ⟨hcommon, hx₁, hy₁⟩
  simp only at hcommon hx₁ hy₁ ⊢
  subst hcommon
  refine Emits.varInfo_bind hgrows₁.sound (hgrows₁.varKnown hz) ?_
  refine Emits.bind (emits_toBool hgrows₁.sound (hgrows₁.varKnown hz) hc h.condition inputs) ?_
  rintro z₂ st₂ hgrows₂ ⟨hz₂, hzval⟩
  rw [info_boolOf] at hz₂
  refine Emits.bind (emits_matchCondition hgrows₂.sound hz₂ (hgrows₂.varKnown hx₁.1)
    (hgrows₂.varKnown hy₁.1) hc.nonempty hm h.dvdCondition h.dvdChosen inputs) ?_
  rintro ⟨z₃, x₃, y₃⟩ st₃ hgrows₃ ⟨hz₃, hx₃, hy₃⟩
  simp only at hz₃ hx₃ hy₃ ⊢
  refine Emits.varInfo_bind hgrows₃.sound hx₃.1 (Emits.pure hgrows₃.sound ?_)
  refine ⟨.select z₃ x₃ y₃
    (if whereSize c u v > 1 then some ⟨[whereSize c u v], .i1⟩ else none)
    (VarInfo.mk (whereSize c u v) (widerType u.held v.held)).shape, ?_, ?_, ?_⟩
  · rw [Op.type, hinfo]
    rfl
  · simpa [Op.uses] using ⟨hz₃.1.lt, hx₃.1.lt, hy₃.1.lt⟩
  · intro w st' hgrows hline
    have hresult : r.info = ⟨whereSize c u v, widerType u.held v.held⟩ := by
      rw [TorchValue.info, h.length, h.held]
    refine ⟨?_, fun hvz hvx hvy => ?_⟩
    · have hknown := varKnown_of_line hline
      rw [Op.type, hinfo] at hknown
      rw [hresult]
      exact hknown
    · have hcond := (hz₃.grows hgrows).2 (boolOf c).lanes (length_boolOf c) (by
        rw [hzval ((hgrows₁.value hz).trans hvz), TorchValue.encode, info_boolOf]
        rfl)
      have hleft := ((Carries.chosen (hx₁.grows hgrows₂) hx₃ hwu hwider (wider_left hwu hwv)
        h.dvdLeft).grows hgrows).2 u.lanes rfl hvx
      have hright := ((Carries.chosen (hy₁.grows hgrows₂) hy₃ hwv hwider (wider_right hwu hwv)
        h.dvdRight).grows hgrows).2 v.lanes rfl hvy
      rw [← h.held] at hleft hright hline
      exact whereExact_iff hu hv h hgrows.sound hline hcond hleft hright hn

end

end PyTorchSim.Analysis
