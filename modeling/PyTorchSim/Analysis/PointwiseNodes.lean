import PyTorchSim.Analysis.PointwiseLanes

/-!
# The operations of an expression

An operation is exact when its variable holds PyTorch's value, and the variables that its line names
hold the promoted operands (`LineExact`).  For operands whose variables hold what they should, each
override is exact under a condition on the operands' values alone: for an operation of two operands
that the narrower one is not negative, and that the lanes meet the operation's own condition
(`BinaryMeets`).
-/

set_option autoImplicit false

namespace PyTorchSim.Analysis

open PyTorchSim.Frontend PyTorchSim.Frontend.ExtensionOverrides
open PyTorchSim.Library PyTorchSim.Library.Arith

/-! ## Exact operations -/

/-- An operand at the common size and type. -/
def promoteTo (n : ℕ) (d : TorchDtype) (t : ElemType) (u : TorchValue) : TorchValue :=
  ⟨d, t, repeated n u.lanes.length u.lanes⟩

/-- The two operands of an operation at the size `n` and their promoted type. -/
def promotedPair (n : ℕ) (u v : TorchValue) : List TorchValue :=
  [promoteTo n (promote u.dtype v.dtype) (widerType u.held v.held) u,
    promoteTo n (promote u.dtype v.dtype) (widerType u.held v.held) v]

/-- The variable holds the value, and the operation of its line is given the operands. -/
def LineExact (inputs : List Value) (st : EmitState) (x : Var) (operands : List TorchValue)
    (v : TorchValue) : Prop :=
  value inputs st.buffer x = some v.encode ∧ ∃ op, st.buffer[x]? = some op ∧
    op.uses.map (value inputs st.buffer) = operands.map fun u => some u.encode

/-- The narrower one of two operands is not negative. -/
def Widens (u v : TorchValue) : Prop :=
  mlirToBit u.held < mlirToBit v.held → ∀ a ∈ u.lanes, 0 ≤ a

/-- The lanes that an operation brings together. -/
def operandPairs (u v : TorchValue) : List (ℤ × ℤ) :=
  let n := max u.lanes.length v.lanes.length
  (repeated n u.lanes.length u.lanes).zip (repeated n v.lanes.length v.lanes)

/-- The condition of an operation of two operands. -/
def BinaryMeets (op : BinaryName) (u v : TorchValue) : Prop :=
  (¬ IsLogical op → Widens u v ∧ Widens v u) ∧
    ∀ p ∈ operandPairs u v,
      LaneMeets op (promote u.dtype v.dtype) (widerType u.held v.held) p.1 p.2

instance (u v : TorchValue) : Decidable (Widens u v) := inferInstanceAs (Decidable (_ → _))
instance (op : BinaryName) (u v : TorchValue) : Decidable (BinaryMeets op u v) :=
  inferInstanceAs (Decidable (_ ∧ _))

/-- A value of a boolean or number type, in a type that holds it. -/
structure ValueFits (v : TorchValue) : Prop where
  heldIn : HeldIn v.dtype v.held
  inRange : ∀ a ∈ v.lanes, InRange v.dtype a
  nonempty : 0 < v.lanes.length

/-! ## Lanes -/

section

variable {u v r : TorchValue} {n m : ℕ} {us : List ℤ} {d : TorchDtype} {t : ElemType}

theorem broadcastLanes_eq_some (h : broadcastLanes n u.lanes = some us) :
    u.lanes.length ∣ n ∧ us = repeated n u.lanes.length u.lanes := by
  unfold broadcastLanes at h
  split at h
  · exact ⟨‹_›, (Option.some.inj h).symm⟩
  · cases h

theorem mem_repeated {a : ℤ} (hn : 0 < n) (hdvd : u.lanes.length ∣ n) :
    a ∈ repeated n u.lanes.length u.lanes ↔ a ∈ u.lanes := by
  have hpos : n / u.lanes.length ≠ 0 := by
    obtain ⟨k, rfl⟩ := hdvd
    have hlength : 0 < u.lanes.length := Nat.pos_of_mul_pos_right hn
    rw [Nat.mul_div_cancel_left k hlength]
    rintro rfl
    exact absurd hn (lt_irrefl 0)
  unfold repeated
  simp [List.mem_replicate, hpos]

/-- Lanes with one result each, compared with the numbers meant. -/
theorem mapM_encode_iff {γ : Type} {f : γ → Option Lane} {g : γ → Option ℤ} {e : ℤ → Lane}
    {P : γ → Prop} (l : List γ)
    (h : ∀ c ∈ l, ∀ a, g c = some a → (f c = some (e a) ↔ P c)) {as : List ℤ}
    (hg : l.mapM g = some as) : l.mapM f = some (as.map e) ↔ ∀ c ∈ l, P c := by
  induction l generalizing as with
  | nil =>
    cases hg
    simp
  | cons c l ih =>
    rw [List.mapM_cons] at hg
    cases hc : g c with
    | none =>
      rw [hc] at hg
      cases hg
    | some a =>
      cases hl : l.mapM g with
      | none =>
        rw [hc, hl] at hg
        cases hg
      | some as' =>
        rw [hc, hl] at hg
        cases hg
        have hhead := h c List.mem_cons_self a hc
        have htail := ih (fun c' hc' => h c' (List.mem_cons_of_mem c hc')) hl
        rw [List.mapM_cons, List.forall_mem_cons, ← hhead, ← htail, List.map_cons]
        cases f c <;> cases l.mapM f <;> simp

/-- The numbers meant, one for each of the lanes. -/
theorem length_mapM {γ δ : Type} {g : γ → Option δ} {l : List γ} {as : List δ}
    (hg : l.mapM g = some as) : as.length = l.length := by
  induction l generalizing as with
  | nil => cases hg; rfl
  | cons c l ih =>
    rw [List.mapM_cons] at hg
    cases hc : g c with
    | none => rw [hc] at hg; cases hg
    | some a =>
      cases hl : l.mapM g with
      | none => rw [hc, hl] at hg; cases hg
      | some as' =>
        rw [hc, hl] at hg
        cases hg
        rw [List.length_cons, List.length_cons, ih hl]

/-- What holds of the number meant for each lane holds of all the numbers. -/
theorem forall_mem_mapM {γ δ : Type} {g : γ → Option δ} {P : δ → Prop} {l : List γ}
    (h : ∀ c ∈ l, ∀ a, g c = some a → P a) {as : List δ} (hg : l.mapM g = some as) :
    ∀ a ∈ as, P a := by
  induction l generalizing as with
  | nil => cases hg; simp
  | cons c l ih =>
    rw [List.mapM_cons] at hg
    cases hc : g c with
    | none => rw [hc] at hg; cases hg
    | some a =>
      cases hl : l.mapM g with
      | none => rw [hc, hl] at hg; cases hg
      | some as' =>
        rw [hc, hl] at hg
        cases hg
        rw [List.forall_mem_cons]
        exact ⟨h c List.mem_cons_self a hc,
          ih (fun c' hc' => h c' (List.mem_cons_of_mem c hc')) hl⟩

end

/-! ## Promoted operands -/

section

variable {st st' : EmitState} {x x' : Var} {u v : TorchValue} {n : ℕ} {inputs : List Value}
  {t : ElemType} {d : TorchDtype}

theorem integer_width (h : IsInteger u) (hfits : ValueFits u) :
    ∃ w, u.held.intWidth? = some w := by
  rcases hfits.heldIn.cases h with ⟨-, ht⟩ | ⟨-, w, -, ht, -⟩
  · rcases ht with ht | ht <;> rw [ht]
    · exact ⟨1, rfl⟩
    · exact ⟨8, rfl⟩
  · exact ⟨w, ht⟩

/-- **Widened lanes are the ones meant exactly when a narrower operand is not negative.** -/
theorem widened_value_iff {bs : List ℤ} {w w' : ℕ} (hfits : ValueFits u) (hint : IsInteger u)
    (hlength : bs.length = n) (hmem : ∀ a, a ∈ bs ↔ a ∈ u.lanes)
    (hw : u.held.intWidth? = some w) (hw' : t.intWidth? = some w') (ht : w < w' ∨ u.held = t)
    (hval : value inputs st.buffer x =
      some ⟨(VarInfo.mk n t).shape, bs.map (widenedLane u.held t)⟩) :
    value inputs st.buffer x = some (TorchValue.mk d t bs).encode ↔
      (w < w' → ∀ a ∈ u.lanes, 0 ≤ a) := by
  have hinfo : (TorchValue.mk d t bs).info = ⟨n, t⟩ := by
    unfold TorchValue.info
    rw [hlength]
  rw [hval, TorchValue.encode, hinfo, Option.some.injEq, Value.mk.injEq, and_iff_right rfl,
    List.map_inj_left]
  constructor
  · intro hmap hlt a ha
    have hlane := hmap a ((hmem a).mpr ha)
    exact (widenedLane_iff hfits.heldIn hint (hfits.inRange a ha) hw hw' ht).mp hlane hlt
  · intro hpos a ha
    have hrange := hfits.inRange a ((hmem a).mp ha)
    refine (widenedLane_iff hfits.heldIn hint hrange hw hw' ht).mpr ?_
    exact fun hlt => hpos hlt a ((hmem a).mp ha)

end

/-! ## Lines of two operands -/

/-- The line works lane by lane on two operands of a type. -/
def LaneLine (inputs : List Value) (st : EmitState) (z x y : Var) (type result : VecType)
    (lane : Lane → Lane → Option Lane) : Prop :=
  ∃ op, st.buffer[z]? = some op ∧ op.uses = [x, y] ∧ op.type = result ∧
    ∀ env ls ms, lanesAt env x type = some ls → lanesAt env y type = some ms →
      op.eval inputs env = ((ls.zip ms).mapM fun l => lane l.1 l.2).map (⟨result, ·⟩)

/-- The result is a line over two operands that are brought to the common size and type. -/
def EmitsLine (inputs : List Value) (m : Emit Var) (st : EmitState) (x y : Var)
    (infoX infoY : VarInfo) (result : ElemType) (lane : Lane → Lane → Option Lane) : Prop :=
  Emits m st fun z st' => ∃ x' y',
    LaneLine inputs st' z x' y'
      (VarInfo.mk (max infoX.tileSize infoY.tileSize) (widerType infoX.dtype infoY.dtype)).shape
      (VarInfo.mk (max infoX.tileSize infoY.tileSize) result).shape lane ∧
    (Carries inputs st x infoX st' x'
      ⟨max infoX.tileSize infoY.tileSize, widerType infoX.dtype infoY.dtype⟩ fun as =>
        (repeated (max infoX.tileSize infoY.tileSize) infoX.tileSize as).map
          (widenedLane infoX.dtype (widerType infoX.dtype infoY.dtype))) ∧
    Carries inputs st y infoY st' y'
      ⟨max infoX.tileSize infoY.tileSize, widerType infoX.dtype infoY.dtype⟩ fun as =>
        (repeated (max infoX.tileSize infoY.tileSize) infoY.tileSize as).map
          (widenedLane infoY.dtype (widerType infoX.dtype infoY.dtype))

section

variable {st : EmitState} {x y : Var} {t t' : ElemType} {s s' w w' : ℕ}

theorem shape_with_elem (n : ℕ) (t t' : ElemType) :
    (⟨(VarInfo.mk n t).shape.dims, t'⟩ : VecType) = (VarInfo.mk n t').shape := by
  unfold VarInfo.shape
  split <;> rfl

theorem widerType_int (ht : t.intWidth? = some w) (ht' : t'.intWidth? = some w') :
    (widerType t t').intWidth? = some (max w w') := by
  unfold widerType
  rw [mlirToBit_of_int ht, mlirToBit_of_int ht']
  split
  · rename_i h
    rw [ht', max_eq_right h.le]
  · rename_i h
    rw [ht, max_eq_left (not_lt.mp h)]

/-- The first of two types is filled up, or it is the wider one. -/
theorem wider_left (ht : t.intWidth? = some w) (ht' : t'.intWidth? = some w') :
    w < max w w' ∨ t = widerType t t' := by
  unfold widerType
  rw [mlirToBit_of_int ht, mlirToBit_of_int ht']
  split
  · exact .inl (lt_max_of_lt_right ‹_›)
  · exact .inr rfl

/-- The second of two types is filled up, or it is the wider one. -/
theorem wider_right (ht : t.intWidth? = some w) (ht' : t'.intWidth? = some w') :
    w' < max w w' ∨ t' = widerType t t' := by
  unfold widerType
  rw [mlirToBit_of_int ht, mlirToBit_of_int ht']
  split
  · exact .inr rfl
  · rename_i hge
    rcases (not_lt.mp hge).lt_or_eq with hlt | heq
    · exact .inl (lt_max_of_lt_left hlt)
    · exact .inr (intType_inj ht' (heq ▸ ht))

theorem emits_binaryElementwise {opcode : ElemType → Except OpError BinaryOp} {o : IntOp}
    (hop : opcode (widerType t t') = .ok (.int o)) (hst : EmitSound st)
    (hx : VarKnown st x ⟨s, t⟩) (hy : VarKnown st y ⟨s', t'⟩) (hs : 0 < s) (hs' : 0 < s')
    (hdvd : s ∣ max s s') (hdvd' : s' ∣ max s s') (ht : t.intWidth? = some w)
    (ht' : t'.intWidth? = some w') (inputs : List Value) :
    EmitsLine inputs (ops (binaryElementwise opcode x y)) st x y ⟨s, t⟩ ⟨s', t'⟩
      (widerType t t') o.lane := by
  have hn : 0 < max s s' := hs.trans_le (le_max_left s s')
  apply emits_ops
  unfold binaryElementwise
  refine Emits.bind (emits_common hst hx hy hs hs' hdvd hdvd' ht ht' inputs) ?_
  rintro ⟨info, x', y'⟩ st₁ hgrows ⟨hinfo, hx', hy'⟩
  simp only at hinfo hx' hy' ⊢
  subst hinfo
  rw [hop]
  refine Emits.pure hgrows.sound
    ⟨.binary (.int o) x' y' (VarInfo.mk (max s s') (widerType t t')).shape, ?_, ?_, ?_⟩
  · rw [Op.type, infoOf_shape (show 0 < (VarInfo.mk _ _).tileSize from hn)]
  · simpa [Op.uses] using ⟨hx'.1.lt, hy'.1.lt⟩
  · intro z st' hgrows' hline
    refine ⟨x', y', ⟨_, hline, rfl, rfl, fun env ls ms hls hms => ?_⟩, hx'.grows hgrows',
      hy'.grows hgrows'⟩
    rw [Op.eval, hls, hms]
    rfl

theorem emits_comparison (float : FloatPredicate) (p : IntPredicate) (hst : EmitSound st)
    (hx : VarKnown st x ⟨s, t⟩) (hy : VarKnown st y ⟨s', t'⟩) (hs : 0 < s) (hs' : 0 < s')
    (hdvd : s ∣ max s s') (hdvd' : s' ∣ max s s') (ht : t.intWidth? = some w)
    (ht' : t'.intWidth? = some w') (inputs : List Value) :
    EmitsLine inputs (ops (comparison float p x y)) st x y ⟨s, t⟩ ⟨s', t'⟩ .i1 p.lane := by
  have hn : 0 < max s s' := hs.trans_le (le_max_left s s')
  apply emits_ops
  unfold comparison
  refine Emits.bind (emits_common hst hx hy hs hs' hdvd hdvd' ht ht' inputs) ?_
  rintro ⟨info, x', y'⟩ st₁ hgrows ⟨hinfo, hx', hy'⟩
  simp only at hinfo hx' hy' ⊢
  subst hinfo
  rw [if_neg (not_isFloatMlir_of_int (widerType_int ht ht'))]
  refine Emits.pure hgrows.sound
    ⟨.cmpi p x' y' (VarInfo.mk (max s s') (widerType t t')).shape, ?_, ?_, ?_⟩
  · rw [Op.type, shape_with_elem, infoOf_shape (show 0 < (VarInfo.mk _ _).tileSize from hn)]
  · simpa [Op.uses] using ⟨hx'.1.lt, hy'.1.lt⟩
  · intro z st' hgrows' hline
    refine ⟨x', y', ⟨_, hline, rfl, ?_, fun env ls ms hls hms => ?_⟩, hx'.grows hgrows',
      hy'.grows hgrows'⟩
    · rw [Op.type, shape_with_elem]
    · rw [Op.eval, hls, hms, shape_with_elem]
      rfl

end

/-! ## Exact operations of two operands -/

section

variable {op : BinaryName} {u v r : TorchValue} {st st' : EmitState} {x y x' y' z : Var}
  {inputs : List Value} {lane : Lane → Lane → Option Lane}

/-- What is said by a value of an operation. -/
structure BinaryParts (op : BinaryName) (u v r : TorchValue) : Prop where
  left : IsInteger u
  right : IsInteger v
  dvdLeft : u.lanes.length ∣ max u.lanes.length v.lanes.length
  dvdRight : v.lanes.length ∣ max u.lanes.length v.lanes.length
  lanes : (operandPairs u v).mapM (fun p => binaryMeaning op (promote u.dtype v.dtype) p.1 p.2) =
    some r.lanes
  dtype : r.dtype = if IsRelation op then .bool else promote u.dtype v.dtype
  held : r.held = if IsRelation op then .i1 else widerType u.held v.held

theorem binaryParts (h : binaryValue op u v = some r) : BinaryParts op u v r := by
  unfold binaryValue at h
  split at h
  · rename_i hint
    simp only [Option.bind_eq_bind, Option.bind_eq_some_iff] at h
    obtain ⟨us, hus, vs, hvs, lanes, hlanes, hr⟩ := h
    obtain ⟨hdvd, rfl⟩ := broadcastLanes_eq_some hus
    obtain ⟨hdvd', rfl⟩ := broadcastLanes_eq_some hvs
    cases hr
    refine ⟨hint.1, hint.2, hdvd, hdvd', ?_, ?_, ?_⟩
    · split <;> exact hlanes
    · split <;> rfl
    · split <;> rfl
  · cases h

theorem BinaryParts.length (h : BinaryParts op u v r) :
    r.lanes.length = max u.lanes.length v.lanes.length := by
  rw [length_mapM h.lanes, operandPairs, List.length_zip,
    length_repeated rfl h.dvdLeft, length_repeated rfl h.dvdRight, min_self]

/-- The lanes that are brought together are numbers of the promoted type. -/
theorem operandPairs_inRange (hu : ValueFits u) (hv : ValueFits v) (h : BinaryParts op u v r)
    (p : ℤ × ℤ) (hp : p ∈ operandPairs u v) :
    InRange (promote u.dtype v.dtype) p.1 ∧ InRange (promote u.dtype v.dtype) p.2 := by
  have hn : 0 < max u.lanes.length v.lanes.length := hu.nonempty.trans_le (le_max_left _ _)
  obtain ⟨hleft, hright⟩ := List.of_mem_zip hp
  have hmem := (mem_repeated hn h.dvdLeft).mp hleft
  have hmem' := (mem_repeated hn h.dvdRight).mp hright
  exact ⟨promote_inRange h.left h.right (hu.inRange _ hmem),
    promote_inRange_right h.left h.right (hv.inRange _ hmem')⟩

theorem binaryValue_fits (hu : ValueFits u) (hv : ValueFits v) (h : BinaryParts op u v r) :
    ValueFits r := by
  refine ⟨?_, ?_, ?_⟩
  · rw [h.dtype, h.held]
    split
    · exact .inr ⟨rfl, rfl⟩
    · exact heldIn_promote hu.heldIn hv.heldIn h.left h.right
  · rw [h.dtype]
    refine forall_mem_mapM (fun p hp c hc => ?_) h.lanes
    obtain ⟨ha, hb⟩ := operandPairs_inRange hu hv h p hp
    exact binaryMeaning_inRange (isSome_promote h.left h.right) ha hb hc
  · rw [h.length]
    exact hu.nonempty.trans_le (le_max_left _ _)

/-- What the variable of a promoted operand is to hold. -/
theorem encode_promoteTo {n : ℕ} {d : TorchDtype} {t : ElemType} (h : u.lanes.length ∣ n) :
    (promoteTo n d t u).encode =
      ⟨(VarInfo.mk n t).shape, (repeated n u.lanes.length u.lanes).map (encodeLane t)⟩ := by
  unfold TorchValue.encode TorchValue.info promoteTo
  rw [length_repeated rfl h]

/-- The first operand comes out as it is meant exactly when it is not widened or not negative. -/
theorem promoted_left_iff {bs : List ℤ} {n : ℕ} {d : TorchDtype} (hu : ValueFits u)
    (hv : ValueFits v) (hintu : IsInteger u) (hintv : IsInteger v) (hlength : bs.length = n)
    (hmem : ∀ a, a ∈ bs ↔ a ∈ u.lanes)
    (hval : value inputs st.buffer x = some ⟨(VarInfo.mk n (widerType u.held v.held)).shape,
      bs.map (widenedLane u.held (widerType u.held v.held))⟩) :
    value inputs st.buffer x = some (TorchValue.mk d (widerType u.held v.held) bs).encode ↔
      Widens u v := by
  obtain ⟨w, hw⟩ := integer_width hintu hu
  obtain ⟨w', hw'⟩ := integer_width hintv hv
  have hbit := mlirToBit_of_int hw
  have hbit' := mlirToBit_of_int hw'
  rw [widened_value_iff hu hintu hlength hmem hw (widerType_int hw hw') (wider_left hw hw') hval,
    Widens, hbit, hbit', lt_max_iff, or_iff_right (lt_irrefl w)]

/-- The second operand comes out as it is meant exactly when it is not widened or not negative. -/
theorem promoted_right_iff {bs : List ℤ} {n : ℕ} {d : TorchDtype} (hu : ValueFits u)
    (hv : ValueFits v) (hintu : IsInteger u) (hintv : IsInteger v) (hlength : bs.length = n)
    (hmem : ∀ a, a ∈ bs ↔ a ∈ v.lanes)
    (hval : value inputs st.buffer y = some ⟨(VarInfo.mk n (widerType u.held v.held)).shape,
      bs.map (widenedLane v.held (widerType u.held v.held))⟩) :
    value inputs st.buffer y = some (TorchValue.mk d (widerType u.held v.held) bs).encode ↔
      Widens v u := by
  obtain ⟨w, hw⟩ := integer_width hintu hu
  obtain ⟨w', hw'⟩ := integer_width hintv hv
  have hbit := mlirToBit_of_int hw
  have hbit' := mlirToBit_of_int hw'
  rw [widened_value_iff hv hintv hlength hmem hw' (widerType_int hw hw') (wider_right hw hw') hval,
    Widens, hbit, hbit', lt_max_iff, or_iff_left (lt_irrefl w')]

/-- The lane function gives the numbers meant where the lanes meet the condition. -/
def LaneSound (op : BinaryName) (u v r : TorchValue) (lane : Lane → Lane → Option Lane) : Prop :=
  ∀ a b c, InRange (promote u.dtype v.dtype) a → InRange (promote u.dtype v.dtype) b →
    binaryMeaning op (promote u.dtype v.dtype) a b = some c →
    (lane (encodeLane (widerType u.held v.held) a) (encodeLane (widerType u.held v.held) b) =
        some (encodeLane r.held c) ↔
      LaneMeets op (promote u.dtype v.dtype) (widerType u.held v.held) a b)

theorem lanes_iff (hu : ValueFits u) (hv : ValueFits v) (h : BinaryParts op u v r)
    (hlane : LaneSound op u v r lane) :
    (((repeated (max u.lanes.length v.lanes.length) u.lanes.length u.lanes).map
          (encodeLane (widerType u.held v.held))).zip
        ((repeated (max u.lanes.length v.lanes.length) v.lanes.length v.lanes).map
          (encodeLane (widerType u.held v.held)))).mapM (fun l => lane l.1 l.2) =
        some (r.lanes.map (encodeLane r.held)) ↔
      ∀ p ∈ operandPairs u v,
        LaneMeets op (promote u.dtype v.dtype) (widerType u.held v.held) p.1 p.2 := by
  rw [List.zip_map, List.mapM_map]
  refine mapM_encode_iff _ (fun p hp c hc => ?_) h.lanes
  obtain ⟨ha, hb⟩ := operandPairs_inRange hu hv h p hp
  exact hlane p.1 p.2 c ha hb hc

/-- **An operation of two operands is exact exactly when its condition is met.** -/
theorem lineExact_iff (hu : ValueFits u) (hv : ValueFits v) (h : BinaryParts op u v r)
    (hlogical : ¬ IsLogical op) (hlane : LaneSound op u v r lane)
    (hline : LaneLine inputs st' z x' y'
      (VarInfo.mk (max u.lanes.length v.lanes.length) (widerType u.held v.held)).shape
      (VarInfo.mk (max u.lanes.length v.lanes.length) r.held).shape lane)
    (hst' : EmitSound st')
    (hx : Carries inputs st x u.info st' x'
      ⟨max u.lanes.length v.lanes.length, widerType u.held v.held⟩ fun as =>
        (repeated (max u.lanes.length v.lanes.length) u.lanes.length as).map
          (widenedLane u.held (widerType u.held v.held)))
    (hy : Carries inputs st y v.info st' y'
      ⟨max u.lanes.length v.lanes.length, widerType u.held v.held⟩ fun as =>
        (repeated (max u.lanes.length v.lanes.length) v.lanes.length as).map
          (widenedLane v.held (widerType u.held v.held)))
    (hvx : value inputs st.buffer x = some u.encode)
    (hvy : value inputs st.buffer y = some v.encode) :
    LineExact inputs st' z (promotedPair (max u.lanes.length v.lanes.length) u v) r ↔
      BinaryMeets op u v := by
  have hn : 0 < max u.lanes.length v.lanes.length := hu.nonempty.trans_le (le_max_left _ _)
  have hleft := promoted_left_iff (d := promote u.dtype v.dtype) hu hv h.left h.right
    (length_repeated rfl h.dvdLeft) (fun a => mem_repeated hn h.dvdLeft)
    (hx.2 u.lanes rfl hvx)
  have hright := promoted_right_iff (d := promote u.dtype v.dtype) hu hv h.left h.right
    (length_repeated rfl h.dvdRight) (fun a => mem_repeated hn h.dvdRight)
    (hy.2 v.lanes rfl hvy)
  obtain ⟨line, hop, huses, -, heval⟩ := hline
  have hresult : r.encode = Value.mk (VarInfo.mk (max u.lanes.length v.lanes.length) r.held).shape
      (r.lanes.map (encodeLane r.held)) := by
    rw [TorchValue.encode, TorchValue.info, h.length]
  -- the operands decide about the widening, the result about the lanes
  have hvalue (hxe : Widens u v) (hye : Widens v u) :
      value inputs st'.buffer z = some r.encode ↔ ∀ p ∈ operandPairs u v,
        LaneMeets op (promote u.dtype v.dtype) (widerType u.held v.held) p.1 p.2 := by
    have hxval := (hleft.mpr hxe).trans (congrArg some (encode_promoteTo h.dvdLeft))
    have hyval := (hright.mpr hye).trans (congrArg some (encode_promoteTo h.dvdRight))
    rw [value_of_line hst' hop, heval _ _ _ (lanesAt_eq hxval) (lanesAt_eq hyval), hresult,
      ← lanes_iff hu hv h hlane, Option.map_eq_some_iff]
    simp
  constructor
  · rintro ⟨hz, line', hop', hoperands⟩
    rw [hop] at hop'
    cases hop'
    rw [huses] at hoperands
    simp only [promotedPair, List.map_cons, List.map_nil, List.cons.injEq, and_true] at hoperands
    have hxe := hleft.mp hoperands.1
    have hye := hright.mp hoperands.2
    exact ⟨fun _ => ⟨hxe, hye⟩, (hvalue hxe hye).mp hz⟩
  · rintro ⟨hwiden, hlanes⟩
    obtain ⟨hxe, hye⟩ := hwiden hlogical
    refine ⟨(hvalue hxe hye).mpr hlanes, line, hop, ?_⟩
    rw [huses]
    simp only [promotedPair, promoteTo, List.map_cons, List.map_nil, hleft.mpr hxe,
      hright.mpr hye]

end

section

variable {op : BinaryName} {o : IntOp} {p : IntPredicate} {u v r : TorchValue} {st : EmitState}
  {x y : Var} {lane : Lane → Lane → Option Lane}

/-- An operation that hands on the variable of another one. -/
theorem emits_handOn {inner : Emit Var} {Q : Var → EmitState → Prop}
    (h : Emits inner st fun z st' => (∃ info, VarKnown st' z info) ∧ Q z st') :
    Emits (do
      let z ← inner
      return (Code.var z, ← varInfo z)) st fun c st₁ =>
        ∃ z info, c = (.var z, info) ∧ VarKnown st₁ z info ∧ Q z st₁ := by
  refine Emits.bind h fun z st₁ hgrows hz => ?_
  obtain ⟨⟨info, hknown⟩, hQ⟩ := hz
  exact Emits.varInfo_bind hgrows.sound hknown
    (Emits.pure hgrows.sound ⟨z, info, rfl, hknown, hQ⟩)

theorem LaneLine.varKnown {inputs : List Value} {z x' y' : Var} {t : VecType} {info : VarInfo}
    (h : LaneLine inputs st z x' y' t info.shape lane) (hn : 0 < info.tileSize) :
    VarKnown st z info := by
  obtain ⟨line, hop, -, htype, -⟩ := h
  exact ⟨line, hop, by rw [htype, infoOf_shape hn]⟩

/-- A bitwise operation on integers is the operation on the bits. -/
theorem emitsLine_bitwise {inputs : List Value} {inner : Var → Var → Emit (Code × VarInfo)}
    {infoX infoY : VarInfo} {result : ElemType} (hst : EmitSound st) (hx : VarKnown st x infoX)
    (hy : VarKnown st y infoY) (hnx : ¬ IsFloatMlir infoX.dtype) (hny : ¬ IsFloatMlir infoY.dtype)
    (h : EmitsLine inputs (ops (inner x y)) st x y infoX infoY result lane) :
    EmitsLine inputs (ops (bitwise inner x y)) st x y infoX infoY result lane := by
  apply emits_ops_var
  unfold bitwise
  refine Emits.varInfo_bind hst hx (Emits.varInfo_bind hst hy ?_)
  rw [if_neg (not_or.mpr ⟨hnx, hny⟩)]
  refine emits_handOn (Emits.mono h fun z st₁ _ hz => ⟨?_, hz⟩)
  obtain ⟨x', y', ⟨line, hop, -⟩, -⟩ := hz
  exact ⟨_, varKnown_of_line hop⟩

/-- The line of an operation that has an opcode for integers. -/
theorem emitsLine_opcode (ho : intOpcode? op = some o) (hst : EmitSound st)
    (hx : VarKnown st x u.info) (hy : VarKnown st y v.info) (hu : ValueFits u) (hv : ValueFits v)
    (h : BinaryParts op u v r) (inputs : List Value) :
    EmitsLine inputs (ops (op.override x y)) st x y u.info v.info (widerType u.held v.held)
      o.lane := by
  obtain ⟨w, hw⟩ := integer_width h.left hu
  obtain ⟨w', hw'⟩ := integer_width h.right hv
  have hfloat := not_isFloatMlir_of_int (widerType_int hw hw')
  have hline (opcode : ElemType → Except OpError BinaryOp)
      (hop : opcode (widerType u.held v.held) = .ok (.int o)) :
      EmitsLine inputs (ops (binaryElementwise opcode x y)) st x y u.info v.info
        (widerType u.held v.held) o.lane :=
    emits_binaryElementwise hop hst hx hy hu.nonempty hv.nonempty h.dvdLeft h.dvdRight hw hw'
      inputs
  have hbitwise (opcode : ElemType → Except OpError BinaryOp)
      (hop : opcode (widerType u.held v.held) = .ok (.int o)) :
      EmitsLine inputs (ops (bitwise (binaryElementwise opcode) x y)) st x y u.info v.info
        (widerType u.held v.held) o.lane :=
    emitsLine_bitwise hst hx hy (not_isFloatMlir_of_int hw) (not_isFloatMlir_of_int hw')
      (hline opcode hop)
  have hbyType (float : FloatOp) : byType float o (widerType u.held v.held) = .ok (.int o) :=
    congrArg Except.ok (if_neg hfloat)
  have honly (error : OpError) :
      integersOnly error o (widerType u.held v.held) = .ok (.int o) := if_neg hfloat
  cases op <;> cases ho
  case add | sub | mul | minimum | maximum | remainder => exact hline _ (hbyType _)
  case truncdiv | floordiv | mod => exact hline _ (honly _)
  case and_ | or_ | xor => exact hline (fun _ => .ok (.int _)) rfl
  case bitwiseAnd | bitwiseOr | bitwiseXor => exact hbitwise (fun _ => .ok (.int _)) rfl

/-- The line of a comparison. -/
theorem emitsLine_predicate (hp : intPredicate? op = some p) (hst : EmitSound st)
    (hx : VarKnown st x u.info) (hy : VarKnown st y v.info) (hu : ValueFits u) (hv : ValueFits v)
    (h : BinaryParts op u v r) (inputs : List Value) :
    EmitsLine inputs (ops (op.override x y)) st x y u.info v.info .i1 p.lane := by
  obtain ⟨w, hw⟩ := integer_width h.left hu
  obtain ⟨w', hw'⟩ := integer_width h.right hv
  have hline (float : FloatPredicate) :=
    emits_comparison float p hst hx hy hu.nonempty hv.nonempty h.dvdLeft h.dvdRight hw hw' inputs
  cases op <;> cases hp <;> exact hline _

/-- The operations that are not logical have an opcode or a predicate. -/
theorem opcode_or_predicate (h : ¬ IsLogical op) :
    (∃ o, intOpcode? op = some o ∧ ¬ IsRelation op) ∨
      ∃ p, intPredicate? op = some p ∧ IsRelation op := by
  cases op <;> first
    | exact absurd (by decide) h
    | exact .inl ⟨_, rfl, by decide⟩
    | exact .inr ⟨_, rfl, by decide⟩

/-- **An operation of two operands, of which neither is only asked for its truth.** -/
theorem emits_binary (hst : EmitSound st) (hx : VarKnown st x u.info) (hy : VarKnown st y v.info)
    (hu : ValueFits u) (hv : ValueFits v) (h : BinaryParts op u v r) (hlogical : ¬ IsLogical op)
    (inputs : List Value) :
    Emits (ops (op.override x y)) st fun z st' => VarKnown st' z r.info ∧
      (value inputs st.buffer x = some u.encode → value inputs st.buffer y = some v.encode →
        (LineExact inputs st' z (promotedPair (max u.lanes.length v.lanes.length) u v) r ↔
          BinaryMeets op u v)) := by
  have hn : 0 < max u.lanes.length v.lanes.length := hu.nonempty.trans_le (le_max_left _ _)
  have hheld := heldIn_promote hu.heldIn hv.heldIn h.left h.right
  have hbits := isSome_promote h.left h.right
  have hinfo : r.info = ⟨max u.lanes.length v.lanes.length, r.held⟩ := by
    rw [TorchValue.info, h.length]
  have hexact (lane : Lane → Lane → Option Lane)
      (hline : EmitsLine inputs (ops (op.override x y)) st x y u.info v.info r.held lane)
      (hlane : LaneSound op u v r lane) :
      Emits (ops (op.override x y)) st fun z st' => VarKnown st' z r.info ∧
        (value inputs st.buffer x = some u.encode → value inputs st.buffer y = some v.encode →
          (LineExact inputs st' z (promotedPair (max u.lanes.length v.lanes.length) u v) r ↔
            BinaryMeets op u v)) := by
    refine Emits.mono hline ?_
    rintro z st' hgrows ⟨x', y', hlaneLine, hx', hy'⟩
    refine ⟨hinfo ▸ hlaneLine.varKnown hn, fun hvx hvy => ?_⟩
    exact lineExact_iff hu hv h hlogical hlane hlaneLine hgrows.sound hx' hy' hvx hvy
  rcases opcode_or_predicate hlogical with ⟨o, ho, hrel⟩ | ⟨p, hp, hrel⟩
  · have hr : r.held = widerType u.held v.held := by rw [h.held, if_neg hrel]
    refine hexact o.lane ?_ fun a b c ha hb hc => ?_
    · rw [hr]
      exact emitsLine_opcode ho hst hx hy hu hv h inputs
    · rw [hr]
      exact intOp_lane_iff ho hheld hbits ha hb hc
  · have hr : r.held = .i1 := by rw [h.held, if_pos hrel]
    refine hexact p.lane ?_ fun a b c ha hb hc => ?_
    · rw [hr]
      exact emitsLine_predicate hp hst hx hy hu hv h inputs
    · rw [hr]
      exact intPredicate_lane_iff hp hheld hbits ha hb hc

end

end PyTorchSim.Analysis
