import PyTorchSim.Analysis.PointwiseMeaning
import PyTorchSim.Library.Runs

/-!
# What the overrides write

An override ends without raising when its operands are known, and it leaves the buffer longer, with
the lines that were there (`Emits`).  The result of an override that gives an expression is a line
with this expression, whether it is a new one or one that was there (`emits_ops`); so the value of
the result is the expression evaluated over the variables it names.

The operands of `binary_elementwise_common` come out at the larger size and the wider type, their
lanes repeated and, for the narrower type, filled up with zeros (`emits_common`).
-/

set_option autoImplicit false

namespace PyTorchSim.Analysis

open PyTorchSim.Frontend PyTorchSim.Frontend.ExtensionOverrides
open PyTorchSim.Library PyTorchSim.Library.Arith

/-! ## Buffers -/

/-- What is known of a variable of the type. -/
def infoOf (t : VecType) : VarInfo := ⟨t.dims.prod, t.elem⟩

/-- The operands of every line are earlier variables, and what is known of a variable is its type.
-/
structure EmitSound (st : EmitState) : Prop where
  backwards : Scoped st.buffer
  known : ∀ x op, st.buffer[x]? = some op → st.varInfo x = some (infoOf op.type)

/-- Lines are added. -/
structure EmitGrows (st st' : EmitState) : Prop where
  lines : st.buffer <+: st'.buffer
  sound : EmitSound st'

/-- The variable is there, with this size and type. -/
def VarKnown (st : EmitState) (x : Var) (info : VarInfo) : Prop :=
  ∃ op, st.buffer[x]? = some op ∧ infoOf op.type = info

section

variable {st st' st'' : EmitState} {x : Var} {info : VarInfo} {op : Op} {inputs : List Value}
  {v : Value}

theorem VarKnown.lt (h : VarKnown st x info) : x < st.buffer.length := by
  obtain ⟨op, hop, -⟩ := h
  exact (List.getElem?_eq_some_iff.mp hop).1

theorem VarKnown.varInfo (h : VarKnown st x info) (hst : EmitSound st) :
    st.varInfo x = some info := by
  obtain ⟨op, hop, rfl⟩ := h
  exact hst.known x op hop

theorem EmitGrows.refl (h : EmitSound st) : EmitGrows st st := ⟨List.prefix_refl _, h⟩

theorem EmitGrows.trans (h : EmitGrows st st') (h' : EmitGrows st' st'') : EmitGrows st st'' :=
  ⟨h.lines.trans h'.lines, h'.sound⟩

theorem EmitGrows.line (h : EmitGrows st st') (hop : st.buffer[x]? = some op) :
    st'.buffer[x]? = some op := by
  obtain ⟨rest, hrest⟩ := h.lines
  rw [← hrest, List.getElem?_append_left (List.getElem?_eq_some_iff.mp hop).1, hop]

theorem EmitGrows.varKnown (h : EmitGrows st st') (hx : VarKnown st x info) :
    VarKnown st' x info := by
  obtain ⟨op, hop, rfl⟩ := hx
  exact ⟨op, h.line hop, rfl⟩

/-- **The values that are there stay.** -/
theorem EmitGrows.value (h : EmitGrows st st') (hx : VarKnown st x info) :
    value inputs st'.buffer x = value inputs st.buffer x := value_of_isPrefix h.lines hx.lt

theorem infoOf_shape (h : 0 < info.tileSize) : infoOf info.shape = info := by
  obtain ⟨n, t⟩ := info
  unfold VarInfo.shape infoOf
  split
  · simp
  · simp only [List.prod_nil, VarInfo.mk.injEq, and_true]
    simp only at h ‹¬ _›
    omega

theorem varKnown_of_line (hop : st.buffer[x]? = some op) : VarKnown st x (infoOf op.type) :=
  ⟨op, hop, rfl⟩

theorem emitSound_empty : EmitSound ⟨[], fun _ => none⟩ := by
  refine ⟨StraightLine.scoped_nil, fun x op hop => ?_⟩
  simp at hop

/-! ## Computations -/

/-- The computation does not raise, the buffer grows, and `Q` holds of the result. -/
def Emits {α : Type} (m : Emit α) (st : EmitState) (Q : α → EmitState → Prop) : Prop :=
  Gives (m.run st) fun r => EmitGrows st r.2 ∧ Q r.1 r.2

variable {α β : Type} {m : Emit α} {f : α → Emit β} {Q Q' : α → EmitState → Prop}
  {R : β → EmitState → Prop} {a : α}

theorem Emits.pure (hst : EmitSound st) (h : Q a st) : Emits (Pure.pure a) st Q :=
  .ok ⟨.refl hst, h⟩

theorem Emits.mono (hm : Emits m st Q) (h : ∀ a st', EmitGrows st st' → Q a st' → Q' a st') :
    Emits m st Q' :=
  Gives.mono hm fun r hr => ⟨hr.1, h r.1 r.2 hr.1 hr.2⟩

theorem Emits.bind (hm : Emits m st Q)
    (hf : ∀ a st', EmitGrows st st' → Q a st' → Emits (f a) st' R) : Emits (m >>= f) st R := by
  unfold Emits
  rw [StateT.run_bind]
  refine Gives.bind hm fun r hr => ?_
  exact Gives.mono (hf r.1 r.2 hr.1 hr.2) fun r' hr' => ⟨hr.1.trans hr'.1, hr'.2⟩

/-- What is known of an operand is read. -/
theorem Emits.varInfo_bind {g : VarInfo → Emit β} (hst : EmitSound st) (hx : VarKnown st x info)
    (h : Emits (g info) st R) : Emits (varInfo x >>= g) st R := by
  refine Emits.bind (Q := fun i st' => i = info ∧ st' = st) ?_ ?_
  · refine ⟨(info, st), ?_, .refl hst, rfl, rfl⟩
    unfold varInfo
    simp only [StateT.run_bind, StateT.run_get, pure_bind, hx.varInfo hst]
    rfl
  · rintro i st' - ⟨rfl, rfl⟩
    exact h

/-- Code that is registered with its own type keeps what is known. -/
theorem registered (hst : EmitSound st) (hop : st.buffer[x]? = some op) :
    (fun y => if y = x then some (infoOf op.type) else st.varInfo y) = st.varInfo := by
  funext y
  split
  · rename_i h
    rw [h, hst.known x op hop]
  · rfl

/-- **An expression becomes a line**: one that is there with the same text, or a new one. -/
theorem emits_line {Q : Var → EmitState → Prop} (hst : EmitSound st)
    (huses : ∀ x ∈ op.uses, x < st.buffer.length)
    (hQ : ∀ x st', EmitGrows st st' → st'.buffer[x]? = some op → Q x st') :
    Emits (do
      let csevar ← generate (.op op)
      registerVarInfo csevar (infoOf op.type)
      return csevar) st Q := by
  cases hfind : st.buffer.idxOf? op with
  | some x =>
    have hop : st.buffer[x]? = some op := by
      obtain ⟨hx, hget, -⟩ := List.idxOf?_eq_some_iff.mp hfind
      exact List.getElem?_eq_some_iff.mpr ⟨hx, hget⟩
    refine ⟨(x, st), ?_, .refl hst, hQ x st (.refl hst) hop⟩
    unfold generate registerVarInfo
    simp only [StateT.run_bind, StateT.run_get, pure_bind, hfind, StateT.run_pure,
      StateT.run_modify]
    rw [registered hst hop]
    rfl
  | none =>
    let grown : EmitState := ⟨st.buffer ++ [op], fun y =>
      if y = st.buffer.length then some (infoOf op.type) else st.varInfo y⟩
    have hline : grown.buffer[st.buffer.length]? = some op := List.getElem?_concat_length
    have hgrown : EmitGrows st grown := by
      refine ⟨List.prefix_append _ _, StraightLine.scoped_concat hst.backwards huses, ?_⟩
      intro y op' hop'
      rcases Nat.lt_or_ge y st.buffer.length with hy | hy
      · rw [List.getElem?_append_left hy] at hop'
        exact (if_neg hy.ne).trans (hst.known y op' hop')
      · obtain ⟨hlt, -⟩ := List.getElem?_eq_some_iff.mp hop'
        have hlast : y = st.buffer.length := by
          rw [List.length_append] at hlt
          exact Nat.le_antisymm (Nat.le_of_lt_succ hlt) hy
        subst hlast
        rw [hline] at hop'
        cases hop'
        exact if_pos rfl
    refine ⟨(st.buffer.length, grown), ?_, hgrown, hQ _ grown hgrown hline⟩
    unfold generate registerVarInfo
    simp only [StateT.run_bind, StateT.run_get, pure_bind, hfind]
    rfl

/-- An override that gives an expression. -/
theorem emits_ops {override : Emit (Code × VarInfo)} {Q : Var → EmitState → Prop}
    (h : Emits override st fun c st₁ => ∃ o, c = (.op o, infoOf o.type) ∧
      (∀ x ∈ o.uses, x < st₁.buffer.length) ∧
      ∀ x st', EmitGrows st₁ st' → st'.buffer[x]? = some o → Q x st') :
    Emits (ops override) st Q := by
  unfold ops
  refine Emits.bind h ?_
  rintro _ st₁ hgrows ⟨o, rfl, huses, hQ⟩
  exact emits_line hgrows.sound huses hQ

/-- An override that gives a variable that is there. -/
theorem emits_ops_var {override : Emit (Code × VarInfo)} {Q : Var → EmitState → Prop}
    (h : Emits override st fun c st₁ => ∃ x info, c = (.var x, info) ∧ VarKnown st₁ x info ∧
      Q x st₁) :
    Emits (ops override) st Q := by
  unfold ops
  refine Emits.bind h ?_
  rintro _ st₁ hgrows ⟨x, info, rfl, ⟨op, hop, rfl⟩, hQ⟩
  refine ⟨(x, st₁), ?_, .refl hgrows.sound, hQ⟩
  unfold generate registerVarInfo
  simp only [StateT.run_bind, StateT.run_pure, pure_bind, StateT.run_modify]
  rw [registered hgrows.sound hop]
  rfl

/-- The value of a line is its operation over the buffer. -/
theorem value_of_line (hst : EmitSound st) (hop : st.buffer[x]? = some op) :
    value inputs st.buffer x = op.eval inputs (value inputs st.buffer) :=
  value_eq hst.backwards hop

end

/-! ## Sizes and types -/

section

variable {st st' : EmitState} {x y x' : Var} {info info' : VarInfo} {inputs : List Value}
  {t t' : ElemType} {s s' n w w' : ℕ}

theorem mlirToBit_of_int (h : t.intWidth? = some w) : mlirToBit t = w := by
  cases t <;> cases h <;> rfl

theorem not_isFloatMlir_of_int (h : t.intWidth? = some w) : ¬ IsFloatMlir t := by
  cases t <;> cases h <;> decide

theorem ne_index_of_int (h : t.intWidth? = some w) : t ≠ .index := by
  rintro rfl
  cases h

/-- An integer type is known by its width. -/
theorem intType_inj (h : t.intWidth? = some w) (h' : t'.intWidth? = some w) : t = t' := by
  cases t <;> cases h <;> cases t' <;> cases h' <;> rfl

theorem encodeLane_int (h : t.intWidth? = some w) (a : ℤ) :
    encodeLane t a = .bits w (BitVec.ofInt w a) := by
  unfold encodeLane
  rw [h]

/-- The lanes of an operand of size `s`, repeated to the size `n`. -/
def repeated (n s : ℕ) (as : List ℤ) : List ℤ := (List.replicate (n / s) as).flatten

theorem length_repeated {as : List ℤ} (has : as.length = s) (h : s ∣ n) :
    (repeated n s as).length = n := by
  unfold repeated
  rw [List.length_flatten, List.map_replicate, List.sum_replicate_nat, has,
    Nat.div_mul_cancel h]

theorem repeated_self (hs : 0 < s) (as : List ℤ) : repeated s s as = as := by
  unfold repeated
  rw [Nat.div_self hs]
  simp

theorem map_repeated (f : ℤ → Lane) (as : List ℤ) :
    (List.replicate (n / s) (as.map f)).flatten = (repeated n s as).map f := by
  unfold repeated
  rw [List.map_flatten, List.map_replicate]

/-- A lane of the narrower type after it is filled up with zeros. -/
def widenedLane (t t' : ElemType) (a : ℤ) : Lane :=
  match t.intWidth?, t'.intWidth? with
  | some w, some w' =>
    if w < w' then .bits w' ((BitVec.ofInt w a).setWidth w') else encodeLane t a
  | _, _ => encodeLane t a

/-- The second variable has the size and type of `info'`; and where the first one holds numbers, the
second one holds what `g` makes of them. -/
def Carries (inputs : List Value) (st : EmitState) (x : Var) (info : VarInfo) (st' : EmitState)
    (x' : Var) (info' : VarInfo) (g : List ℤ → List Lane) : Prop :=
  VarKnown st' x' info' ∧ ∀ as : List ℤ, as.length = info.tileSize →
    value inputs st.buffer x = some ⟨info.shape, as.map (encodeLane info.dtype)⟩ →
    value inputs st'.buffer x' = some ⟨info'.shape, g as⟩

theorem Carries.self (h : EmitGrows st st') (hx : VarKnown st x info) :
    Carries inputs st x info st' x info fun as => as.map (encodeLane info.dtype) := by
  refine ⟨h.varKnown hx, fun as _ hval => ?_⟩
  rw [h.value hx, hval]

theorem Carries.grows {st'' : EmitState} {g : List ℤ → List Lane}
    (h : Carries inputs st x info st' x' info' g) (h' : EmitGrows st' st'') :
    Carries inputs st x info st'' x' info' g := by
  refine ⟨h'.varKnown h.1, fun as has hval => ?_⟩
  rw [h'.value h.1, h.2 as has hval]

/-- An operand that was carried over before it is carried on. -/
theorem Carries.trans {st'' : EmitState} {x'' : Var} {info'' : VarInfo} {f : List ℤ → List ℤ}
    {g : List ℤ → List Lane}
    (h : Carries inputs st x info st' x' info' fun as => (f as).map (encodeLane info'.dtype))
    (h' : Carries inputs st' x' info' st'' x'' info'' g)
    (hf : ∀ as : List ℤ, as.length = info.tileSize → (f as).length = info'.tileSize) :
    Carries inputs st x info st'' x'' info'' fun as => g (f as) :=
  ⟨h'.1, fun as has hval => h'.2 (f as) (hf as has) (h.2 as has hval)⟩

/-- An operand that is carried over from a later state. -/
theorem Carries.of_grows {st₁ : EmitState} {g : List ℤ → List Lane} (h₁ : EmitGrows st st₁)
    (hx : VarKnown st x info) (h : Carries inputs st₁ x info st' x' info' g) :
    Carries inputs st x info st' x' info' g :=
  ⟨h.1, fun as has hval => h.2 as has (by rw [h₁.value hx, hval])⟩

theorem shape_of_one_lt (h : 1 < n) : (VarInfo.mk n t).shape = ⟨[n], t⟩ := if_pos h

theorem shape_one : (VarInfo.mk 1 t).shape = ⟨[], t⟩ := rfl

theorem emits_broadcastUnflat (hst : EmitSound st) (hx : VarKnown st x ⟨s, t⟩) (hdvd : s ∣ n)
    (inputs : List Value) :
    Emits (ops (broadcastUnflat x n)) st fun y st' =>
      VarKnown st' y (infoOf ⟨[n / s, s], t⟩) ∧
        ∀ ls, value inputs st.buffer x = some ⟨⟨[s], t⟩, ls⟩ →
          value inputs st'.buffer y =
            some ⟨⟨[n / s, s], t⟩, (List.replicate (n / s) ls).flatten⟩ := by
  apply emits_ops
  unfold broadcastUnflat
  refine Emits.varInfo_bind hst hx (Emits.pure hst ?_)
  refine ⟨.broadcast x ⟨[s], t⟩ ⟨[n / s, s], t⟩, ?_, ?_, ?_⟩
  · simp [infoOf, Op.type, Nat.div_mul_cancel hdvd]
  · simpa [Op.uses] using hx.lt
  · intro y st' hgrows hline
    refine ⟨varKnown_of_line hline, fun ls hval => ?_⟩
    have hlanes : lanesAt (value inputs st'.buffer) x ⟨[s], t⟩ = some ls :=
      lanesAt_eq (by rw [hgrows.value hx, hval])
    rw [value_of_line hgrows.sound hline]
    simp [Op.eval, hlanes]

/-- **A broadcast repeats the lanes.** -/
theorem emits_broadcast (hst : EmitSound st) (hx : VarKnown st x ⟨s, t⟩) (hs : 0 < s)
    (hlt : s < n) (hdvd : s ∣ n) (inputs : List Value) :
    Emits (ops (broadcast x n)) st fun y st' => Carries inputs st x ⟨s, t⟩ st' y ⟨n, t⟩
      fun as => (repeated n s as).map (encodeLane t) := by
  apply emits_ops
  unfold broadcast
  refine Emits.varInfo_bind hst hx ?_
  rcases Nat.lt_or_ge 1 s with hs1 | hs1
  · simp only [gt_iff_lt, hs1, if_true, Nat.mod_eq_zero_of_dvd hdvd]
    refine Emits.bind (emits_broadcastUnflat hst hx hdvd inputs) ?_
    rintro z st₁ hgrows ⟨hz, hzval⟩
    refine Emits.pure hgrows.sound ⟨.shapeCast z ⟨[n / s, s], t⟩ ⟨[n], t⟩, ?_, ?_, ?_⟩
    · simp [infoOf, Op.type]
    · simpa [Op.uses] using hz.lt
    · intro y st' hgrows' hline
      have hinfo : infoOf (Op.shapeCast z ⟨[n / s, s], t⟩ ⟨[n], t⟩).type = ⟨n, t⟩ := by
        simp [infoOf, Op.type]
      refine ⟨hinfo ▸ varKnown_of_line hline, fun as _ hval => ?_⟩
      rw [shape_of_one_lt hs1] at hval
      have hlanes := lanesAt_eq ((hgrows'.value hz).trans (hzval _ hval))
      rw [value_of_line hgrows'.sound hline, shape_of_one_lt (hs1.trans hlt)]
      simp [Op.eval, hlanes, Nat.div_mul_cancel hdvd, ← map_repeated]
  · have hone : s = 1 := Nat.le_antisymm hs1 hs
    subst hone
    simp only [gt_iff_lt, lt_irrefl, if_false, if_true]
    refine Emits.pure hst ⟨.broadcast x ⟨[], t⟩ ⟨[n], t⟩, ?_, ?_, ?_⟩
    · simp [infoOf, Op.type]
    · simpa [Op.uses] using hx.lt
    · intro y st' hgrows hline
      have hinfo : infoOf (Op.broadcast x ⟨[], t⟩ ⟨[n], t⟩).type = ⟨n, t⟩ := by
        simp [infoOf, Op.type]
      refine ⟨hinfo ▸ varKnown_of_line hline, fun as _ hval => ?_⟩
      rw [shape_one] at hval
      have hlanes := lanesAt_eq ((hgrows.value hx).trans hval)
      rw [value_of_line hgrows.sound hline, shape_of_one_lt hlt]
      simp [Op.eval, hlanes, ← map_repeated]

end

/-! ## The operands of an operation -/

section

variable {st st' : EmitState} {x y : Var} {t t' : ElemType} {s s' n w w' : ℕ}

theorem dims_shape (n : ℕ) (t t' : ElemType) :
    (VarInfo.mk n t).shape.dims = (VarInfo.mk n t').shape.dims := by
  unfold VarInfo.shape
  split <;> rfl

theorem elem_shape (n : ℕ) (t : ElemType) : (VarInfo.mk n t).shape.elem = t := by
  unfold VarInfo.shape
  split <;> rfl

theorem dims_prod_shape (hn : 0 < n) (t : ElemType) : (VarInfo.mk n t).shape.dims.prod = n := by
  have hinfo : infoOf (VarInfo.mk n t).shape = ⟨n, t⟩ := infoOf_shape hn
  exact congrArg VarInfo.tileSize hinfo

/-- Lanes that all have a result. -/
theorem mapM_lanes {f : Lane → Option Lane} {e g : ℤ → Lane} (h : ∀ a, f (e a) = some (g a))
    (as : List ℤ) : (as.map e).mapM f = some (as.map g) := by
  have hcomp : (f ∘ e) = fun a => pure (g a) := funext h
  rw [List.mapM_map, hcomp, List.mapM_pure]
  rfl

/-- An override that gives a conversion of each lane. -/
theorem emits_cast {override : Emit (Code × VarInfo)} (op : CastOp) {g : ℤ → Lane}
    (hx : VarKnown st x ⟨n, t⟩) (hn : 0 < n) (htyped : op.WellTyped t t')
    (hg : ∀ a, op.lane t' (encodeLane t a) = some (g a)) (inputs : List Value)
    (h : Emits override st fun c _ =>
      c = (.op (.cast op x (VarInfo.mk n t).shape (VarInfo.mk n t').shape), ⟨n, t'⟩)) :
    Emits (ops override) st fun y st' =>
      Carries inputs st x ⟨n, t⟩ st' y ⟨n, t'⟩ fun as => as.map g := by
  have hinfo : infoOf (VarInfo.mk n t').shape = ⟨n, t'⟩ := infoOf_shape hn
  apply emits_ops
  refine Emits.mono h ?_
  rintro _ st₁ hgrows rfl
  refine ⟨.cast op x (VarInfo.mk n t).shape (VarInfo.mk n t').shape, by rw [Op.type, hinfo], ?_,
    fun y st' hgrows' hline => ?_⟩
  · simpa [Op.uses] using (hgrows.varKnown hx).lt
  · have hknown := varKnown_of_line hline
    rw [Op.type, hinfo] at hknown
    refine ⟨hknown, fun as _ hval => ?_⟩
    have hlanes := lanesAt_eq (((hgrows.trans hgrows').value hx).trans hval)
    rw [value_of_line hgrows'.sound hline]
    simp only [Op.eval, hlanes, Option.bind_some, elem_shape]
    rw [if_pos ⟨dims_shape n t t', htyped⟩, mapM_lanes hg]
    rfl

/-- **An extension fills a lane up with zeros.** -/
theorem emits_ext (hst : EmitSound st) (hx : VarKnown st x ⟨n, t⟩) (hn : 0 < n)
    (ht : t.intWidth? = some w) (ht' : t'.intWidth? = some w') (hlt : w < w')
    (inputs : List Value) :
    Emits (ops (ext x t')) st fun y st' => Carries inputs st x ⟨n, t⟩ st' y ⟨n, t'⟩
      fun as => as.map (widenedLane t t') := by
  have hlane : ∀ a, CastOp.lane .extui t' (encodeLane t a) = some (widenedLane t t' a) := by
    intro a
    rw [encodeLane_int ht, CastOp.lane, ht']
    simp [widenedLane, ht, ht', hlt]
  refine emits_cast .extui hx hn ?_ hlane inputs ?_
  · unfold CastOp.WellTyped
    rw [ht, ht']
    exact hlt
  · unfold ext
    refine Emits.varInfo_bind hst hx ?_
    rw [if_neg (not_isFloatMlir_of_int ht')]
    exact Emits.pure hst rfl

/-- An operand of the common size is left as it is, which repeats its lanes once. -/
theorem Carries.whole {inputs : List Value} (h : EmitGrows st st') (hx : VarKnown st x ⟨s, t⟩)
    (hs : 0 < s) : Carries inputs st x ⟨s, t⟩ st' x ⟨s, t⟩
      fun as => (repeated s s as).map (encodeLane t) := by
  refine ⟨h.varKnown hx, fun as _ hval => ?_⟩
  rw [h.value hx, hval]
  simp only [repeated_self hs]

theorem emits_tileSizeCheck (hst : EmitSound st) (hx : VarKnown st x ⟨s, t⟩)
    (hy : VarKnown st y ⟨s', t'⟩) (hs : 0 < s) (hs' : 0 < s') (hdvd : s ∣ max s s')
    (hdvd' : s' ∣ max s s') (inputs : List Value) :
    Emits (tileSizeCheck x y) st fun p st' =>
      (Carries inputs st x ⟨s, t⟩ st' p.1 ⟨max s s', t⟩
        fun as => (repeated (max s s') s as).map (encodeLane t)) ∧
      Carries inputs st y ⟨s', t'⟩ st' p.2 ⟨max s s', t'⟩
        fun as => (repeated (max s s') s' as).map (encodeLane t') := by
  unfold tileSizeCheck
  refine Emits.varInfo_bind hst hx (Emits.varInfo_bind hst hy ?_)
  rcases Nat.lt_trichotomy s s' with hlt | heq | hgt
  · rw [max_eq_right hlt.le] at hdvd ⊢
    simp only [gt_iff_lt, hlt.asymm, hlt, if_true, if_false]
    refine Emits.bind (emits_broadcast hst hx hs hlt hdvd inputs) ?_
    intro x' st₁ hgrows hcarries
    exact Emits.pure hgrows.sound ⟨hcarries, Carries.whole hgrows hy hs'⟩
  · subst heq
    simp only [gt_iff_lt, lt_irrefl, if_false, max_self]
    exact Emits.pure hst ⟨Carries.whole (.refl hst) hx hs, Carries.whole (.refl hst) hy hs⟩
  · rw [max_eq_left hgt.le] at hdvd' ⊢
    simp only [gt_iff_lt, hgt, if_true]
    refine Emits.bind (emits_broadcast hst hy hs' hgt hdvd' inputs) ?_
    intro y' st₁ hgrows hcarries
    exact Emits.pure hgrows.sound ⟨Carries.whole hgrows hx hs, hcarries⟩

end

section

variable {st st' : EmitState} {x y : Var} {t t' : ElemType} {s s' n w w' : ℕ}

theorem widenedLane_same (t : ElemType) : widenedLane t t = encodeLane t := by
  funext a
  unfold widenedLane
  cases t.intWidth? with
  | none => rfl
  | some w => exact if_neg (lt_irrefl w)

/-- An operand of the common type is left as it is. -/
theorem Carries.sameType {inputs : List Value} (h : EmitGrows st st')
    (hx : VarKnown st x ⟨n, t⟩) :
    Carries inputs st x ⟨n, t⟩ st' x ⟨n, t⟩ fun as => as.map (widenedLane t t) := by
  rw [widenedLane_same]
  exact Carries.self h hx

theorem emits_dataTypeCheck (hst : EmitSound st) (hx : VarKnown st x ⟨n, t⟩)
    (hy : VarKnown st y ⟨n, t'⟩) (hn : 0 < n) (ht : t.intWidth? = some w)
    (ht' : t'.intWidth? = some w') (inputs : List Value) :
    Emits (dataTypeCheck x y) st fun p st' =>
      (Carries inputs st x ⟨n, t⟩ st' p.1 ⟨n, widerType t t'⟩
        fun as => as.map (widenedLane t (widerType t t'))) ∧
      Carries inputs st y ⟨n, t'⟩ st' p.2 ⟨n, widerType t t'⟩
        fun as => as.map (widenedLane t' (widerType t t')) := by
  have hbit := mlirToBit_of_int ht
  have hbit' := mlirToBit_of_int ht'
  unfold dataTypeCheck
  refine Emits.varInfo_bind hst hx (Emits.varInfo_bind hst hy ?_)
  simp only [ne_index_of_int ht, ne_index_of_int ht', not_isFloatMlir_of_int ht,
    not_isFloatMlir_of_int ht', hbit, hbit', if_false, false_and, and_false, gt_iff_lt]
  rcases Nat.lt_trichotomy w w' with hlt | heq | hgt
  · have hne : t ≠ t' := by
      rintro rfl
      rw [ht] at ht'
      exact hlt.ne (Option.some.inj ht')
    have hwider : widerType t t' = t' := if_pos (by rwa [hbit, hbit'])
    rw [if_neg hne, if_neg hlt.asymm, if_pos hlt, hwider]
    refine Emits.bind (emits_ext hst hx hn ht ht' hlt inputs) fun x' st₁ hgrows hcarries => ?_
    exact Emits.pure hgrows.sound ⟨hcarries, Carries.sameType hgrows hy⟩
  · subst heq
    have hsame : t = t' := intType_inj ht ht'
    subst hsame
    have hwider : widerType t t = t := if_neg (lt_irrefl _)
    rw [if_pos rfl, hwider]
    exact Emits.pure hst
      ⟨Carries.sameType (.refl hst) hx, Carries.sameType (.refl hst) hy⟩
  · have hne : t ≠ t' := by
      rintro rfl
      rw [ht] at ht'
      exact hgt.ne' (Option.some.inj ht')
    have hwider : widerType t t' = t := if_neg (by rw [hbit, hbit']; exact hgt.asymm)
    rw [if_neg hne, if_pos hgt, hwider]
    refine Emits.bind (emits_ext hst hy hn ht' ht hgt inputs) fun y' st₁ hgrows hcarries => ?_
    exact Emits.pure hgrows.sound ⟨Carries.sameType hgrows hx, hcarries⟩

/-- **What the two operands of an operation are brought to.** -/
theorem emits_common (hst : EmitSound st) (hx : VarKnown st x ⟨s, t⟩)
    (hy : VarKnown st y ⟨s', t'⟩) (hs : 0 < s) (hs' : 0 < s') (hdvd : s ∣ max s s')
    (hdvd' : s' ∣ max s s') (ht : t.intWidth? = some w) (ht' : t'.intWidth? = some w')
    (inputs : List Value) :
    Emits (binaryElementwiseCommon x y) st fun p st' =>
      p.1 = ⟨max s s', widerType t t'⟩ ∧
      (Carries inputs st x ⟨s, t⟩ st' p.2.1 p.1
        fun as => (repeated (max s s') s as).map (widenedLane t (widerType t t'))) ∧
      Carries inputs st y ⟨s', t'⟩ st' p.2.2 p.1
        fun as => (repeated (max s s') s' as).map (widenedLane t' (widerType t t')) := by
  have hn : 0 < max s s' := hs.trans_le (le_max_left s s')
  unfold binaryElementwiseCommon
  refine Emits.bind (emits_tileSizeCheck hst hx hy hs hs' hdvd hdvd' inputs) ?_
  rintro ⟨x₁, y₁⟩ st₁ hgrows₁ ⟨hx₁, hy₁⟩
  refine Emits.bind (emits_dataTypeCheck hgrows₁.sound hx₁.1 hy₁.1 hn ht ht' inputs) ?_
  rintro ⟨x₂, y₂⟩ st₂ hgrows₂ ⟨hx₂, hy₂⟩
  refine Emits.varInfo_bind hgrows₂.sound hx₂.1 (Emits.pure hgrows₂.sound ⟨rfl, ?_, ?_⟩)
  · exact hx₁.trans hx₂ fun as has => length_repeated has hdvd
  · exact hy₁.trans hy₂ fun as has => length_repeated has hdvd'

end

end PyTorchSim.Analysis
