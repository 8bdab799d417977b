import PyTorchSim.Library.StraightLine

/-!
# The integer part of the arith dialect

Operations of MLIR's `arith` and `vector` dialects over scalars and vectors, with the types they are
written with.  Integers are signless: a lane is a bit pattern, and each operation chooses how to
read it.  An operation has no value where MLIR rejects it, as with operands of other types than the
ones written, and where its behaviour is undefined, as with a division by zero or by a division of
the least number by minus one.

Of the floating point operations only the conversion from an unsigned integer has a value here; its
result is rounded to nearest, ties to even.
-/

set_option autoImplicit false

namespace PyTorchSim.Library.Arith

/-! ## Types -/

inductive ElemType
  | i1 | i8 | i16 | i32 | i64 | f16 | bf16 | f32 | f64 | index
  deriving DecidableEq, Repr

namespace ElemType

/-- The width of an integer type. -/
def intWidth? : ElemType → Option ℕ
  | i1 => some 1
  | i8 => some 8
  | i16 => some 16
  | i32 => some 32
  | i64 => some 64
  | _ => none

/-- The digits of a floating point type, the leading one included. -/
def precision? : ElemType → Option ℕ
  | f16 => some 11
  | bf16 => some 8
  | f32 => some 24
  | f64 => some 53
  | _ => none

end ElemType

/-- A scalar (no sizes) or a vector type. -/
structure VecType where
  dims : List ℕ
  elem : ElemType
  deriving DecidableEq, Repr

/-! ## Values -/

/-- A floating point number that an integer is rounded to. -/
inductive FloatValue
  | finite (n : ℤ)
  | infinity
  deriving DecidableEq, Repr

inductive Lane
  | bits (w : ℕ) (b : BitVec w)
  | real (x : FloatValue)
  deriving DecidableEq, Repr

structure Value where
  type : VecType
  lanes : List Lane
  deriving DecidableEq, Repr

/-- `n` to `p` digits, to nearest and ties to even. -/
def roundNearestEven (p n : ℕ) : ℕ :=
  let unit := 2 ^ (n.log2 + 1 - p)
  let q := n / unit
  let r := n % unit
  if 2 * r < unit ∨ 2 * r = unit ∧ q % 2 = 0 then q * unit else (q + 1) * unit

/-- The number of a floating point type that a natural number is rounded to.  `f16` is the only type
whose range ends below `2 ^ 64`. -/
def floatOfNat? (t : ElemType) (n : ℕ) : Option FloatValue :=
  t.precision?.map fun p =>
    let m := roundNearestEven p n
    if t = .f16 ∧ 2 ^ 16 ≤ m then .infinity else .finite m

/-! ## Operations -/

inductive CastOp
  | extui | extsi | trunci | uitofp | fptosi | extf | truncf | indexCast
  deriving DecidableEq, Repr

inductive IntOp
  | addi | subi | muli | divsi | floordivsi | remsi | minsi | maxsi | andi | ori | xori
  deriving DecidableEq, Repr

inductive FloatOp
  | addf | subf | mulf | remf | minimumf | maximumf
  deriving DecidableEq, Repr

inductive BinaryOp
  | int (op : IntOp)
  | float (op : FloatOp)
  deriving DecidableEq, Repr

inductive IntPredicate
  | eq | ne | slt | sle | sgt | sge
  deriving DecidableEq, Repr

inductive FloatPredicate
  | oeq | one | olt | ole | ogt | oge
  deriving DecidableEq, Repr

/-- An operation as it is written, with the types behind the colon.  A `select` whose condition type
is missing has nothing in front of the comma between its two types. -/
inductive Op
  | input (k : ℕ) (type : VecType)
  | constant (c : ℤ) (type : VecType)
  | broadcast (x : ℕ) (src dst : VecType)
  | shapeCast (x : ℕ) (src dst : VecType)
  | cast (op : CastOp) (x : ℕ) (src dst : VecType)
  | binary (op : BinaryOp) (x y : ℕ) (type : VecType)
  | cmpi (p : IntPredicate) (x y : ℕ) (type : VecType)
  | cmpf (p : FloatPredicate) (x y : ℕ) (type : VecType)
  | select (c x y : ℕ) (condType : Option VecType) (type : VecType)
  | negf (x : ℕ) (type : VecType)
  deriving DecidableEq, Repr

namespace Op

def uses : Op → List ℕ
  | input _ _ | constant _ _ => []
  | broadcast x _ _ | shapeCast x _ _ | cast _ x _ _ | negf x _ => [x]
  | binary _ x y _ | cmpi _ x y _ | cmpf _ x y _ => [x, y]
  | select c x y _ _ => [c, x, y]

/-- The type of the result. -/
def type : Op → VecType
  | input _ t | constant _ t | broadcast _ _ t | shapeCast _ _ t | cast _ _ _ t => t
  | binary _ _ _ t | select _ _ _ _ t | negf _ t => t
  | cmpi _ _ _ t | cmpf _ _ _ t => ⟨t.dims, .i1⟩

end Op

/-! ## Meaning of the operations on a lane -/

/-- Dividing the least signed number by minus one is undefined, as is dividing by zero. -/
def DivUndefined {w : ℕ} (a b : BitVec w) : Prop :=
  b.toInt = 0 ∨ a.toInt = -2 ^ (w - 1) ∧ b.toInt = -1

instance {w : ℕ} (a b : BitVec w) : Decidable (DivUndefined a b) :=
  inferInstanceAs (Decidable (_ ∨ _))

def IntOp.apply {w : ℕ} (op : IntOp) (a b : BitVec w) : Option (BitVec w) :=
  match op with
  | addi => some (a + b)
  | subi => some (a - b)
  | muli => some (a * b)
  | divsi => if DivUndefined a b then none else some (a.sdiv b)
  | floordivsi =>
    if DivUndefined a b then none else some (BitVec.ofInt w (a.toInt.fdiv b.toInt))
  | remsi => if b.toInt = 0 then none else some (a.srem b)
  | minsi => some (if a.slt b then a else b)
  | maxsi => some (if b.slt a then a else b)
  | andi => some (a &&& b)
  | ori => some (a ||| b)
  | xori => some (a ^^^ b)

def IntOp.lane (op : IntOp) : Lane → Lane → Option Lane
  | .bits w a, .bits w' b => if w = w' then (op.apply a (b.setWidth w)).map (.bits w) else none
  | _, _ => none

def IntPredicate.apply {w : ℕ} (p : IntPredicate) (a b : BitVec w) : Bool :=
  match p with
  | eq => a == b
  | ne => a != b
  | slt => a.slt b
  | sle => a.sle b
  | sgt => b.slt a
  | sge => b.sle a

def IntPredicate.lane (p : IntPredicate) : Lane → Lane → Option Lane
  | .bits w a, .bits w' b =>
    if w = w' then some (.bits 1 (BitVec.ofBool (p.apply a (b.setWidth w)))) else none
  | _, _ => none

/-- The types a conversion is between, with the widths it is for. -/
def CastOp.WellTyped (op : CastOp) (src dst : ElemType) : Prop :=
  match op, src.intWidth?, dst.intWidth? with
  | extui, some w, some w' | extsi, some w, some w' => w < w'
  | trunci, some w, some w' => w' < w
  | uitofp, some _, none => dst.precision?.isSome
  | _, _, _ => False

instance (op : CastOp) (src dst : ElemType) : Decidable (op.WellTyped src dst) := by
  unfold CastOp.WellTyped
  split <;> infer_instance

def CastOp.lane (op : CastOp) (dst : ElemType) : Lane → Option Lane
  | .bits _ b =>
    match op with
    | extui => dst.intWidth?.map fun w => .bits w (b.setWidth w)
    | extsi => dst.intWidth?.map fun w => .bits w (b.signExtend w)
    | trunci => dst.intWidth?.map fun w => .bits w (b.setWidth w)
    | uitofp => (floatOfNat? dst b.toNat).map .real
    | _ => none
  | .real _ => none

def selectLane : Lane → Lane → Lane → Option Lane
  | .bits _ c, x, y => some (if c = 0 then y else x)
  | .real _, _, _ => none

/-! ## Meaning of an operation -/

/-- The lanes of a variable, where it has the type it is used at. -/
def lanesAt (env : ℕ → Option Value) (x : ℕ) (t : VecType) : Option (List Lane) :=
  (env x).bind fun v => if v.type = t then some v.lanes else none

def Op.eval (inputs : List Value) (op : Op) (env : ℕ → Option Value) : Option Value :=
  match op with
  | .input k t => inputs[k]?.bind fun v => if v.type = t then some v else none
  | .constant c t =>
    t.elem.intWidth?.bind fun w =>
      if t.dims = [] then some ⟨t, [.bits w (BitVec.ofInt w c)]⟩ else none
  | .broadcast x src dst =>
    (lanesAt env x src).bind fun ls =>
      if src.elem = dst.elem ∧ src.dims <:+ dst.dims then
        let outer := dst.dims.take (dst.dims.length - src.dims.length)
        some ⟨dst, (List.replicate outer.prod ls).flatten⟩
      else none
  | .shapeCast x src dst =>
    (lanesAt env x src).bind fun ls =>
      if src.elem = dst.elem ∧ src.dims.prod = dst.dims.prod then some ⟨dst, ls⟩ else none
  | .cast op x src dst =>
    (lanesAt env x src).bind fun ls =>
      if src.dims = dst.dims ∧ op.WellTyped src.elem dst.elem then
        (ls.mapM (op.lane dst.elem)).map (⟨dst, ·⟩)
      else none
  | .binary (.int op) x y t =>
    (lanesAt env x t).bind fun ls => (lanesAt env y t).bind fun ms =>
      ((ls.zip ms).mapM fun l => op.lane l.1 l.2).map (⟨t, ·⟩)
  | .cmpi p x y t =>
    (lanesAt env x t).bind fun ls => (lanesAt env y t).bind fun ms =>
      ((ls.zip ms).mapM fun l => p.lane l.1 l.2).map (⟨⟨t.dims, .i1⟩, ·⟩)
  | .select c x y (some condType) t =>
    if condType = ⟨t.dims, .i1⟩ then
      (lanesAt env c condType).bind fun cs => (lanesAt env x t).bind fun ls =>
        (lanesAt env y t).bind fun ms =>
          ((cs.zip (ls.zip ms)).mapM fun l => selectLane l.1 l.2.1 l.2.2).map (⟨t, ·⟩)
    else none
  | .select _ _ _ none _ | .binary (.float _) _ _ _ | .cmpf _ _ _ _ | .negf _ _ => none

theorem op_eval_local (inputs : List Value) :
    StraightLine.Local (Op.eval inputs) Op.uses := by
  intro op env env' h
  have hlanes : ∀ x ∈ op.uses, ∀ t, lanesAt env x t = lanesAt env' x t := by
    intro x hx t
    unfold lanesAt
    rw [h x hx]
  cases op with
  | input k t => rfl
  | constant c t => rfl
  | broadcast x src dst => simp only [Op.eval, hlanes x List.mem_cons_self]
  | shapeCast x src dst => simp only [Op.eval, hlanes x List.mem_cons_self]
  | cast op x src dst => simp only [Op.eval, hlanes x List.mem_cons_self]
  | binary op x y t =>
    cases op with
    | int op => simp only [Op.eval, hlanes x (by simp [Op.uses]), hlanes y (by simp [Op.uses])]
    | float op => rfl
  | cmpi p x y t =>
    simp only [Op.eval, hlanes x (by simp [Op.uses]), hlanes y (by simp [Op.uses])]
  | cmpf p x y t => rfl
  | select c x y condType t =>
    cases condType with
    | some condType =>
      simp only [Op.eval, hlanes c (by simp [Op.uses]), hlanes x (by simp [Op.uses]),
        hlanes y (by simp [Op.uses])]
    | none => rfl
  | negf x t => rfl

/-- The value of a variable of a program. -/
def value (inputs : List Value) (p : List Op) (x : ℕ) : Option Value :=
  StraightLine.value (Op.eval inputs) p x

/-- The operands of every operation are earlier variables. -/
def Scoped (p : List Op) : Prop := StraightLine.Scoped Op.uses p

section

variable {inputs : List Value} {p q : List Op} {op : Op} {x : ℕ}

theorem value_of_isPrefix (h : p <+: q) (hx : x < p.length) :
    value inputs q x = value inputs p x :=
  StraightLine.value_of_isPrefix h hx

theorem value_eq (hp : Scoped p) (hop : p[x]? = some op) :
    value inputs p x = op.eval inputs (value inputs p) :=
  StraightLine.value_eq (op_eval_local inputs) hp hop

theorem lanesAt_eq {env : ℕ → Option Value} {t : VecType} {ls : List Lane}
    (h : env x = some ⟨t, ls⟩) : lanesAt env x t = some ls := by
  unfold lanesAt
  rw [h]
  exact if_pos rfl

end

end PyTorchSim.Library.Arith
