import PyTorchSim.Frontend.MlirOps
import PyTorchSim.Library.TwosComplement

/-!
# What PyTorch means by a pointwise expression

A node of an expression has a value in PyTorch: a type and one number a lane, a boolean being `0` or
`1`.  Two operands are brought to the promoted type, and to one size by repeating the shorter one;
arithmetic is two's complement at the promoted width, `remainder` has the sign of the divisor and
`mod` that of the dividend, and the arithmetic of two booleans is logical where PyTorch has it.
Where PyTorch raises, as for a division by zero or a difference of booleans, there is no value, and
neither is there one for a conversion to a floating point type that does not hold the number
exactly.

A boolean is held in an `i1` when an operation computes it and in an `i8` when it is loaded, so that
a value comes with the type that holds it.
-/

set_option autoImplicit false

namespace PyTorchSim.Analysis

open PyTorchSim.Frontend PyTorchSim.Frontend.ExtensionOverrides
open PyTorchSim.Library PyTorchSim.Library.Arith

/-! ## Types -/

/-- The width of a boolean or a signed integer in promotions; the types without one are none of
these. -/
def promotionBits? : TorchDtype → Option ℕ
  | .bool => some 1
  | .int8 => some 8
  | .int16 => some 16
  | .int32 => some 32
  | .int64 => some 64
  | _ => none

/-- The type of two operands together: the wider one, and an integer before a boolean. -/
def promote (d d' : TorchDtype) : TorchDtype :=
  if (promotionBits? d).getD 0 < (promotionBits? d').getD 0 then d' else d

/-- The numbers of a boolean and of a signed integer type. -/
def InRange (d : TorchDtype) (v : ℤ) : Prop :=
  (d = .bool → v = 0 ∨ v = 1) ∧ (d ≠ .bool → ∀ w ∈ promotionBits? d, InSigned w v)

instance (d : TorchDtype) (v : ℤ) : Decidable (InRange d v) := inferInstanceAs (Decidable (_ ∧ _))

/-- The types that hold a value: a boolean is in an `i1` or in the `i8` it is loaded as. -/
def HeldIn (d : TorchDtype) (t : ElemType) : Prop := t = d.toMlir ∨ d = .bool ∧ t = .i1

instance (d : TorchDtype) (t : ElemType) : Decidable (HeldIn d t) :=
  inferInstanceAs (Decidable (_ ∨ _))

/-- The wider one of the types that hold two operands. -/
def widerType (t t' : ElemType) : ElemType := if mlirToBit t < mlirToBit t' then t' else t

/-! ## Values -/

structure TorchValue where
  dtype : TorchDtype
  held : ElemType
  lanes : List ℤ
  deriving DecidableEq, Repr

/-- A loaded operand: a boolean or a signed integer tensor, with a number for each lane. -/
structure PointwiseInput extends TorchValue where
  integer : (promotionBits? dtype).isSome
  heldIn : HeldIn dtype held
  inRange : ∀ v ∈ lanes, InRange dtype v
  nonempty : lanes ≠ []

def TorchValue.info (v : TorchValue) : VarInfo := ⟨v.lanes.length, v.held⟩

/-- A number in a lane of a type: the two's complement pattern, or the floating point number. -/
def encodeLane (t : ElemType) (v : ℤ) : Lane :=
  match t.intWidth? with
  | some w => .bits w (BitVec.ofInt w v)
  | none => .real (.finite v)

/-- What the variable of a value is to hold. -/
def TorchValue.encode (v : TorchValue) : Value := ⟨v.info.shape, v.lanes.map (encodeLane v.held)⟩

/-- The lanes of an operand repeated to a size; a size that is no multiple has none. -/
def broadcastLanes (n : ℕ) (lanes : List ℤ) : Option (List ℤ) :=
  if lanes.length ∣ n then some (List.replicate (n / lanes.length) lanes).flatten else none

/-! ## Operations on a lane -/

/-- A boolean as a number. -/
def truth (p : Prop) [Decidable p] : ℤ := if p then 1 else 0

/-- An operation that has a boolean result. -/
def relationMeaning (op : BinaryName) (a b : ℤ) : Option ℤ :=
  match op with
  | .eq => some (truth (a = b))
  | .ne => some (truth (a ≠ b))
  | .lt => some (truth (a < b))
  | .gt => some (truth (a > b))
  | .le => some (truth (a ≤ b))
  | .ge => some (truth (a ≥ b))
  | .logicalAnd => some (truth (a ≠ 0 ∧ b ≠ 0))
  | .logicalOr => some (truth (a ≠ 0 ∨ b ≠ 0))
  | .logicalXor => some (truth (a ≠ 0 ↔ b = 0))
  | _ => none

/-- Two booleans: what PyTorch has on them is logical. -/
def boolMeaning (op : BinaryName) (a b : ℤ) : Option ℤ :=
  match op with
  | .add | .maximum | .or_ | .bitwiseOr => some (max a b)
  | .mul | .minimum | .and_ | .bitwiseAnd => some (min a b)
  | .xor | .bitwiseXor => some (truth (a ≠ b))
  | .sub | .truncdiv | .floordiv | .mod | .remainder => none
  | op => relationMeaning op a b

/-- Two signed integers of `w` bits. -/
def intMeaning (op : BinaryName) (w : ℕ) (a b : ℤ) : Option ℤ :=
  match op with
  | .add => some ((a + b).bmod (2 ^ w))
  | .sub => some ((a - b).bmod (2 ^ w))
  | .mul => some ((a * b).bmod (2 ^ w))
  | .minimum => some (min a b)
  | .maximum => some (max a b)
  | .truncdiv => if b = 0 then none else some ((a.tdiv b).bmod (2 ^ w))
  | .floordiv => if b = 0 then none else some ((a.fdiv b).bmod (2 ^ w))
  | .mod => if b = 0 then none else some (a.tmod b)
  | .remainder => if b = 0 then none else some (a.fmod b)
  | .and_ | .bitwiseAnd => some (BitVec.ofInt w a &&& BitVec.ofInt w b).toInt
  | .or_ | .bitwiseOr => some (BitVec.ofInt w a ||| BitVec.ofInt w b).toInt
  | .xor | .bitwiseXor => some (BitVec.ofInt w a ^^^ BitVec.ofInt w b).toInt
  | op => relationMeaning op a b

/-- Two numbers of the promoted type. -/
def binaryMeaning (op : BinaryName) (d : TorchDtype) (a b : ℤ) : Option ℤ :=
  if d = .bool then boolMeaning op a b else (promotionBits? d).bind fun w => intMeaning op w a b

/-- The operations that look at the truth of their operands, each for itself. -/
def IsLogical (op : BinaryName) : Prop := op ∈ [.logicalAnd, .logicalOr, .logicalXor]

/-- The operations with a boolean result. -/
def IsRelation (op : BinaryName) : Prop := op ∈ [.eq, .ne, .lt, .gt, .le, .ge] ∨ IsLogical op

instance (op : BinaryName) : Decidable (IsLogical op) := inferInstanceAs (Decidable (op ∈ _))
instance (op : BinaryName) : Decidable (IsRelation op) := inferInstanceAs (Decidable (_ ∨ _))

/-- The type that a conversion is asked for. -/
def targetDtype? : CastTarget → Option TorchDtype
  | .torch d => some d
  | .mlir .i1 => some .bool
  | .mlir .i8 => some .int8
  | .mlir .i16 => some .int16
  | .mlir .i32 => some .int32
  | .mlir .i64 => some .int64
  | .mlir .f16 => some .float16
  | .mlir .bf16 => some .bfloat16
  | .mlir .f32 => some .float32
  | .mlir .f64 => some .float64
  | .mlir .index => none

/-- The floating point type holds the number as it is. -/
def FloatHolds (t : ElemType) (v : ℤ) : Prop := floatOfNat? t v.natAbs = some (.finite v.natAbs)

instance (t : ElemType) (v : ℤ) : Decidable (FloatHolds t v) := inferInstanceAs (Decidable (_ = _))

/-- A boolean or a signed integer in another type. -/
def convertMeaning (d : TorchDtype) (v : ℤ) : Option ℤ :=
  match d with
  | .bool => some (truth (v ≠ 0))
  | .uint8 => none
  | d =>
    match promotionBits? d with
    | some w => some (v.bmod (2 ^ w))
    | none => if FloatHolds d.toMlir v then some v else none

/-! ## Nodes -/

/-- A boolean or a signed integer. -/
def IsInteger (v : TorchValue) : Prop := (promotionBits? v.dtype).isSome

instance (v : TorchValue) : Decidable (IsInteger v) := inferInstanceAs (Decidable (_ = true))

/-- An operation of two operands, lane by lane. -/
def binaryValue (op : BinaryName) (u v : TorchValue) : Option TorchValue :=
  if IsInteger u ∧ IsInteger v then do
    let n := max u.lanes.length v.lanes.length
    let us ← broadcastLanes n u.lanes
    let vs ← broadcastLanes n v.lanes
    let d := promote u.dtype v.dtype
    let lanes ← (us.zip vs).mapM fun p => binaryMeaning op d p.1 p.2
    return if IsRelation op then ⟨.bool, .i1, lanes⟩ else ⟨d, widerType u.held v.held, lanes⟩
  else none

def unaryValue (op : UnaryName) (u : TorchValue) : Option TorchValue :=
  match op with
  | .neg =>
    if u.dtype = .bool then none
    else (promotionBits? u.dtype).map fun w =>
      { u with lanes := u.lanes.map fun a => (-a).bmod (2 ^ w) }
  | .square => binaryValue .mul u u

/-- `where`: the two operands at one size, then the condition with them. -/
def whereValue (c u v : TorchValue) : Option TorchValue :=
  if IsInteger c ∧ IsInteger u ∧ IsInteger v then do
    let m := max u.lanes.length v.lanes.length
    let n := max m c.lanes.length
    let cs ← broadcastLanes n c.lanes
    let us ← (broadcastLanes m u.lanes).bind (broadcastLanes n)
    let vs ← (broadcastLanes m v.lanes).bind (broadcastLanes n)
    return ⟨promote u.dtype v.dtype, widerType u.held v.held,
      (cs.zip (us.zip vs)).map fun p => if p.1 = 0 then p.2.2 else p.2.1⟩
  else none

def toDtypeValue (u : TorchValue) (target : CastTarget) : Option TorchValue :=
  if IsInteger u then do
    let d ← targetDtype? target
    let lanes ← u.lanes.mapM (convertMeaning d)
    return ⟨d, target.toMlir, lanes⟩
  else none

/-- The value of a node, over those of the nodes before it. -/
def nodeValue (inputs : List PointwiseInput) (vals : List TorchValue) :
    PointwiseNode → Option TorchValue
  | .input k => inputs[k]?.map (·.toTorchValue)
  | .unary op x => do unaryValue op (← vals[x]?)
  | .binary op x y => do binaryValue op (← vals[x]?) (← vals[y]?)
  | .where c x y => do whereValue (← vals[c]?) (← vals[x]?) (← vals[y]?)
  | .toDtype x target => do toDtypeValue (← vals[x]?) target

/-- The values of the nodes of an expression. -/
def torchValues (inputs : List PointwiseInput) (nodes : List PointwiseNode) :
    Option (List TorchValue) :=
  nodes.foldlM (fun vals node => (nodeValue inputs vals node).map fun v => vals ++ [v]) []

end PyTorchSim.Analysis
