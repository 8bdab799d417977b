import PyTorchSim.Library.ArithDialect

/-!
# Pointwise operations as arith operations

Each pointwise operation of Inductor is written as one operation of the arith dialect, behind the
broadcasts and extensions that bring its two operands to one size and one type.  What is known of
a variable is its tile size and its type.

The operations are written through a proxy: the code that an override gives becomes a line of the
buffer, and code that is in the buffer already gives the variable it has there.
-/

set_option autoImplicit false

namespace PyTorchSim.Frontend

open PyTorchSim.Library.Arith

/-! ## Types -/

inductive TorchDtype
  | float32 | float64 | float16 | int64 | int32 | int16 | int8 | uint8 | bool | bfloat16
  deriving DecidableEq, Repr

/-- `DTYPE_TO_MLIR`
SOURCE: PyTorchSimFrontend/mlir/mlir_common.py:44-55 -/
def TorchDtype.toMlir : TorchDtype → ElemType
  | float32 => .f32
  | float64 => .f64
  | float16 => .f16
  | int64 => .i64
  | int32 => .i32
  | int16 => .i16
  | int8 => .i8
  | uint8 => .i8
  | bool => .i8
  | bfloat16 => .bf16

/-- `MLIR_TO_BIT`
SOURCE: PyTorchSimFrontend/mlir/mlir_common.py:81-92 -/
def mlirToBit : ElemType → ℕ
  | .i1 => 1
  | .i8 => 8
  | .i16 => 16
  | .i32 => 32
  | .i64 => 64
  | .f16 => 16
  | .f32 => 32
  | .f64 => 64
  | .bf16 => 16
  | .index => 64

/-- `FLOAT_MLIR_TYPES`
SOURCE: PyTorchSimFrontend/mlir/mlir_common.py:94-96 -/
def IsFloatMlir (t : ElemType) : Prop := t ∈ [.f16, .f32, .f64, .bf16]

instance (t : ElemType) : Decidable (IsFloatMlir t) := inferInstanceAs (Decidable (t ∈ _))

/-! ## The buffer and what is known of its variables -/

abbrev Var := ℕ

structure VarInfo where
  tileSize : ℕ
  dtype : ElemType
  deriving DecidableEq, Repr

/-- `f"vector<{tile_size}x{dtype}>" if tile_size > 1 else dtype` -/
def VarInfo.shape (info : VarInfo) : VecType :=
  if info.tileSize > 1 then ⟨[info.tileSize], info.dtype⟩ else ⟨[], info.dtype⟩

inductive OpError
  | keyError
  | notImplementedError (message : String)
  | valueError (message : String)
  deriving DecidableEq, Repr

structure EmitState where
  buffer : List Op
  varInfo : Var → Option VarInfo

abbrev Emit := StateT EmitState (Except OpError)

/-- What an override returns: a new expression, or a variable that is there. -/
inductive Code
  | op (o : Op)
  | var (x : Var)
  deriving DecidableEq, Repr

/-- `V.kernel.var_info[operand]` -/
def varInfo (x : Var) : Emit VarInfo := do
  let st ← get
  match st.varInfo x with
  | some info => return info
  | none => throw .keyError

/-- The variable of the code: one that is in the buffer with it, or a new one. -/
def generate : Code → Emit Var
  | .var x => return x
  | .op o => do
    let st ← get
    match st.buffer.idxOf? o with
    | some x => return x
    | none =>
      set { st with buffer := st.buffer ++ [o] }
      return st.buffer.length

/-- SOURCE: PyTorchSimFrontend/mlir/mlir_common.py:905-906 -/
def registerVarInfo (x : Var) (info : VarInfo) : Emit Unit :=
  modify fun st => { st with varInfo := fun y => if y = x then some info else st.varInfo y }

/-- An operation called through the proxy.
SOURCE: PyTorchSimFrontend/mlir/mlir_common.py:960-981 -/
def ops (override : Emit (Code × VarInfo)) : Emit Var := do
  let (code, retInfo) ← override
  let csevar ← generate code
  registerVarInfo csevar retInfo
  return csevar

namespace ExtensionOverrides

/-! ## Sizes and types of the operands -/

/-- The constant of a number that is written as it is.
SOURCE: PyTorchSimFrontend/mlir/mlir_ops.py:54-73 -/
def constant (value : ℤ) (srcType : ElemType) : Emit (Code × VarInfo) :=
  return (.op (.constant value ⟨[], srcType⟩), ⟨1, srcType⟩)

/-- SOURCE: PyTorchSimFrontend/mlir/mlir_ops.py:103-113 -/
def broadcastUnflat (operand : Var) (targetSize : ℕ) : Emit (Code × VarInfo) := do
  let ⟨srcSize, dtype⟩ ← varInfo operand
  let outerDim := targetSize / srcSize
  return (.op (.broadcast operand ⟨[srcSize], dtype⟩ ⟨[outerDim, srcSize], dtype⟩),
    ⟨targetSize, dtype⟩)

/-- SOURCE: PyTorchSimFrontend/mlir/mlir_ops.py:75-101 -/
def broadcast (operand : Var) (targetSize : ℕ) : Emit (Code × VarInfo) := do
  let ⟨srcSize, dtype⟩ ← varInfo operand
  if srcSize > 1 then
    if targetSize % srcSize = 0 then
      let unflatOperand ← ops (broadcastUnflat operand targetSize)
      let outerDim := targetSize / srcSize
      return (.op (.shapeCast unflatOperand ⟨[outerDim, srcSize], dtype⟩ ⟨[targetSize], dtype⟩),
        ⟨targetSize, dtype⟩)
    else
      throw (.notImplementedError
        s!"Vector broadcast size mismatch: src={srcSize} cannot broadcast to target={targetSize}")
  else if srcSize = 1 then
    return (.op (.broadcast operand ⟨[], dtype⟩ ⟨[targetSize], dtype⟩), ⟨targetSize, dtype⟩)
  else throw (.valueError s!"Invalid source size: {srcSize}")

/-- SOURCE: PyTorchSimFrontend/mlir/mlir_ops.py:1089-1096 -/
def indexCast (operand : Var) (targetType : ElemType) : Emit (Code × VarInfo) := do
  let info ← varInfo operand
  let target : VarInfo := ⟨info.tileSize, targetType⟩
  return (.op (.cast .indexCast operand info.shape target.shape), target)

/-- SOURCE: PyTorchSimFrontend/mlir/mlir_ops.py:1059-1070 -/
def ext (operand : Var) (dtype : ElemType) : Emit (Code × VarInfo) := do
  let info ← varInfo operand
  let target : VarInfo := ⟨info.tileSize, dtype⟩
  let opcode := if IsFloatMlir dtype then CastOp.extf else CastOp.extui
  return (.op (.cast opcode operand info.shape target.shape), target)

/-- The type that a conversion is asked for, under PyTorch's name or MLIR's. -/
inductive CastTarget
  | torch (dtype : TorchDtype)
  | mlir (dtype : ElemType)
  deriving DecidableEq, Repr

def CastTarget.toMlir : CastTarget → ElemType
  | torch dtype => dtype.toMlir
  | mlir dtype => dtype

/-- The conversion between two types, neither of them `index`.
SOURCE: PyTorchSimFrontend/mlir/mlir_ops.py:181-222 -/
def castTo (operand : Var) (src dst : VarInfo) : Code × VarInfo :=
  let cast (op : CastOp) : Code × VarInfo := (.op (.cast op operand src.shape dst.shape), dst)
  if src.dtype = dst.dtype then (.var operand, dst)
  else
    let dstBits := mlirToBit dst.dtype
    let srcBits := mlirToBit src.dtype
    if ¬ IsFloatMlir src.dtype ∧ IsFloatMlir dst.dtype then cast .uitofp
    else if IsFloatMlir src.dtype ∧ ¬ IsFloatMlir dst.dtype then cast .fptosi
    else if ¬ IsFloatMlir src.dtype ∧ ¬ IsFloatMlir dst.dtype then
      if dstBits > srcBits then cast (if src.dtype = .i1 then .extui else .extsi)
      else if dstBits < srcBits then cast .trunci
      else (.var operand, dst)
    else
      if dstBits > srcBits then cast .extf
      else if dstBits < srcBits then cast .truncf
      else (.var operand, dst)

/-- SOURCE: PyTorchSimFrontend/mlir/mlir_ops.py:159-222 -/
def toDtype (operand : Var) (dstMlirDtype : CastTarget) : Emit (Code × VarInfo) := do
  let info ← varInfo operand
  let dst := dstMlirDtype.toMlir
  if dst = .index then
    if info.dtype = .index then return (.var operand, ⟨info.tileSize, .index⟩)
    else
      let cast ← ops (indexCast operand .index)
      return (.var cast, ⟨info.tileSize, .index⟩)
  else if info.dtype = .index then
    let operand ← ops (indexCast operand .i64)
    return castTo operand ⟨info.tileSize, .i64⟩ ⟨info.tileSize, dst⟩
  else return castTo operand info ⟨info.tileSize, dst⟩

/-- The tile size check of `binary_elementwise_common`.
SOURCE: PyTorchSimFrontend/mlir/mlir_ops.py:260-271 -/
def tileSizeCheck (operand1 operand2 : Var) : Emit (Var × Var) := do
  let lhs ← varInfo operand1
  let rhs ← varInfo operand2
  if lhs.tileSize > rhs.tileSize then
    let operand2 ← ops (broadcast operand2 lhs.tileSize)
    return (operand1, operand2)
  else if lhs.tileSize < rhs.tileSize then
    let operand1 ← ops (broadcast operand1 rhs.tileSize)
    return (operand1, operand2)
  else return (operand1, operand2)

/-- An `index` operand beside one of another type.
SOURCE: PyTorchSimFrontend/mlir/mlir_ops.py:276-297 -/
def fromIndex (operand : Var) (target : ElemType) : Emit Var := do
  if IsFloatMlir target then
    let operand ← ops (indexCast operand .i64)
    ops (toDtype operand (.mlir target))
  else ops (indexCast operand target)

/-- The data type check of `binary_elementwise_common`.
SOURCE: PyTorchSimFrontend/mlir/mlir_ops.py:274-311 -/
def dataTypeCheck (operand1 operand2 : Var) : Emit (Var × Var) := do
  let type1 := (← varInfo operand1).dtype
  let type2 := (← varInfo operand2).dtype
  if type1 = type2 then return (operand1, operand2)
  else if type1 = .index then
    let operand1 ← fromIndex operand1 type2
    return (operand1, operand2)
  else if type2 = .index then
    let operand2 ← fromIndex operand2 type1
    return (operand1, operand2)
  else if ¬ IsFloatMlir type1 ∧ IsFloatMlir type2 then
    let operand1 ← ops (toDtype operand1 (.mlir type2))
    return (operand1, operand2)
  else if IsFloatMlir type1 ∧ ¬ IsFloatMlir type2 then
    let operand2 ← ops (toDtype operand2 (.mlir type1))
    return (operand1, operand2)
  else if mlirToBit type1 > mlirToBit type2 then
    let operand2 ← ops (ext operand2 type1)
    return (operand1, operand2)
  else if mlirToBit type1 < mlirToBit type2 then
    let operand1 ← ops (ext operand1 type2)
    return (operand1, operand2)
  else return (operand1, operand2)

/-- SOURCE: PyTorchSimFrontend/mlir/mlir_ops.py:255-316 -/
def binaryElementwiseCommon (operand1 operand2 : Var) : Emit (VarInfo × Var × Var) := do
  let (operand1, operand2) ← tileSizeCheck operand1 operand2
  let (operand1, operand2) ← dataTypeCheck operand1 operand2
  let info ← varInfo operand1
  return (info, operand1, operand2)

/-! ## Operations of two operands -/

/-- An operation that is written with the opcode for the common type. -/
def binaryElementwise (opcode : ElemType → Except OpError BinaryOp) (operand1 operand2 : Var) :
    Emit (Code × VarInfo) := do
  let (info, operand1, operand2) ← binaryElementwiseCommon operand1 operand2
  let op ← opcode info.dtype
  return (.op (.binary op operand1 operand2 info.shape), info)

/-- One opcode for the floating point types, another for the integers. -/
def byType (float : FloatOp) (int : IntOp) (retType : ElemType) : Except OpError BinaryOp :=
  return if IsFloatMlir retType then .float float else .int int

/-- An opcode for integers, of an operation that raises on the floating point types. -/
def integersOnly (error : OpError) (int : IntOp) (retType : ElemType) : Except OpError BinaryOp :=
  if IsFloatMlir retType then throw error else return .int int

/-- SOURCE: PyTorchSimFrontend/mlir/mlir_ops.py:383-393 -/
def minimum := binaryElementwise (byType .minimumf .minsi)

/-- SOURCE: PyTorchSimFrontend/mlir/mlir_ops.py:395-405 -/
def maximum := binaryElementwise (byType .maximumf .maxsi)

/-- SOURCE: PyTorchSimFrontend/mlir/mlir_ops.py:886-892 -/
def add := binaryElementwise (byType .addf .addi)

/-- SOURCE: PyTorchSimFrontend/mlir/mlir_ops.py:894-900 -/
def sub := binaryElementwise (byType .subf .subi)

/-- SOURCE: PyTorchSimFrontend/mlir/mlir_ops.py:902-908 -/
def mul := binaryElementwise (byType .mulf .muli)

/-- SOURCE: PyTorchSimFrontend/mlir/mlir_ops.py:923-929 -/
def and_ := binaryElementwise fun _ => .ok (.int .andi)

/-- SOURCE: PyTorchSimFrontend/mlir/mlir_ops.py:931-937 -/
def or_ := binaryElementwise fun _ => .ok (.int .ori)

/-- SOURCE: PyTorchSimFrontend/mlir/mlir_ops.py:939-945 -/
def xor := binaryElementwise fun _ => .ok (.int .xori)

/-- SOURCE: PyTorchSimFrontend/mlir/mlir_ops.py:955-965 -/
def truncdiv := binaryElementwise
  (integersOnly (.valueError "truncdiv is strictly for integers. Use truediv for floats.") .divsi)

/-- SOURCE: PyTorchSimFrontend/mlir/mlir_ops.py:967-978 -/
def floordiv := binaryElementwise
  (integersOnly (.valueError "floordiv implementation expects integers based on definition.")
    .floordivsi)

/-- SOURCE: PyTorchSimFrontend/mlir/mlir_ops.py:1007-1016 -/
def mod := binaryElementwise
  (integersOnly (.notImplementedError "Not support remainder operation for floating point") .remsi)

/-- SOURCE: PyTorchSimFrontend/mlir/mlir_ops.py:1018-1029 -/
def remainder := binaryElementwise (byType .remf .remsi)

/-- A comparison, with a predicate for floating point operands and one for integers. -/
def comparison (float : FloatPredicate) (int : IntPredicate) (operand1 operand2 : Var) :
    Emit (Code × VarInfo) := do
  let (info, operand1, operand2) ← binaryElementwiseCommon operand1 operand2
  let op := if IsFloatMlir info.dtype then Op.cmpf float operand1 operand2 info.shape
    else Op.cmpi int operand1 operand2 info.shape
  return (.op op, ⟨info.tileSize, .i1⟩)

/-- SOURCE: PyTorchSimFrontend/mlir/mlir_ops.py:790-804 -/
def eq := comparison .oeq .eq

/-- SOURCE: PyTorchSimFrontend/mlir/mlir_ops.py:806-820 -/
def ne := comparison .one .ne

/-- SOURCE: PyTorchSimFrontend/mlir/mlir_ops.py:822-836 -/
def lt := comparison .olt .slt

/-- SOURCE: PyTorchSimFrontend/mlir/mlir_ops.py:838-852 -/
def gt := comparison .ogt .sgt

/-- SOURCE: PyTorchSimFrontend/mlir/mlir_ops.py:854-868 -/
def le := comparison .ole .sle

/-- SOURCE: PyTorchSimFrontend/mlir/mlir_ops.py:870-884 -/
def ge := comparison .oge .sge

/-! ## Conditions -/

/-- The zero that an operand is compared with.
SOURCE: PyTorchSimFrontend/mlir/mlir_ops.py:1078-1080 -/
def constZeroFor (info : VarInfo) : Emit Var := do
  let constZero ← ops (constant 0 info.dtype)
  if info.tileSize > 1 then ops (broadcast constZero info.tileSize) else return constZero

/-- SOURCE: PyTorchSimFrontend/mlir/mlir_ops.py:1072-1082 -/
def toBool (operand : Var) : Emit (Code × VarInfo) := do
  let info ← varInfo operand
  if info.dtype = .i1 then return (.var operand, ⟨info.tileSize, .i1⟩)
  else
    let constZero ← constZeroFor info
    let ret ← ops (ne operand constZero)
    return (.var ret, ⟨info.tileSize, .i1⟩)

/-- The sizes of the condition and of the two operands it chooses from.
SOURCE: PyTorchSimFrontend/mlir/mlir_ops.py:146-150 -/
def matchCondition (condSize tileSize : ℕ) (condition operand1 operand2 : Var) :
    Emit (Var × Var × Var) := do
  if condSize < tileSize then
    let condition ← ops (broadcast condition tileSize)
    return (condition, operand1, operand2)
  else if condSize > tileSize then
    let operand1 ← ops (broadcast operand1 condSize)
    let operand2 ← ops (broadcast operand2 condSize)
    return (condition, operand1, operand2)
  else return (condition, operand1, operand2)

/-- `where`; at tile size 1 the text of the condition's type is empty.
SOURCE: PyTorchSimFrontend/mlir/mlir_ops.py:140-157 -/
def whereOp (condition operand1 operand2 : Var) : Emit (Code × VarInfo) := do
  let (info, operand1, operand2) ← binaryElementwiseCommon operand1 operand2
  let condType ← varInfo condition
  let condition ← ops (toBool condition)
  let (condition, operand1, operand2) ←
    matchCondition condType.tileSize info.tileSize condition operand1 operand2
  let info ← varInfo operand1
  let condShape := if info.tileSize > 1 then some ⟨[info.tileSize], .i1⟩ else none
  return (.op (.select condition operand1 operand2 condShape info.shape), info)

/-- `ops.to_bool` of an operand that is no `i1` yet. -/
def asBool (operand : Var) : Emit Var := do
  if (← varInfo operand).dtype ≠ .i1 then ops (toBool operand) else return operand

/-- A logical operation: a bitwise one on the truth of its operands. -/
def logical (bitwise : Var → Var → Emit (Code × VarInfo)) (operand1 operand2 : Var) :
    Emit (Code × VarInfo) := do
  let operand1 ← asBool operand1
  let operand2 ← asBool operand2
  let result ← ops (bitwise operand1 operand2)
  return (.var result, ← varInfo result)

/-- SOURCE: PyTorchSimFrontend/mlir/mlir_ops.py:603-610 -/
def logicalAnd := logical and_

/-- SOURCE: PyTorchSimFrontend/mlir/mlir_ops.py:612-619 -/
def logicalOr := logical or_

/-- SOURCE: PyTorchSimFrontend/mlir/mlir_ops.py:621-628 -/
def logicalXor := logical xor

/-- A bitwise operation, which is not for floating point operands; the three of them raise with the
same text. -/
def bitwise (op : Var → Var → Emit (Code × VarInfo)) (operand1 operand2 : Var) :
    Emit (Code × VarInfo) := do
  if IsFloatMlir (← varInfo operand1).dtype ∨ IsFloatMlir (← varInfo operand2).dtype then
    throw (.valueError "Bitwise AND not supported for floats")
  else
    let result ← ops (op operand1 operand2)
    return (.var result, ← varInfo result)

/-- SOURCE: PyTorchSimFrontend/mlir/mlir_ops.py:639-645 -/
def bitwiseAnd := bitwise and_

/-- SOURCE: PyTorchSimFrontend/mlir/mlir_ops.py:657-664 -/
def bitwiseOr := bitwise or_

/-- SOURCE: PyTorchSimFrontend/mlir/mlir_ops.py:666-672 -/
def bitwiseXor := bitwise xor

/-! ## Operations of one operand -/

/-- SOURCE: PyTorchSimFrontend/mlir/mlir_ops.py:765-777 -/
def neg (operand : Var) : Emit (Code × VarInfo) := do
  let info ← varInfo operand
  if IsFloatMlir info.dtype then
    let operand ← ops (toDtype operand (.mlir .f32))
    let cast : VarInfo := ⟨info.tileSize, (← varInfo operand).dtype⟩
    return (.op (.negf operand cast.shape), cast)
  else return (.op (.negf operand info.shape), info)

/-- SOURCE: PyTorchSimFrontend/mlir/mlir_ops.py:1031-1034 -/
def square (operand : Var) : Emit (Code × VarInfo) := do
  let result ← ops (mul operand operand)
  return (.var result, ← varInfo result)

end ExtensionOverrides

/-! ## Expressions -/

inductive BinaryName
  | add | sub | mul | minimum | maximum | eq | ne | lt | gt | le | ge
  | truncdiv | floordiv | mod | remainder
  | and_ | or_ | xor | logicalAnd | logicalOr | logicalXor | bitwiseAnd | bitwiseOr | bitwiseXor
  deriving DecidableEq, Repr

inductive UnaryName
  | neg | square
  deriving DecidableEq, Repr

/-- A node of an expression DAG.  An operand is the position of an earlier node, an input the
position of a loaded value. -/
inductive PointwiseNode
  | input (k : ℕ)
  | unary (op : UnaryName) (x : ℕ)
  | binary (op : BinaryName) (x y : ℕ)
  | where (condition x y : ℕ)
  | toDtype (x : ℕ) (dtype : ExtensionOverrides.CastTarget)
  deriving DecidableEq, Repr

open ExtensionOverrides

def BinaryName.override : BinaryName → Var → Var → Emit (Code × VarInfo)
  | add => ExtensionOverrides.add
  | sub => ExtensionOverrides.sub
  | mul => ExtensionOverrides.mul
  | minimum => ExtensionOverrides.minimum
  | maximum => ExtensionOverrides.maximum
  | eq => ExtensionOverrides.eq
  | ne => ExtensionOverrides.ne
  | lt => ExtensionOverrides.lt
  | gt => ExtensionOverrides.gt
  | le => ExtensionOverrides.le
  | ge => ExtensionOverrides.ge
  | truncdiv => ExtensionOverrides.truncdiv
  | floordiv => ExtensionOverrides.floordiv
  | mod => ExtensionOverrides.mod
  | remainder => ExtensionOverrides.remainder
  | and_ => ExtensionOverrides.and_
  | or_ => ExtensionOverrides.or_
  | xor => ExtensionOverrides.xor
  | logicalAnd => ExtensionOverrides.logicalAnd
  | logicalOr => ExtensionOverrides.logicalOr
  | logicalXor => ExtensionOverrides.logicalXor
  | bitwiseAnd => ExtensionOverrides.bitwiseAnd
  | bitwiseOr => ExtensionOverrides.bitwiseOr
  | bitwiseXor => ExtensionOverrides.bitwiseXor

def UnaryName.override : UnaryName → Var → Emit (Code × VarInfo)
  | neg => ExtensionOverrides.neg
  | square => ExtensionOverrides.square

/-- The variable of an earlier node. -/
def nodeVar (vars : List Var) (x : ℕ) : Emit Var :=
  match vars[x]? with
  | some y => return y
  | none => throw .keyError

/-- One node of an expression, over the variables of the nodes before it. -/
def emitNode (inputs : List VarInfo) (vars : List Var) : PointwiseNode → Emit Var
  | .input k =>
    match inputs[k]? with
    | some info => ops (return (.op (.input k info.shape), info))
    | none => throw .keyError
  | .unary op x => do
    let x ← nodeVar vars x
    ops (op.override x)
  | .binary op x y => do
    let x ← nodeVar vars x
    let y ← nodeVar vars y
    ops (op.override x y)
  | .where condition x y => do
    let condition ← nodeVar vars condition
    let x ← nodeVar vars x
    let y ← nodeVar vars y
    ops (whereOp condition x y)
  | .toDtype x dtype => do
    let x ← nodeVar vars x
    ops (toDtype x dtype)

/-- The nodes of an expression, one after the other, with the variable of each. -/
def emitNodes (inputs : List VarInfo) (nodes : List PointwiseNode) : Emit (List Var) :=
  nodes.foldlM (fun vars node => do return vars ++ [← emitNode inputs vars node]) []

/-- The translation of an expression, from an empty buffer. -/
def translate (inputs : List VarInfo) (nodes : List PointwiseNode) :
    Except OpError (List Var × EmitState) :=
  (emitNodes inputs nodes).run ⟨[], fun _ => none⟩

end PyTorchSim.Frontend
