import PyTorchSim.Model.TogGenerator
import PyTorchSim.Model.TogParser

/-!
# The file of a tile operation graph

The generator writes its nodes to a file, in the order of insertion and without the root.  A node
has a name, which is made of its class and its number, and the names of the nodes it comes after.
The parser reads the nodes one after the other: a stack of loops tells the loop that a node belongs
to, and the names tell the nodes that it is a child of.

A pointer to a node of the parser is the place of the node in the file.  The attributes of the nodes
are given by the place as well.
-/

set_option autoImplicit false

namespace PyTorchSim.Model

/-- `torchsim_name`, the name of the class and the number.
SOURCE: onnx_utility.py:4-6 -/
structure NodeName where
  nodeClass : NodeClass
  id : ℤ
deriving DecidableEq

/-- A node of the file.  Its output is called after it, and its inputs are such outputs.
SOURCE: onnx_utility.py:27-48 -/
structure NodeProto where
  name : NodeName
  input : List NodeName
deriving DecidableEq

def TogNode.name (n : TogNode) : NodeName := ⟨n.nodeClass, n.id⟩

namespace TogGenerator

/-- SOURCE: onnx_utility.py:27-31 -/
def toOnnx (g : TogGenerator) (n : TogNode) : NodeProto where
  name := n.name
  input := (g.getParent n).map TogNode.name

/-- The nodes of the file.  The first one behind the root has no inputs.
SOURCE: tog_generator.py:212-215 and 228-231 -/
def generateTileGraph (g : TogGenerator) : List NodeProto :=
  match (g.nodeDict.map Prod.snd).tail with
  | [] => []
  | first :: rest => { name := first.name, input := [] } :: rest.map g.toOnnx

end TogGenerator

/-- The ways in which reading stops the program. -/
inductive ReaderFault where
  /-- A node type that the parser does not know. -/
  | exit
  /-- `.at` throws. -/
  | outOfRange
  /-- The use of a null pointer. -/
  | nullPointer
deriving DecidableEq

/-- What the parser holds while it reads the nodes.
SOURCE: TileGraphParser.h:37-62 and 134-153 -/
structure TogReader where
  tileVec : List NodeName := []
  outputMap : NodeName → Option ℕ := fun _ => none
  loopNodes : List (List ℕ) := []
  loopStackPointer : ℤ := 0
  ownerLoop : ℕ → Option ℕ := fun _ => none
  bodyNode : ℕ → List ℕ := fun _ => []
  child : ℕ → List ℕ := fun _ => []

namespace TogReader

/-- The loop that is open.
SOURCE: TileGraphParser.cc:925-929 -/
def getTopLoop (r : TogReader) : Except ReaderFault (Option ℕ) :=
  if r.loopNodes.isEmpty then .ok none
  else if r.loopStackPointer ≤ 0 then .error .outOfRange
  else
    match r.loopNodes[(r.loopStackPointer - 1).toNat]?.bind List.getLast? with
    | none => .error .outOfRange
    | some l => .ok (some l)

/-- `add_child` -/
def addChild (r : TogReader) (p i : ℕ) : TogReader :=
  { r with child := Function.update r.child p (r.child p ++ [i]) }

/-- `owner->add_body`, if there is an owner.
SOURCE: TileGraphParser.cc:883-886 -/
def addBody (r : TogReader) (owner : Option ℕ) (i : ℕ) : TogReader :=
  match owner with
  | none => r
  | some l => { r with bodyNode := Function.update r.bodyNode l (r.bodyNode l ++ [i]) }

/-- A node and one of its inputs.  A loop stands for its end, and the start of a loop is no parent.
SOURCE: TileGraphParser.cc:893-902 -/
def linkParent (i : ℕ) (r : TogReader) (input : NodeName) : Except ReaderFault TogReader :=
  match r.outputMap input with
  | none => .error .nullPointer
  | some p =>
    match (r.tileVec[p]?).map NodeName.nodeClass with
    | some .loopEndNode =>
      match r.ownerLoop p with
      | none => .error .nullPointer
      | some l => .ok (r.addChild l i)
    | some .loopIndexNode => .ok r
    | _ => .ok (r.addChild p i)

/-- SOURCE: TileGraphParser.cc:871-903 -/
def registerTile (r : TogReader) (n : NodeProto) : Except ReaderFault TogReader := do
  let i := r.tileVec.length
  let owner ← r.getTopLoop
  let r := { r with
    outputMap := Function.update r.outputMap n.name (some i)
    tileVec := r.tileVec ++ [n.name]
    ownerLoop := Function.update r.ownerLoop i owner }
  let r := r.addBody owner i
  if n.name.nodeClass = .loopEndNode then return r
  else n.input.foldlM (linkParent i) r

/-- SOURCE: TileGraphParser.cc:864-869 -/
def registerLoop (r : TogReader) (i : ℕ) : Except ReaderFault TogReader :=
  if r.loopStackPointer < 0 then .error .outOfRange
  else
    let depth := r.loopStackPointer.toNat
    let loops := r.loopNodes ++ List.replicate (depth + 1 - r.loopNodes.length) []
    .ok { r with loopNodes := loops.modify depth (· ++ [i]) }

/-- SOURCE: TileGraphParser.cc:128-151 and 759-807 -/
def readNode (r : TogReader) (n : NodeProto) : Except ReaderFault TogReader :=
  match n.name.nodeClass with
  | .node => .error .exit
  | .loopIndexNode => do
    let i := r.tileVec.length
    let r ← r.registerTile n
    let r ← r.registerLoop i
    return { r with loopStackPointer := r.loopStackPointer + 1 }
  | .loopEndNode => do
    let r ← r.registerTile n
    return { r with loopStackPointer := r.loopStackPointer - 1 }
  | _ => r.registerTile n

/-- SOURCE: TileGraphParser.cc:759-807 -/
def read (file : List NodeProto) : Except ReaderFault TogReader :=
  file.foldlM readNode {}

end TogReader

/-- The attributes of the nodes, by their places in the file. -/
structure NodeAttributes where
  memory : ℕ → TileMemoryNode
  wait : ℕ → TileMemoryWaitNode
  compute : ℕ → TileComputeNode
  loop : ℕ → LoopHeader

end PyTorchSim.Model
