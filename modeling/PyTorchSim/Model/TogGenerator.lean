import Mathlib.Data.Int.Notation
import Mathlib.Data.List.Dedup

/-!
# The generator of tile operation graphs

A compiler pass leaves a raw graph: the nodes of a loop nest in pre-order, each with the number of
its parent.  The generator makes a node of each, closes every loop with a loop end, and connects
the nodes.  The attributes that a node only copies from its entry are left out, and so is the
stack of depths, which is written and never read.
-/

set_option autoImplicit false

namespace PyTorchSim.Model

/-- The classes of nodes.
SOURCE: onnx_utility.py:3-167 -/
inductive NodeClass where
  | node
  | loopIndexNode
  | loopEndNode
  | loadNode
  | storeNode
  | memoryWaitNode
  | computeNode
  | stonneNode
  | stonneTraceComputeNode
  | stonneTraceLoadNode
  | stonneTraceStoreNode
deriving DecidableEq

/-- A node, without the two sets of its neighbours.
SOURCE: onnx_utility.py:3-48 and tog_generator.py:127-131 -/
structure TogNode where
  id : ℤ
  nodeClass : NodeClass
  loopIdx : String := ""
  parent : ℤ
deriving DecidableEq

/-- The `node_type` of an entry; a DMA is a load or a store.
SOURCE: tog_generator.py:31-39 and 103-107 -/
inductive NodeKind where
  | base
  | compute
  | loop
  | dma (isWrite : Bool)
  | dmaWait
  | stonne
  | stonneTraceCompute
  | stonneTraceLoad
  | stonneTraceStore
  | unexpected
deriving DecidableEq

/-- An entry of the raw graph. -/
structure DumpData where
  nodeId : ℤ
  nodeType : NodeKind
  loopIndex : String := ""
  parents : List ℤ

/-- The ways in which the generator stops. -/
inductive TogFault where
  /-- An unexpected node type. -/
  | exit
  /-- An index into an empty list. -/
  | indexError
deriving DecidableEq

/-- SOURCE: tog_generator.py:75-125 -/
def NodeKind.nodeClass : NodeKind → Except TogFault NodeClass
  | .base => .ok .node
  | .compute => .ok .computeNode
  | .loop => .ok .loopIndexNode
  | .dma isWrite => .ok (if isWrite then .storeNode else .loadNode)
  | .dmaWait => .ok .memoryWaitNode
  | .stonne => .ok .stonneNode
  | .stonneTraceCompute => .ok .stonneTraceComputeNode
  | .stonneTraceLoad => .ok .stonneTraceLoadNode
  | .stonneTraceStore => .ok .stonneTraceStoreNode
  | .unexpected => .error .exit

/-- `dump_data["parents"][0]` -/
def DumpData.firstParent (d : DumpData) : Except TogFault ℤ :=
  match d.parents with
  | [] => .error .indexError
  | p :: _ => .ok p

/-- `nodeDict` is in the order of insertion, and `edges` are the pairs of a node and a child that
have been connected.
SOURCE: tog_generator.py:40-50 -/
structure TogGenerator where
  nodeDict : List (ℤ × TogNode) := []
  edges : List (TogNode × TogNode) := []
  newNodeId : ℤ := 0
  loopEndStack : List TogNode := []

namespace TogGenerator

/-- An assignment to a key of a dictionary: a key that is there keeps its place. -/
def setItem (key : ℤ) (n : TogNode) : List (ℤ × TogNode) → List (ℤ × TogNode)
  | [] => [(key, n)]
  | (k, m) :: rest => if k = key then (k, n) :: rest else (k, m) :: setItem key n rest

/-- `self.node_dict[n.id] = n` -/
def insert (g : TogGenerator) (n : TogNode) : TogGenerator :=
  { g with nodeDict := setItem n.id n g.nodeDict }

/-- SOURCE: onnx_utility.py:169-171 -/
def connectNodes (g : TogGenerator) (parent child : TogNode) : TogGenerator :=
  { g with edges := g.edges ++ [(parent, child)] }

/-- The parents of a node.  They are a set, and their order in the list is not specified; the
nodes of which the last one is taken have one parent.
SOURCE: onnx_utility.py:21-22 -/
def getParent (g : TogGenerator) (n : TogNode) : List TogNode :=
  ((g.edges.filter fun e => e.2 = n).map Prod.fst).dedup

/-- The node of an entry and, for a loop, its end.
SOURCE: tog_generator.py:69-133 -/
def newNodes (g : TogGenerator) (d : DumpData) :
    Except TogFault (TogGenerator × TogNode × Option TogNode) := do
  let nodeClass ← d.nodeType.nodeClass
  let (g, newEndNode) ←
    if d.nodeType = .loop then do
      let parent ← d.firstParent
      let endNode : TogNode :=
        { id := g.newNodeId, nodeClass := .loopEndNode, loopIdx := d.loopIndex, parent }
      pure ({ g with newNodeId := g.newNodeId + 1 }, some endNode)
    else pure (g, none)
  let parent ← if d.nodeId = 0 then pure (-1) else d.firstParent
  let loopIdx := if d.nodeType = .loop then d.loopIndex else ""
  return (g, { id := d.nodeId, nodeClass, loopIdx, parent }, newEndNode)

/-- The classes whose nodes a compute node waits for. -/
def isLoadOrWait (n : TogNode) : Bool :=
  n.nodeClass = .loadNode ∨ n.nodeClass = .memoryWaitNode

/-- Two nodes with one parent.
SOURCE: tog_generator.py:152-164 -/
def connectSibling (g : TogGenerator) (prevNode : List TogNode) (last newNode : TogNode) :
    Except TogFault TogGenerator :=
  if last.nodeClass = .loadNode ∧ newNode.nodeClass = .loadNode ∨
      last.nodeClass = .memoryWaitNode ∧ newNode.nodeClass = .memoryWaitNode then
    match (g.getParent last).getLast? with
    | none => .error .indexError
    | some p => .ok (g.connectNodes p newNode)
  else if isLoadOrWait last ∧ newNode.nodeClass = .computeNode then
    .ok ((prevNode.filter isLoadOrWait).foldl (fun g pn => g.connectNodes pn newNode) g)
  else .ok (g.connectNodes last newNode)

/-- The nodes that the first loop end is connected to, from the last one back: loads are passed.
SOURCE: tog_generator.py:170-174 -/
def closing : List TogNode → List TogNode
  | [] => []
  | n :: rest => n :: if n.nodeClass = .loadNode then closing rest else []

/-- The loop end beside the new node.
SOURCE: tog_generator.py:176-179 -/
def closeBeside (g : TogGenerator) (newNode lastEndNode : TogNode) (stack : List TogNode) :
    TogGenerator :=
  { (g.insert lastEndNode).connectNodes lastEndNode newNode with loopEndStack := stack }

/-- The loop ends up to the one beside the new node.
SOURCE: tog_generator.py:175-183 -/
def closeLoops (newNode : TogNode) :
    TogGenerator → TogNode → List TogNode → Except TogFault TogGenerator
  | g, lastEndNode, [] =>
    if lastEndNode.parent = newNode.parent then .ok (g.closeBeside newNode lastEndNode [])
    else .error .indexError
  | g, lastEndNode, endNode :: rest =>
    if lastEndNode.parent = newNode.parent then
      .ok (g.closeBeside newNode lastEndNode (endNode :: rest))
    else closeLoops newNode ((g.insert lastEndNode).connectNodes lastEndNode endNode) endNode rest

/-- The edges to a new node, where `last` is the last node of `prevNode`: the two have one parent,
or `last` is the parent, or some loops end between them.
SOURCE: tog_generator.py:152-183 -/
def link (g : TogGenerator) (prevNode : List TogNode) (last newNode : TogNode) :
    Except TogFault TogGenerator :=
  if last.parent = newNode.parent then g.connectSibling prevNode last newNode
  else if last.id = newNode.parent then .ok (g.connectNodes last newNode)
  else
    match g.loopEndStack with
    | [] => .error .indexError
    | lastEndNode :: stack =>
      closeLoops newNode
        ((closing prevNode.reverse).foldl (fun g n => g.connectNodes n lastEndNode) g)
        lastEndNode stack

/-- SOURCE: tog_generator.py:135-190 -/
def createNode (g : TogGenerator) (d : DumpData) (prevNode : List TogNode) :
    Except TogFault (TogGenerator × TogNode) := do
  let (g, newNode, newEndNode) ← g.newNodes d
  match prevNode.getLast? with
  | none => return (g.insert newNode, newNode)
  | some last =>
    let g ← g.link prevNode last newNode
    let g := { g with loopEndStack := newEndNode.toList ++ g.loopEndStack }
    return (g.insert newNode, newNode)

/-- One entry, with the nodes before it.
SOURCE: tog_generator.py:196-201 -/
def addEntry (s : TogGenerator × List TogNode) (d : DumpData) :
    Except TogFault (TogGenerator × List TogNode) := do
  let (g, newNode) ← s.1.createNode d s.2
  match s.2.getLast? with
  | none => return (g, s.2 ++ [newNode])
  | some last =>
    if last.parent = newNode.parent then return (g, s.2 ++ [newNode])
    else return (g, [newNode])

/-- The loop ends that are left.
SOURCE: tog_generator.py:204-210 -/
def linkRemaining (g : TogGenerator) (prevNode : TogNode) : List TogNode → TogGenerator
  | [] => { g with loopEndStack := [] }
  | endNode :: rest => ((g.insert endNode).connectNodes prevNode endNode).linkRemaining endNode rest

/-- SOURCE: tog_generator.py:192-210 -/
def parseGraph (rawGraph : List DumpData) : Except TogFault TogGenerator := do
  let (g, prevNode) ← rawGraph.foldlM addEntry ({ newNodeId := rawGraph.length + 1 }, [])
  match prevNode.getLast? with
  | none => throw .indexError
  | some last => return g.linkRemaining last g.loopEndStack

end TogGenerator

end PyTorchSim.Model
