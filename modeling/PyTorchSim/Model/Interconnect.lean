import PyTorchSim.Model.Dram
import PyTorchSim.Model.DMA
import PyTorchSim.Model.TileGraph

/-!
# The interconnect

A `mem_fetch` goes from the core that made it over the interconnect to a DRAM channel and back
as its own reply.  `SimpleInterconnect` has a queue for every pair of nodes and a queue of
arrivals for every node.  Its cycle moves at most one request to each node, the nodes that send
taking turns.

The pointer to a `mem_fetch` is `requestId`: the number of the request among those that left
its core.  A node number outside the arrays is a fault.
-/

set_option autoImplicit false

namespace PyTorchSim.Model

/-- SOURCE: Memfetch.h:19 -/
inductive MfType
  | readRequest
  | writeRequest
  | readReply
  | writeAck
  deriving DecidableEq, Repr

/-- A reply stays as it is; the source reports an error then.
SOURCE: Memfetch.h:65-72 -/
def MfType.setReply : MfType → MfType
  | .readRequest => .readReply
  | .writeRequest => .writeAck
  | m => m

/-- The type of a request that a core makes.
SOURCE: DMA.cc:151-153 -/
def MfType.request (isWrite : Bool) : MfType := if isWrite then .writeRequest else .readRequest

/-- The type of the reply to it. -/
def MfType.reply (isWrite : Bool) : MfType := if isWrite then .writeAck else .readReply

/-- A memory request outside its core.  `replies` counts the calls of `set_reply`; nothing but
the specification reads it.
SOURCE: Memfetch.h:23-103 -/
structure Access (ι : Type) where
  fetch : MemFetch ι
  coreId : ℕ
  requestId : ℕ
  mfType : MfType
  replies : ℕ := 0

namespace Access

variable {ι : Type}

/-- The request that is number `n` of those that leave a core.
SOURCE: Simulator.cc:138 -/
def ofFetch (coreId n : ℕ) (r : MemFetch ι) : Access ι :=
  { fetch := r, coreId := coreId, requestId := n, mfType := .request r.isWrite }

/-- SOURCE: Memfetch.h:65-72 -/
def setReply (a : Access ι) : Access ι :=
  { a with mfType := a.mfType.setReply, replies := a.replies + 1 }

/-- The request as an object: its core and its number there. -/
def key (a : Access ι) : ℕ × ℕ := (a.coreId, a.requestId)

end Access

/-- The ways in which the simulator stops the program. -/
inductive SimFault
  /-- A core stops it. -/
  | core (e : CoreFault)
  /-- A scheduler stops it. -/
  | dispatch (e : DispatchFault)
  /-- `core_cycle` exits on a tile that is not `INITIALIZED`. -/
  | invalidStatus
  /-- A core is given the tile that stands for none. -/
  | emptyTile
  /-- An exception: the partition of a core has no scheduler. -/
  | noPartition
  /-- The buffers of the interconnect are indexed by a node that does not exist. -/
  | nodeOutOfRange
  /-- The front of an empty queue is used. -/
  | emptyQueue
  /-- The hash function exits: it has no table for this number of channels. -/
  | noHashTable
  /-- The number of channels of a partition is 0 and divides the channel of a request. -/
  | divisionByZero

/-- SOURCE: Interconnect.h:49-53 -/
structure Entity (α : Type) where
  finishCycle : ℕ
  dest : ℕ
  access : α

/-- SOURCE: Interconnect.h:21-60, Interconnect.cc:3-17 -/
structure SimpleInterconnect (α : Type) where
  latency : ℕ
  nNodes : ℕ
  cycles : ℕ := 0
  inBuffers : ℕ → ℕ → List (Entity α) := fun _ _ => []
  outBuffers : ℕ → List α := fun _ => []
  rrNextSrc : ℕ → ℕ := fun _ => 0

namespace SimpleInterconnect

variable {α : Type}

/-- SOURCE: Interconnect.cc:20-22 -/
def running (_ : SimpleInterconnect α) : Bool := false

/-- Replaces the queue from one node to another. -/
def setIn (n : SimpleInterconnect α) (src dest : ℕ) (l : List (Entity α)) :
    SimpleInterconnect α :=
  { n with
    inBuffers :=
      Function.update n.inBuffers src (Function.update (n.inBuffers src) dest l) }

/-- Replaces the arrivals of a node. -/
def setOut (n : SimpleInterconnect α) (nid : ℕ) (l : List α) : SimpleInterconnect α :=
  { n with outBuffers := Function.update n.outBuffers nid l }

/-- The front of the queue from `src` to `dest`, if it has been there long enough.
SOURCE: Interconnect.cc:32-33 -/
def ready (n : SimpleInterconnect α) (dest src : ℕ) : Bool :=
  (n.inBuffers src dest).head?.any fun e => e.finishCycle ≤ n.cycles

/-- The first node in turn whose front for `dest` is ready.
SOURCE: Interconnect.cc:26-33 -/
def nextSrc (n : SimpleInterconnect α) (dest : ℕ) : Option ℕ :=
  ((List.range n.nNodes).map fun i => (n.rrNextSrc dest + i) % n.nNodes).find? (n.ready dest)

/-- The cycle of one destination.
SOURCE: Interconnect.cc:26-42 -/
def deliver (n : SimpleInterconnect α) (dest : ℕ) : SimpleInterconnect α :=
  match n.nextSrc dest with
  | none => n
  | some src => match n.inBuffers src dest with
    | [] => n
    | e :: rest =>
      let n := (n.setOut dest (n.outBuffers dest ++ [e.access])).setIn src dest rest
      { n with rrNextSrc := Function.update n.rrNextSrc dest ((src + 1) % n.nNodes) }

/-- SOURCE: Interconnect.cc:24-44 -/
def cycle (n : SimpleInterconnect α) : SimpleInterconnect α :=
  let n := (List.range n.nNodes).foldl deliver n
  { n with cycles := n.cycles + 1 }

/-- SOURCE: Interconnect.cc:46-55 -/
def push (n : SimpleInterconnect α) (src dest : ℕ) (request : α) :
    Except SimFault (SimpleInterconnect α) :=
  if src < n.nNodes ∧ dest < n.nNodes then
    let finishCycle := match (n.inBuffers src dest).getLast? with
      | none => n.cycles + n.latency
      | some e => e.finishCycle + 1
    .ok (n.setIn src dest (n.inBuffers src dest ++ [⟨finishCycle, dest, request⟩]))
  else .error .nodeOutOfRange

/-- SOURCE: Interconnect.cc:57-60 -/
def isFull (_ : SimpleInterconnect α) (_nid : ℕ) : Bool := false

/-- SOURCE: Interconnect.cc:62-64 -/
def isEmpty (n : SimpleInterconnect α) (nid : ℕ) : Except SimFault Bool :=
  if nid < n.nNodes then .ok (n.outBuffers nid).isEmpty else .error .nodeOutOfRange

/-- SOURCE: Interconnect.cc:66-69 -/
def top (n : SimpleInterconnect α) (nid : ℕ) : Except SimFault α :=
  if nid < n.nNodes then match n.outBuffers nid with
    | [] => .error .emptyQueue
    | a :: _ => .ok a
  else .error .nodeOutOfRange

/-- SOURCE: Interconnect.cc:71-74 -/
def pop (n : SimpleInterconnect α) (nid : ℕ) : Except SimFault (SimpleInterconnect α) :=
  if nid < n.nNodes then match n.outBuffers nid with
    | [] => .error .emptyQueue
    | _ :: rest => .ok (n.setOut nid rest)
  else .error .nodeOutOfRange

end SimpleInterconnect

end PyTorchSim.Model
