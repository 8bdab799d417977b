import Mathlib.Algebra.Order.Ring.Int
import Mathlib.Data.Int.Basic
import Mathlib.Data.List.Dedup
import Mathlib.Data.List.Sort
import Mathlib.Tactic.Common

/-!
# Instructions of a tile

`Instruction` is the object the parser creates for a load, store, wait or compute
node and that a core issues and finishes.  The pointers of the source are opaque
identities: `τ` for tiles and `ι` for instructions, so that an `Instruction` names
its children and its owner instead of holding them.  The scheduling fields
(`readyCounter`, `nrWaitingRequest`, `finishCycle`, `bubbleCycle`, `finished`) change
during a run, the others are set when the tile graph is built; `computeCycle` is the
one exception, a wait on a sparse tag clears it.

Integers of the source are natural numbers or integers here.  Where the width of a
C++ type can matter, `u64` and `i32` convert explicitly.
-/

set_option autoImplicit false

namespace PyTorchSim.Model

/-- The value of `z` converted to `uint64_t`. -/
def u64 (z : ℤ) : ℕ := (z % 2 ^ 64).toNat

/-- The value of `z` converted to `int`. -/
def i32 (z : ℤ) : ℤ := (z + 2 ^ 31) % 2 ^ 32 - 2 ^ 31

/-- SOURCE: Instruction.h:16 -/
inductive Opcode
  | movin
  | movout
  | comp
  | bar
  deriving DecidableEq, Repr

/-- The compute units of a core; `compute_type` is an `int` holding one of these numbers.
SOURCE: Core.h:47-52 -/
def VECTOR_UNIT : ℕ := 0
/-- SOURCE: Core.h:47-52 -/
def MATMUL : ℕ := 1
/-- SOURCE: Core.h:47-52 -/
def PRELOAD : ℕ := 2

/-- An instruction.  `childInst` lists the set `child_inst` in the order in which the
source walks over it (the order of the addresses, so any order).
SOURCE: Instruction.h:24-125 -/
structure Instruction (τ ι : Type) where
  id : ι
  opcode : Opcode
  owner : τ
  computeCycle : ℕ := 0
  overlappingCycle : ℕ := 0
  computeType : ℕ := 0
  readyCounter : ℕ := 0
  childInst : List ι := []
  tileSize : List ℕ := []
  tileStride : List ℤ := []
  elemBits : ℕ := 0
  dramAddr : ℕ := 0
  numaId : ℕ := 0
  subgraphId : ℕ := 0
  tagKey : List ℤ := []
  addrName : String := ""
  addrId : ℤ := 0
  nrInnerLoop : ℕ := 0
  isAsyncDma : Bool := false
  isIndirectMode : Bool := false
  isSparseInst : Bool := false
  nrWaitingRequest : ℕ := 0
  finishCycle : ℕ := 0
  bubbleCycle : ℕ := 0
  finished : Bool := false

namespace Instruction

variable {τ ι : Type}

/-- SOURCE: Instruction.h:34 -/
def isDmaRead (i : Instruction τ ι) : Bool := i.opcode = .movin

/-- SOURCE: Instruction.h:35 -/
def isDmaWrite (i : Instruction τ ι) : Bool := i.opcode = .movout

/-- SOURCE: Instruction.h:40 -/
def isReady (i : Instruction τ ι) : Bool := i.readyCounter = 0

/-- The counter after `dec_ready_counter`.  The assertion that it is not 0 is compiled
out (the build is `Release` with `-DNDEBUG`), so 0 would wrap around.
SOURCE: Instruction.h:43-49 -/
def decremented (i : Instruction τ ι) : ℕ :=
  if i.readyCounter = 0 then 2 ^ 64 - 1 else i.readyCounter - 1

/-- The number of requests to wait for after `dec_waiting_request`; its assertion is compiled
out as well.
SOURCE: Instruction.cc:67-70 -/
def decWaitingRequest (i : Instruction τ ι) : ℕ :=
  if i.nrWaitingRequest = 0 then 2 ^ 64 - 1 else i.nrWaitingRequest - 1

/-- A list padded on the left to length four, as `tile_size` and `tile_stride` are.
SOURCE: Instruction.cc:92-96 -/
def padLeft4 {α : Type} (a : α) (l : List α) : List α := List.replicate (4 - l.length) a ++ l

/-- The index tuples of the four nested loops, in the order in which they run.
SOURCE: Instruction.cc:103-106 -/
def elementIndices : List ℕ → List (List ℕ)
  | [] => [[]]
  | n :: ns => (List.range n).flatMap fun d => (elementIndices ns).map (d :: ·)

/-- The request address of one element.  `+` binds tighter than `>>` in the source, so the
base address is shifted together with the bit offset.  `indirect` is the index read from
the index file for this element.
SOURCE: Instruction.cc:107-116 -/
def elementAddress (i : Instruction τ ι) (dramReqSize : ℕ) (idx : List ℕ) (indirect : Option ℕ) :
    ℕ :=
  let address := u64 (List.zipWith (fun (d : ℕ) (s : ℤ) => (d : ℤ) * s) idx
    (padLeft4 0 i.tileStride)).sum
  let address := u64 (i.dramAddr + (address * i.elemBits + 7)) >>> 3
  let address := match indirect with
    | none => address
    | some v => u64 (address + (u64 (v * i.elemBits + 7) >>> 3 : ℕ))
  address - (address &&& u64 ((dramReqSize : ℤ) - 1))

/-- The set of request addresses of a DMA instruction, in increasing order.  `indirectIndex`
is what `load_indirect_index` read, if the instruction is indirect and the file was usable.
SOURCE: Instruction.cc:87-122 -/
def getDramAddress (i : Instruction τ ι) (dramReqSize : ℕ) (indirectIndex : Option (List ℕ)) :
    List ℕ :=
  let idxs := elementIndices (padLeft4 1 i.tileSize)
  let indirect := if i.isIndirectMode then indirectIndex else none
  let addresses := match indirect with
    | none => idxs.map fun idx => i.elementAddress dramReqSize idx none
    | some vs => List.zipWith (fun idx v => i.elementAddress dramReqSize idx (some v)) idxs vs
  (addresses.dedup).insertionSort (· ≤ ·)

/-- The content of an index file, if there is one index for each element of the padded tile.
SOURCE: Instruction.cc:124-150 -/
def loadIndirectIndex (i : Instruction τ ι) (file : Option (List ℕ)) : Option (List ℕ) :=
  file.filter fun vs => vs.length = (padLeft4 1 i.tileSize).prod

end Instruction

/-- A memory request on its way to or from the memory system.
SOURCE: DMA.cc:155-160 -/
structure MemFetch (ι : Type) where
  addr : ℕ
  isWrite : Bool
  size : ℕ
  numaId : ℕ
  customData : ι
  cacheable : Bool
  deriving DecidableEq

end PyTorchSim.Model
