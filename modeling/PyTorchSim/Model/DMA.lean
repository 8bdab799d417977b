import PyTorchSim.Model.Instruction

/-!
# The DMA engine of a core and its tag table

The tag table maps a subgraph and a tag key to a 32-bit word: 0 while the data of the
tag is on its way, 1 once it has arrived, 2, 3, … when waits have used it, and the word
with all bits set for a tag of a sparse load.  `waiters` holds the instructions to be
finished when the data arrives.

A fault stands for a way in which a call does not return: an exception, a call of `exit`,
or undefined behaviour.
-/

set_option autoImplicit false

namespace PyTorchSim.Model

/-- The ways in which a core stops the program. -/
inductive CoreFault
  /-- `finish_instruction` with `DmaRespComplete` on an unfinished instruction exits. -/
  | notFinished
  /-- `finish_instruction` on a finished instruction exits. -/
  | alreadyFinished
  /-- An exception: the subgraph does not exist in the tag table. -/
  | subgraphNotInTable
  /-- An exception: the tag is not ready but freed. -/
  | tagNotReady
  /-- An exception: the key does not exist in the tag table of its subgraph. -/
  | keyNotInTable
  /-- The end iterator of the tag table is dereferenced. -/
  | endIteratorDereferenced
  /-- `register_tag_waiter` throws: the subgraph or the key is not in the table. -/
  | noTagToWaitFor
  /-- `get_tag_waiter` throws: the subgraph or the key is not in the table. -/
  | noTagWaiters
  /-- `issue_tile` exits on a tile with no dimension or more than four. -/
  | unsupportedTile
  /-- `dma_cycle` exits on an instruction that is neither a read nor a write. -/
  | invalidDmaInstruction
  /-- `get_memory_access` dereferences a null current instruction. -/
  | noCurrentInst
  /-- `get_compute_pipeline` exits on an undefined compute type, or divides by the number of
  systolic arrays when there is none. -/
  | undefinedComputeType
  /-- The issue loop advances an iterator whose element it has just erased. -/
  | erasedIterator
  /-- The bound on the length of the issue loop is used up.  This is not a way to stop: the
  bound is large enough in every reachable state. -/
  | outOfFuel
  deriving DecidableEq, Repr

/-- A 32-bit word with all bits set: the value -1 the table stores for a sparse tag. -/
def sparseTag : ℕ := 2 ^ 32 - 1

/-- SOURCE: DMA.h:124-142 -/
structure DMA (ι : Type) where
  currentInst : Option ι := none
  finished : Bool := true
  generatedOnce : Bool := false
  ssdPending : Bool := false
  ssdFinishCycle : ℕ := 0
  pendingAccesses : List (MemFetch ι) := []
  tagTable : ℕ → Option (List ℤ → Option ℕ) := fun _ => none
  waiters : ℕ → List ℤ → List ι := fun _ _ => []

namespace DMA

variable {ι : Type}

/-- The word stored for a key, if the subgraph and the key are in the table. -/
def tag (d : DMA ι) (g : ℕ) (key : List ℤ) : Option ℕ := (d.tagTable g).bind fun m => m key

/-- `tag_table[g][key] = v`, which creates the entries it needs. -/
def storeTag (d : DMA ι) (g : ℕ) (key : List ℤ) (v : ℕ) : DMA ι :=
  { d with
    tagTable := Function.update d.tagTable g
      (some (Function.update ((d.tagTable g).getD fun _ => none) key (some v))) }

/-- SOURCE: DMA.h:29-36 -/
def registerTag (d : DMA ι) (g : ℕ) (key : List ℤ) : DMA ι :=
  { d.storeTag g key 0 with
    waiters := Function.update d.waiters g (Function.update (d.waiters g) key []) }

/-- SOURCE: DMA.h:37-42 -/
def setTagFinish (d : DMA ι) (g : ℕ) (key : List ℤ) : Except CoreFault (DMA ι) :=
  if (d.tagTable g).isNone then .error .subgraphNotInTable else .ok (d.storeTag g key 1)

/-- SOURCE: DMA.h:44-49 -/
def setTagSparse (d : DMA ι) (g : ℕ) (key : List ℤ) : Except CoreFault (DMA ι) :=
  if (d.tagTable g).isNone then .error .subgraphNotInTable else .ok (d.storeTag g key sparseTag)

/-- SOURCE: DMA.h:51-58 -/
def markTagUsed (d : DMA ι) (g : ℕ) (key : List ℤ) : Except CoreFault (DMA ι) :=
  if (d.tagTable g).isNone then .error .subgraphNotInTable
  else
    let v := (d.tag g key).getD 0
    if v = 0 then .error .tagNotReady else .ok (d.storeTag g key ((v + 1) % 2 ^ 32))

/-- SOURCE: DMA.h:74-82 -/
def tagKeyExist (d : DMA ι) (g : ℕ) (key : List ℤ) : Bool := (d.tag g key).isSome

/-- SOURCE: DMA.h:83-91 -/
def getTagFinish (d : DMA ι) (g : ℕ) (key : List ℤ) : Except CoreFault ℕ :=
  match d.tagTable g with
  | none => .error .endIteratorDereferenced
  | some m => match m key with
    | none => .error .keyNotInTable
    | some v => .ok v

/-- SOURCE: DMA.h:100-108 -/
def registerTagWaiter (d : DMA ι) (g : ℕ) (key : List ℤ) (i : ι) : Except CoreFault (DMA ι) :=
  if (d.tag g key).isNone then .error .noTagToWaitFor
  else .ok { d with
    waiters := Function.update d.waiters g
      (Function.update (d.waiters g) key (d.waiters g key ++ [i])) }

/-- SOURCE: DMA.h:109-117 -/
def getTagWaiter (d : DMA ι) (g : ℕ) (key : List ℤ) : Except CoreFault (List ι) :=
  if (d.tag g key).isNone then .error .noTagWaiters else .ok (d.waiters g key)

/-- SOURCE: DMA.cc:20-30, DMA.h:122 -/
def issueTile (d : DMA ι) (i : ι) (tileSize : List ℕ) : Except CoreFault (DMA ι) :=
  if tileSize.length = 0 ∨ tileSize.length > 4 then .error .unsupportedTile
  else .ok { d with
    currentInst := some i, ssdPending := false, ssdFinishCycle := 0, finished := false }

/-- The engine after the latency oracle has answered.  The instruction goes to
`_ssd_finished_inst`, from which the core takes it at once.
SOURCE: DMA.cc:32-42 -/
def endSsd (d : DMA ι) : DMA ι :=
  { d with ssdPending := false, finished := true, generatedOnce := false, currentInst := none }

end DMA

end PyTorchSim.Model
