import Mathlib.Data.Nat.Bitwise
import Mathlib.Order.Lattice

/-!
# The sort kernel

The sort template emits a kernel that sorts each row of a tensor along one dimension, together with
the indices of the elements.  The kernel sorts each chunk of 16 elements with a bitonic network on
the lanes of a vector, and then merges chunks with a bitonic network on the chunks.

A vector is a function from its lanes to values, of which the lanes of the vector size are used, and a
buffer a function from its places.  `render` stands for the program text that the template
renders: it gives the meaning of the loops, for one row.  The loops around it, which run the same
program on the other rows, and the transfers of the row are left out.
-/

set_option autoImplicit false

namespace PyTorchSim.Model

/-- SOURCE: mlir_sort_template.py:12 -/
def VECTOR_SIZE : ℕ := 16

/-- The numbers that `range(start, stop, step)` counts, which are also those of a loop
`affine.for start to stop step`. -/
def pyRange (start stop step : ℕ) : List ℕ :=
  List.range' start ((stop - start + (step - 1)) / step) step

namespace SortTemplate

/-! ## The stages of a bitonic network -/

/-- A stage: for each lane the lane it is compared with, and whether it keeps the smaller value. -/
structure BitonicStage where
  shuffle : List ℕ
  selectMin : List Bool
  deriving DecidableEq, Repr

/-- `while size <= n`, with `size *= 2` at the end of the body.
SOURCE: mlir_sort_template.py:74-98, 323-427 -/
def sizes (n size : ℕ) : List ℕ :=
  if 0 < size ∧ size ≤ n then size :: sizes n (size * 2) else []
termination_by n + 1 - size

/-- `while stride >= 1`, with `stride //= 2` at the end of the body.
SOURCE: mlir_sort_template.py:76-97, 325-426 -/
def strides (stride : ℕ) : List ℕ :=
  if 1 ≤ stride then stride :: strides (stride / 2) else []
termination_by stride

/-- The body of the innermost loop.
SOURCE: mlir_sort_template.py:84-92 -/
def markPair (ascending : Bool) (a b : ℕ) (merged : List ℕ × List (Option Bool)) :
    List ℕ × List (Option Bool) :=
  ((merged.1.set a b).set b a, (merged.2.set a (some ascending)).set b (some !ascending))

/-- SOURCE: mlir_sort_template.py:78-96 -/
def bitonicStage (n : ℕ) (descending : Bool) (size stride : ℕ) : BitonicStage :=
  let merged := (pyRange 0 n size).foldl (fun merged start =>
    let ascending : Bool := start / size % 2 = 0
    (pyRange start (start + size - stride) (stride * 2)).foldl (fun merged i =>
      (List.range stride).foldl (fun merged j2 =>
        markPair ascending (i + j2) (i + j2 + stride) merged) merged) merged)
    (List.range n, List.replicate n none)
  let selectMin := merged.2.map fun x => x.getD false
  { shuffle := merged.1
    selectMin := if descending then selectMin.map (!·) else selectMin }

/-- SOURCE: mlir_sort_template.py:72-99 -/
def computeBitonicStages (n : ℕ) (descending : Bool) : List BitonicStage :=
  (sizes n 2).flatMap fun size => (strides (size / 2)).map fun stride =>
    bitonicStage n descending size stride

/-! ## Vectors -/

section

variable {α : Type}

/-- SOURCE: mlir_ops.py:1170-1189 -/
def vectorShuffle (v : ℕ → α) (indices : List ℕ) : ℕ → α := fun lane => v (indices.getD lane 0)

/-- SOURCE: mlir_ops.py:141-157 -/
def selectLanes (mask : ℕ → Bool) (a b : ℕ → α) : ℕ → α :=
  fun lane => if mask lane then a lane else b lane

/-- SOURCE: mlir_ops.py:1192-1195 -/
def constantMask (selectMin : List Bool) : ℕ → Bool := fun lane => selectMin.getD lane false

/-- A vector of values and the vector of their indices. -/
structure PairVector (α : Type) where
  values : ℕ → α
  indices : ℕ → ℕ

variable [LinearOrder α]

/-- SOURCE: mlir_sort_template.py:102-106 -/
def pairLessEqual (leftV rightV : ℕ → α) (leftI rightI : ℕ → ℕ) (lane : ℕ) : Bool :=
  leftV lane < rightV lane || (leftV lane = rightV lane && leftI lane ≤ rightI lane)

/-- SOURCE: mlir_sort_template.py:109-113 -/
def pairGreaterEqual (leftV rightV : ℕ → α) (leftI rightI : ℕ → ℕ) (lane : ℕ) : Bool :=
  leftV lane > rightV lane || (leftV lane = rightV lane && leftI lane ≤ rightI lane)

/-- The comparison of each lane with its partner.
SOURCE: mlir_sort_template.py:123-135 -/
def compareLanes (descending stableSort : Bool) (curV shufV : ℕ → α) (curI shufI : ℕ → ℕ)
    (lane : ℕ) : Bool :=
  if stableSort then
    if descending then
      curV lane < shufV lane || (curV lane = shufV lane && curI lane ≥ shufI lane)
    else pairLessEqual curV shufV curI shufI lane
  else curV lane ≤ shufV lane

/-- One stage on a vector and its indices.
SOURCE: mlir_sort_template.py:119-141 -/
def sortStage (descending stableSort : Bool) (cur : PairVector α) (stage : BitonicStage) :
    PairVector α :=
  let mask := constantMask stage.selectMin
  let shufV := vectorShuffle cur.values stage.shuffle
  let shufI := vectorShuffle cur.indices stage.shuffle
  let cmp := compareLanes descending stableSort cur.values shufV cur.indices shufI
  let minV := selectLanes cmp cur.values shufV
  let minI := selectLanes cmp cur.indices shufI
  let maxV := selectLanes cmp shufV cur.values
  let maxI := selectLanes cmp shufI cur.indices
  { values := selectLanes mask minV maxV
    indices := selectLanes mask minI maxI }

/-- SOURCE: mlir_sort_template.py:116-142 -/
def bitonicSortPair (pair : PairVector α) (vectorSize : ℕ) (descending stableSort : Bool) :
    PairVector α :=
  (computeBitonicStages vectorSize descending).foldl (sortStage descending stableSort) pair

/-- The comparison of two sorted vectors, of which the right one is reversed.
SOURCE: mlir_sort_template.py:157-168 -/
def compareSorted (ascending stableSort : Bool) (leftV rightV : ℕ → α) (leftI rightI : ℕ → ℕ)
    (lane : ℕ) : Bool :=
  if ascending then
    if stableSort then pairLessEqual leftV rightV leftI rightI lane
    else leftV lane ≤ rightV lane
  else
    if stableSort then pairGreaterEqual leftV rightV leftI rightI lane
    else leftV lane ≥ rightV lane

/-- SOURCE: mlir_sort_template.py:145-173 -/
def mergeSortedPairVectors (left right : PairVector α) (ascending stableSort : Bool)
    (revIndices : List ℕ) : PairVector α × PairVector α :=
  let rightPair := vectorShuffle right.values revIndices
  let rightIdxPair := vectorShuffle right.indices revIndices
  let cmp := compareSorted ascending stableSort left.values rightPair left.indices rightIdxPair
  ({ values := selectLanes cmp left.values rightPair
     indices := selectLanes cmp left.indices rightIdxPair },
   { values := selectLanes cmp rightPair left.values
     indices := selectLanes cmp rightIdxPair left.indices })

end

/-! ## The kernel -/

section

variable {α : Type}

/-- SOURCE: mlir_ops.py:1244-1255 -/
def load {β : Type} (buffer : ℕ → β) (elem : ℕ) : ℕ → β := fun lane => buffer (elem + lane)

/-- SOURCE: mlir_ops.py:1258-1276 -/
def store {β : Type} (v : ℕ → β) (buffer : ℕ → β) (elem : ℕ) : ℕ → β :=
  fun a => if elem ≤ a ∧ a < elem + VECTOR_SIZE then v (a - elem) else buffer a

/-- The buffers of a row: `YV_buffer` and `XI_buffer`. -/
structure SortBuffers (α : Type) where
  yv : ℕ → α
  xi : ℕ → ℕ

/-- Loads a chunk. -/
def SortBuffers.load (buf : SortBuffers α) (elem : ℕ) : PairVector α where
  values := SortTemplate.load buf.yv elem
  indices := SortTemplate.load buf.xi elem

/-- Stores a chunk. -/
def SortBuffers.store (buf : SortBuffers α) (v : PairVector α) (elem : ℕ) : SortBuffers α where
  yv := SortTemplate.store v.values buf.yv elem
  xi := SortTemplate.store v.indices buf.xi elem

variable [LinearOrder α]

/-- The program that sorts each chunk; `use` is `use_stable_sort`.
SOURCE: mlir_sort_template.py:285-319 -/
def localSort (descending useStableSort : Bool) (numChunks : ℕ) (x : ℕ → α)
    (buf : SortBuffers α) : SortBuffers α :=
  (List.range numChunks).foldl (fun buf chunk =>
    let elem := chunk * VECTOR_SIZE
    let xChunk : PairVector α := { values := load x elem, indices := fun lane => elem + lane }
    buf.store (bitonicSortPair xChunk VECTOR_SIZE descending useStableSort) elem) buf

/-- The loops that are emitted for `k`, `j` and one of the two blocks.
SOURCE: mlir_sort_template.py:327-337 -/
structure MergeLoops where
  k : ℕ
  j : ℕ
  blockStart : ℕ
  ascDir : Bool
  deriving DecidableEq, Repr

/-- SOURCE: mlir_sort_template.py:322-427 -/
def mergeLoops (numChunks : ℕ) (descending : Bool) : List MergeLoops :=
  (sizes numChunks 2).flatMap fun k => (strides (k / 2)).flatMap fun j =>
    [(0, true), (k, false)].filterMap fun (blockStart, isEvenBlock) =>
      if blockStart ≥ numChunks then none
      else some { k, j, blockStart, ascDir := if !descending then isEvenBlock else !isEvenBlock }

/-- SOURCE: mlir_sort_template.py:281 -/
def revIndices : List ℕ := (List.range VECTOR_SIZE).reverse

/-- The body of the loops: two chunks are sorted, merged and sorted again.
SOURCE: mlir_sort_template.py:341-424 -/
def mergeChunks (ascDir useStableSort : Bool) (leftElem rightElem : ℕ) (buf : SortBuffers α) :
    SortBuffers α :=
  let normDesc := !ascDir
  let leftNorm := bitonicSortPair (buf.load leftElem) VECTOR_SIZE normDesc useStableSort
  let rightNorm := bitonicSortPair (buf.load rightElem) VECTOR_SIZE normDesc useStableSort
  let (leftMerge, rightMerge) :=
    mergeSortedPairVectors leftNorm rightNorm ascDir useStableSort revIndices
  let leftNew := bitonicSortPair leftMerge VECTOR_SIZE normDesc useStableSort
  let rightNew := bitonicSortPair rightMerge VECTOR_SIZE normDesc useStableSort
  (buf.store leftNew leftElem).store rightNew rightElem

/-- What the emitted loops do.
SOURCE: mlir_sort_template.py:333-424 -/
def runLoops (numChunks : ℕ) (useStableSort : Bool) (buf : SortBuffers α) (loops : MergeLoops) :
    SortBuffers α :=
  (pyRange loops.blockStart numChunks (2 * loops.k)).foldl (fun buf base =>
    (pyRange 0 loops.k (2 * loops.j)).foldl (fun buf p =>
      (List.range loops.j).foldl (fun buf q =>
        mergeChunks loops.ascDir useStableSort ((base + p + q) * VECTOR_SIZE)
          ((base + p + q + loops.j) * VECTOR_SIZE) buf) buf) buf) buf

/-- The kernel for one row: the row `x` and the buffers before it give the buffers after it. -/
def runKernel (descending useStableSort : Bool) (numChunks : ℕ) (x : ℕ → α)
    (buf : SortBuffers α) : SortBuffers α :=
  (mergeLoops numChunks descending).foldl (runLoops numChunks useStableSort)
    (localSort descending useStableSort numChunks x buf)

/-- The template renders a kernel, or raises `NotImplementedError`.  `useStableSort` is set by
`MLIRStableSortTemplate`.
SOURCE: mlir_sort_template.py:190-217, 283-427, 464-476 -/
def render (descending useStableSort : Bool) (sortSize : ℕ) :
    Except String ((ℕ → α) → SortBuffers α → SortBuffers α) :=
  if sortSize ≤ 0 then .error "Sort size must be > 0"
  else if sortSize < VECTOR_SIZE ∨ sortSize % VECTOR_SIZE ≠ 0 then
    .error (s!"Sort size must be a multiple of vector size (sort_size={sortSize}, " ++
      s!"vector_size={VECTOR_SIZE})")
  else
    let numChunks := sortSize / VECTOR_SIZE
    if numChunks &&& (numChunks - 1) ≠ 0 then
      .error (s!"Loop-based bitonic chunk merge requires power-of-two chunk count " ++
        s!"(num_chunks={numChunks})")
    else .ok (runKernel descending useStableSort numChunks)

end

end SortTemplate

end PyTorchSim.Model
