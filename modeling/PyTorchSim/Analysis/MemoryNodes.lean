import Mathlib.Data.Nat.ModEq
import PyTorchSim.Analysis.TileExpansion

/-!
# What loads and stores ask of the memory

The instruction made of a load or a store gets a byte address and a NUMA id.  The offset of the
address is an inner product in an `int`, so that it is right as long as the offset is a number of an
`int`.  Loads and stores linearise the indices of the parallel loops in the same way, but a store
divides the sizes of the loops by their steps and a load does not.
-/

set_option autoImplicit false

namespace PyTorchSim.Analysis

open PyTorchSim.Model PyTorchSim.Library

variable {T : ParserTables} {iter : LoopIter} {id : ℕ} {child : List ℕ} {m : TileMemoryNode}
  {b b' : BodyState}

/-- Whether a node is a load or a store of memory. -/
def IsMemoryNode (m : TileMemoryNode) (isStore : Bool) (node : TileNode) : Prop :=
  ∃ id child, node = if isStore then .store id child m else .load id child m

/-- The instruction of a load. -/
structure LoadMade (T : ParserTables) (iter : LoopIter) (m : TileMemoryNode) (addrId : ℕ)
    (inst : Instruction ℕ ℕ) : Prop where
  dramAddr : memoryAddress T iter m = .ok inst.dramAddr
  numaId : numaId T false iter m = .ok inst.numaId
  tagKey : ∃ accum tag offset,
    accumTagList T iter (m.loopIdxList.take (m.loopIdxList.length - nrInnerLoop T m.loopIdxList)) =
      .ok accum ∧
    loadTagList T iter m.tagIdxList = .ok tag ∧ keyOffset tag m.tagStrideList = .ok offset ∧
    inst.tagKey = (addrId : ℤ) :: (accum ++ [offset])

/-- **What a load makes** if it is not dropped. -/
theorem expandLoad_made (h : expandLoad T id child m iter b = .ok b')
    (hmade : b'.st.nextInst = b.st.nextInst + 1) :
    LoadMade T iter m (b.st.registerAddrName m.baseAddrName).2
      (b'.st.heap.inst b.st.nextInst) ∧
    b'.st.addrNames = (b.st.registerAddrName m.baseAddrName).1.addrNames := by
  obtain ⟨⟨-, -, hnext, -⟩, -⟩ := registerAddrName_same b.st m.baseAddrName
  unfold expandLoad at h
  obtain ⟨addr, haddr, h⟩ := bind_eq_ok.mp h
  obtain ⟨accum, haccum, h⟩ := bind_eq_ok.mp h
  obtain ⟨tag, htag, h⟩ := bind_eq_ok.mp h
  obtain ⟨numa, hnuma, h⟩ := bind_eq_ok.mp h
  obtain ⟨offset, hoffset, h⟩ := bind_eq_ok.mp h
  dsimp only at h
  split at h
  · cases h
    change (b.st.registerAddrName m.baseAddrName).1.nextInst = b.st.nextInst + 1 at hmade
    omega
  · cases h
    rw [append_inst, if_pos]
    · exact ⟨⟨haddr, hnuma, accum, tag, offset, haccum, htag, hoffset, rfl⟩, rfl⟩
    · exact hnext.symm

/-- **What a store makes.** -/
theorem expandStore_made (h : expandStore T id child m iter b = .ok b') :
    memoryAddress T iter m = .ok (b'.st.heap.inst b.st.nextInst).dramAddr ∧
      numaId T true iter m = .ok (b'.st.heap.inst b.st.nextInst).numaId := by
  obtain ⟨⟨-, -, hnext, -⟩, -⟩ := registerAddrName_same b.st m.baseAddrName
  unfold expandStore at h
  obtain ⟨addr, haddr, h⟩ := bind_eq_ok.mp h
  obtain ⟨numa, hnuma, h⟩ := bind_eq_ok.mp h
  obtain ⟨offset, hoffset, h⟩ := bind_eq_ok.mp h
  cases h
  rw [append_inst, if_pos]
  · exact ⟨haddr, hnuma⟩
  · exact hnext.symm

/-- **What a load or a store makes** if it is not dropped. -/
theorem memoryNode_made {node : TileNode} {isStore : Bool} (hnode : IsMemoryNode m isStore node)
    (h : expandNode T node iter b = .ok b') (hmade : b'.st.nextInst = b.st.nextInst + 1) :
    memoryAddress T iter m = .ok (b'.st.heap.inst b.st.nextInst).dramAddr ∧
      numaId T isStore iter m = .ok (b'.st.heap.inst b.st.nextInst).numaId := by
  obtain ⟨id, child, rfl⟩ := hnode
  cases isStore with
  | true =>
    rw [if_pos rfl, expandNode] at h
    exact expandStore_made h
  | false =>
    rw [if_neg Bool.false_ne_true, expandNode] at h
    have hload := (expandLoad_made h hmade).1
    exact ⟨hload.dramAddr, hload.numaId⟩

/-! ## Addresses -/

section Addresses

theorem i32_add_i32 (x y : ℤ) : i32 (i32 x + i32 y) = i32 (x + y) := by
  unfold i32
  omega

/-- An inner product in an `int` is the product modulo 2^32. -/
theorem foldl_i32 (products : List ℤ) (init : ℤ) :
    products.foldl (fun init product => i32 (init + i32 product)) (i32 init) =
      i32 (init + products.sum) := by
  induction products generalizing init with
  | nil => rw [List.foldl_nil, List.sum_nil, Int.add_zero]
  | cons product products ih =>
    rw [List.foldl_cons, i32_add_i32, ih, List.sum_cons, Int.add_assoc]

/-- The sum of index times stride. -/
def addressOffset (indices strides : List ℤ) : ℤ := (List.zipWith (· * ·) indices strides).sum

theorem memoryAddress_eq {indices : List ℤ} {addr : ℕ}
    (hindices : m.loopIdxList.mapM (getLoopIndexValue iter) = .ok indices)
    (h : memoryAddress T iter m = .ok addr) :
    addr = u64 ((T.argToAddress m.baseAddrName : ℤ) +
      i32 (addressOffset indices m.loopStrideList)) := by
  unfold memoryAddress at h
  obtain ⟨indices', hindices', h⟩ := bind_eq_ok.mp h
  rw [hindices] at hindices'
  cases hindices'
  split at h
  · cases h
  · have hfold := foldl_i32 (List.zipWith (· * ·) indices m.loopStrideList) 0
    rw [Int.zero_add, show i32 0 = 0 from rfl] at hfold
    dsimp only at h
    rw [hfold] at h
    cases h
    rfl

/-- **The address of a load or store is exact exactly if its offset, as a number of 64 bits, is a
number of an `int`.** -/
theorem memory_address_exact_iff {node : TileNode} {isStore : Bool} {indices : List ℤ}
    (hnode : IsMemoryNode m isStore node) (h : expandNode T node iter b = .ok b')
    (hmade : b'.st.nextInst = b.st.nextInst + 1)
    (hindices : m.loopIdxList.mapM (getLoopIndexValue iter) = .ok indices) :
    (b'.st.heap.inst b.st.nextInst).dramAddr =
        u64 ((T.argToAddress m.baseAddrName : ℤ) + addressOffset indices m.loopStrideList) ↔
      (addressOffset indices m.loopStrideList + 2 ^ 31) % 2 ^ 64 < 2 ^ 32 := by
  rw [memoryAddress_eq hindices (memoryNode_made hnode h hmade).1]
  generalize addressOffset indices m.loopStrideList = offset
  unfold u64 i32
  constructor
  · intro heq
    omega
  · intro hlt
    omega

/-- A tensor at 4 GiB. -/
def tensorTables : ParserTables where
  loopSizeMap := fun _ => {}
  argToAddress := fun _ => 2 ^ 32
  argNumaStride := fun _ => []
  systolicSize := 128
  sparseTileSet := fun _ => false

/-- Rows of 64 KiB. -/
def tensorRow : TileMemoryNode where
  tileSize := [1, 128]
  tileStride := [65536, 4]
  elemBits := 32
  isAsync := false
  isIndirect := false
  baseAddrName := "arg0"
  tagIdxList := []
  tagStrideList := []
  loopIdxList := ["i"]
  loopStrideList := [65536]

theorem memory_address_exact_row : ∃ b',
    expandNode tensorTables (.load 0 [] tensorRow) (fun _ => some 3) (.start .init) = .ok b' ∧
    ((b'.st.heap.inst 0).dramAddr = u64 (2 ^ 32 + addressOffset [3] [65536]) ↔
      (addressOffset [3] [65536] + 2 ^ 31) % 2 ^ 64 < 2 ^ 32) := by
  refine ⟨_, rfl, ?_⟩
  exact @memory_address_exact_iff tensorTables (fun _ => some 3) tensorRow (.start .init) _
    (.load 0 [] tensorRow) false [3] ⟨0, [], rfl⟩ rfl rfl rfl

/-- The row 2 GiB behind the start of the tensor is asked for 2 GiB before it. -/
theorem not_memory_address_exact : ∃ b',
    expandNode tensorTables (.load 0 [] tensorRow) (fun _ => some 32768) (.start .init) = .ok b' ∧
    (b'.st.heap.inst 0).dramAddr = 2 ^ 31 ∧
    u64 (2 ^ 32 + addressOffset [32768] [65536]) = 2 ^ 32 + 2 ^ 31 :=
  ⟨_, rfl, by decide +kernel, by decide +kernel⟩

end Addresses

/-! ## NUMA ids -/

section Numa

variable {loops : String → LoopSize}

end Numa

end PyTorchSim.Analysis
