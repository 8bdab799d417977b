import Mathlib.Data.Fintype.Pi
import PyTorchSim.Library.KeyedQueues
import PyTorchSim.Model.Dram
import PyTorchSim.Model.Interconnect

/-!
# The data cache

`DataCache` with its tag array, the table of miss status holding registers and the queue of
misses.  The cache is built for one configuration, with plain lines or with lines of four
sectors.

The pointer to a `mem_fetch` is a number; `fetches` is the memory that the numbers point to, so
that a request in two queues is one object as in the source.  The sector mask of a request has
one bit, and the model keeps the number of the bit.  A failed assertion ends the program.
Statistics and times that no function reads are left out, and so are the occupied cycles of the
ports, which are always free.
-/

set_option autoImplicit false

namespace PyTorchSim.Model

open PyTorchSim.Library

/-- SOURCE: Cache_defs.h:9 -/
abbrev sectorChunckSize : ℕ := 4

/-- The number of a sector in its line. -/
abbrev Sector := Fin sectorChunckSize

instance : NeZero sectorChunckSize := ⟨by decide⟩

/-- `std::bitset<SECTOR_CHUNCK_SIZE>` -/
abbrev SectorMask := Sector → Bool

/-- SOURCE: Cache_defs.h:11-16 -/
inductive CacheBlockState
  | invalid
  | reserved
  | valid
  | modified
  deriving DecidableEq, Repr

/-- The number of an enumerator, to which C++ converts it. -/
def CacheBlockState.toNat : CacheBlockState → ℕ
  | invalid => 0
  | reserved => 1
  | valid => 2
  | modified => 3

/-- SOURCE: Cache_defs.h:17-25 -/
inductive CacheRequestStatus
  | hit
  | hitReserved
  | miss
  | reservationFail
  | sectorMiss
  deriving DecidableEq, Repr

/-- SOURCE: Cache_defs.h:49-59 -/
structure EvictedBlockInfo where
  blockAddr : ℕ
  modifiedSize : ℕ
  dirtyMask : SectorMask
  deriving DecidableEq

/-- The information of an eviction is read for a write-back only.
SOURCE: Cache_defs.h:42-47, 60-95 -/
inductive CacheEvent
  | writeBackRequestSent (evicted : EvictedBlockInfo)
  | readRequestSent
  | writeRequestSent
  | writeAllocateSent
  deriving DecidableEq

/-- SOURCE: Cache_defs.h:79-82 -/
def wasWriteSent (events : List CacheEvent) : Bool := .writeRequestSent ∈ events

/-- SOURCE: Cache_defs.h:83-86 -/
def wasReadSent (events : List CacheEvent) : Bool := .readRequestSent ∈ events

/-- SOURCE: Cache_defs.h:87-91 -/
def wasWritebackSent (events : List CacheEvent) : Bool :=
  events.any fun | .writeBackRequestSent _ => true | _ => false

/-- SOURCE: Cache_defs.h:97-108 -/
inductive WritePolicy
  | readOnly
  | writeBack
  | writeThrough
  | writeEvict
  | localWbGlobalWt
  deriving DecidableEq, Repr

/-- SOURCE: Cache_defs.h:110-112 -/
inductive AllocationPolicy
  | onMiss
  | onFill
  | streaming
  deriving DecidableEq, Repr

/-- SOURCE: Cache_defs.h:114-124 -/
inductive WriteAllocatePolicy
  | noWriteAllocate
  | writeAllocate
  | fetchOnWrite
  | lazyFetchOnRead
  deriving DecidableEq, Repr

/-- SOURCE: Cache_defs.h:126-127 -/
inductive CacheType
  | normal
  | sector
  deriving DecidableEq, Repr

/-- SOURCE: Cache_defs.h:129-130 -/
inductive EvictPolicy
  | lru
  | fifo
  deriving DecidableEq, Repr

/-- SOURCE: Cache_defs.h:132-134 -/
inductive MshrConfig
  | assoc
  | sectorAssoc
  deriving DecidableEq, Repr

/-- SOURCE: Cache_defs.h:136-146 -/
inductive SetIndexFunction
  | linear
  | bitwiseXoring
  | hashIpoly
  | custom
  deriving DecidableEq, Repr

/-- Why the program ends inside the cache. -/
inductive CacheFault
  | assertion
  | divisionByZero
  | outOfRange
  | exit
  | uninitialised
  deriving DecidableEq, Repr

/-- SOURCE: Memfetch.h:8-14 -/
inductive MemAccessType
  | globalAccR
  | globalAccW
  | l2CacheWa
  | l2CacheWb
  deriving DecidableEq, Repr

/-- A `mem_fetch` as the cache sees it.
SOURCE: Memfetch.h:23-103 -/
structure CacheFetch where
  addr : ℕ
  accessType : MemAccessType
  mfType : MfType
  dataSize : ℕ
  coreId : ℕ := 0
  accessSector : Sector := 0
  dirtyMask : SectorMask := fun _ => false
  cacheable : Bool := true

namespace CacheFetch

/-- SOURCE: Memfetch.h:52 -/
def isWrite (f : CacheFetch) : Bool := f.mfType = .writeRequest ∨ f.mfType = .writeAck

/-- SOURCE: Memfetch.h:62 -/
def isRequest (f : CacheFetch) : Bool := f.mfType = .readRequest ∨ f.mfType = .writeRequest

/-- SOURCE: Memfetch.h:65-72 -/
def setReply (f : CacheFetch) : CacheFetch := { f with mfType := f.mfType.setReply }

end CacheFetch

/-- The values of the configuration string.
SOURCE: Cache.h:56-80, Cache.cc:26-53 -/
structure CacheConfig where
  cacheType : CacheType
  nset : ℕ
  lineSize : ℕ
  assoc : ℕ
  sectorSize : ℕ
  evictPolicy : EvictPolicy
  writePolicy : WritePolicy
  allocPolicy : AllocationPolicy
  writeAllocPolicy : WriteAllocatePolicy
  setIndexFunction : SetIndexFunction
  mshrType : MshrConfig
  mshrEntries : ℕ
  mshrMaxMerge : ℕ
  missQueueSize : ℕ
  dataPortWidth : ℕ

namespace CacheConfig

variable (cfg : CacheConfig)

/-- SOURCE: Cache.cc:49 -/
def atomSize : ℕ := if cfg.cacheType = .sector then cfg.sectorSize else cfg.lineSize

/-- The complement of `size - 1`, a 32-bit number, in 64 bits. -/
def sizeMask (size : ℕ) : ℕ := 2 ^ 64 - 1 - (size + 2 ^ 32 - 1) % 2 ^ 32

/-- SOURCE: Cache.cc:59-61 -/
def getTag (addr : ℕ) : ℕ := addr &&& sizeMask cfg.lineSize

/-- SOURCE: Cache.cc:63-65 -/
def getBlockAddr (addr : ℕ) : ℕ := addr &&& sizeMask cfg.lineSize

/-- SOURCE: Cache.cc:67-69 -/
def getMshrAddr (addr : ℕ) : ℕ := addr &&& sizeMask cfg.atomSize

/-- The comparison of the address stands where the source has it.
SOURCE: Cache.cc:55-57, 71-93 -/
def getSetIndex (addr : ℕ) : Except CacheFault ℕ :=
  let setMask := (cfg.nset + 2 ^ 32 - 1) % 2 ^ 32
  let index := (addr >>> Nat.log2 cfg.lineSize) &&& setMask
  let higherBits := (decide (addr > Nat.log2 cfg.lineSize + Nat.log2 cfg.nset)).toNat
  match cfg.setIndexFunction with
  | .linear => .ok index
  | .bitwiseXoring => .ok (index ^^^ (higherBits &&& setMask))
  | .hashIpoly =>
    match ipolyHashFunction higherBits index cfg.nset with
    | some i => .ok i
    | none => .error .exit
  | .custom => .ok 0

end CacheConfig

/-! ## Cache blocks -/

/-- SOURCE: Cache.h:108-163 -/
structure LineCacheBlock where
  tag : ℕ
  blockAddr : ℕ
  allocTime : ℕ := 0
  lastAccessTime : ℕ := 0
  status : CacheBlockState := .invalid
  setModifiedOnFill : Bool := false
  readable : Bool := true

/-- SOURCE: Cache.h:165-213 -/
structure SectorCacheBlock where
  tag : ℕ
  blockAddr : ℕ
  lineAllocTime : ℕ := 0
  lineLastAccessTime : ℕ := 0
  status : Sector → CacheBlockState := fun _ => .invalid
  setModifiedOnFill : Sector → Bool := fun _ => false
  readable : Sector → Bool := fun _ => true

/-- A line of the tag array.  Nothing sets its tag before it is allocated.
SOURCE: Cache.h:85-111 -/
inductive CacheBlock
  | line (b : LineCacheBlock)
  | sector (b : SectorCacheBlock)

namespace CacheBlock

/-- A line before it is allocated.  The initialiser of `m_readable` sets its first entry.
SOURCE: Cache.cc:259-266, Cache.h:191-201 -/
def initial (cfg : CacheConfig) (tag blockAddr : ℕ) : CacheBlock :=
  if cfg.cacheType = .sector then
    .sector { tag, blockAddr, readable := fun s => decide (s = 0) }
  else .line { tag, blockAddr }

/-- SOURCE: Cache.h:90 -/
def matchTag (tag : ℕ) : CacheBlock → Bool
  | line b => b.tag = tag
  | sector b => b.tag = tag

/-- SOURCE: Cache.h:91 -/
def getBlockAddr : CacheBlock → ℕ
  | line b => b.blockAddr
  | sector b => b.blockAddr

/-- SOURCE: Cache.h:124-126, Cache.cc:203-206 -/
def getStatus (s : Sector) : CacheBlock → CacheBlockState
  | line b => b.status
  | sector b => b.status s

/-- SOURCE: Cache.h:120, Cache.cc:156-162 -/
def isInvalidLine : CacheBlock → Bool
  | line b => b.status = .invalid
  | sector b => ∀ s, b.status s = .invalid

/-- SOURCE: Cache.h:119, Cache.cc:154 -/
def isValidLine : CacheBlock → Bool
  | line b => b.status = .valid
  | sector b => !(sector b).isInvalidLine

/-- SOURCE: Cache.h:121, Cache.cc:164-170 -/
def isReservedLine : CacheBlock → Bool
  | line b => b.status = .reserved
  | sector b => ∃ s, b.status s = .reserved

/-- SOURCE: Cache.h:122, Cache.cc:172-177 -/
def isModifiedLine : CacheBlock → Bool
  | line b => b.status = .modified
  | sector b => ∃ s, b.status s = .modified

/-- SOURCE: Cache.h:130, Cache.cc:213-216 -/
def isReadable (s : Sector) : CacheBlock → Bool
  | line b => b.readable
  | sector b => b.readable s

/-- SOURCE: Cache.h:131-133, Cache.cc:218-220 -/
def getLastAccessTime : CacheBlock → ℕ
  | line b => b.lastAccessTime
  | sector b => b.lineLastAccessTime

/-- SOURCE: Cache.h:134, Cache.cc:222 -/
def getAllocTime : CacheBlock → ℕ
  | line b => b.allocTime
  | sector b => b.lineAllocTime

/-- SOURCE: Cache.h:127-129, Cache.cc:208-211 -/
def setStatus (status : CacheBlockState) (s : Sector) : CacheBlock → CacheBlock
  | line b => .line { b with status := status }
  | sector b => .sector { b with status := Function.update b.status s status }

/-- SOURCE: Cache.h:146-149, Cache.cc:239-244 -/
def setLastAccessTime (time : ℕ) : CacheBlock → CacheBlock
  | line b => .line { b with lastAccessTime := time }
  | sector b => .sector { b with lineLastAccessTime := time }

/-- The line of a miss.  For a line of sectors `init` makes all sectors invalid.
SOURCE: Cache.cc:96-106, 122-133, 188-201 -/
def allocate (tag blockAddr time : ℕ) : CacheBlock → CacheBlock
  | line b => .line { b with
      tag := tag
      blockAddr := blockAddr
      allocTime := time
      lastAccessTime := time
      status := .reserved
      setModifiedOnFill := false }
  | sector _ => .sector {
      tag := tag
      blockAddr := blockAddr
      lineAllocTime := time
      lineLastAccessTime := time }

/-- The sector of a miss in a valid line.
SOURCE: Cache.cc:135-145 -/
def allocateSector (time : ℕ) (s : Sector) : CacheBlock → Except CacheFault CacheBlock
  | line _ => .error .assertion
  | sector b =>
    if (sector b).isValidLine then
      .ok (.sector { b with
        lineLastAccessTime := time
        setModifiedOnFill :=
          Function.update b.setModifiedOnFill s (decide (b.status s = .modified))
        status := Function.update b.status s .reserved
        readable := Function.update b.readable s true })
    else .error .assertion

/-- SOURCE: Cache.cc:108-111, 147-152 -/
def fill (s : Sector) : CacheBlock → CacheBlock
  | line b => .line { b with status := if b.setModifiedOnFill then .modified else .valid }
  | sector b => .sector { b with
      status := Function.update b.status s (if b.setModifiedOnFill s then .modified else .valid) }

/-- SOURCE: Cache.h:150-152, Cache.cc:246-252 -/
def getModifiedSize (sectorSize : ℕ) : CacheBlock → ℕ
  | line _ => sectorChunckSize * sectorSize % 2 ^ 32
  | sector b =>
    (List.finRange sectorChunckSize).countP (fun s => b.status s = .modified) * sectorSize % 2 ^ 32

end CacheBlock

/-! ## The tag array -/

/-- The state of the loop over the ways of a set. -/
structure ProbeScan where
  idx : ℕ
  validLine : Option ℕ := none
  invalidLine : Option ℕ := none
  validTimestamp : ℕ := 2 ^ 64 - 1
  allReserved : Bool := true

namespace TagArray

variable (cfg : CacheConfig) (lines : ℕ → CacheBlock)

/-- The time by which a line is chosen for eviction.
SOURCE: Cache.cc:320-331 -/
def evictTime (b : CacheBlock) : ℕ :=
  match cfg.evictPolicy with
  | .lru => b.getLastAccessTime
  | .fifo => b.getAllocTime

/-- One way of the set; an answer of `probe` leaves the loop as an error.
SOURCE: Cache.cc:294-333 -/
def probeWay (tag : ℕ) (s : Sector) (p : ProbeScan) (index : ℕ) :
    Except (CacheRequestStatus × ℕ) ProbeScan :=
  let b := lines index
  if b.matchTag tag then
    if b.getStatus s = .reserved then .error (.hitReserved, index)
    else if b.getStatus s = .valid ∨ (b.getStatus s = .modified ∧ b.isReadable s) then
      .error (.hit, index)
    else if (b.getStatus s = .modified ∧ !b.isReadable s) ∨
        (b.isValidLine ∧ b.getStatus s = .invalid) then
      .error (.sectorMiss, index)
    else .ok { p with idx := index }
  else if !b.isReservedLine then
    if b.isInvalidLine then .ok { p with allReserved := false, invalidLine := some index }
    else if evictTime cfg b < p.validTimestamp then
      .ok { p with
        allReserved := false
        validTimestamp := evictTime cfg b
        validLine := some index }
    else .ok { p with allReserved := false }
  else .ok p

/-- The lines of a set. -/
def setLines (setIndex : ℕ) : List ℕ := (List.range cfg.assoc).map (setIndex * cfg.assoc + ·)

/-- The answer of a probe and the line that goes with it.
SOURCE: Cache.cc:278-349 -/
def probe (addr idx : ℕ) (s : Sector) : Except CacheFault (CacheRequestStatus × ℕ) := do
  let setIndex ← cfg.getSetIndex addr
  match (setLines cfg setIndex).foldlM (probeWay cfg lines (cfg.getTag addr) s) { idx } with
  | .error answer => return answer
  | .ok p =>
    if p.allReserved then
      if cfg.allocPolicy = .onMiss then return (.reservationFail, p.idx)
      else .error .assertion
    else
      match p.invalidLine, p.validLine with
      | some i, _ => return (.miss, i)
      | none, some i => return (.miss, i)
      | none, none => .error .assertion

/-- The mask that the status of a block is converted to. -/
def statusMask (status : CacheBlockState) : SectorMask := fun s => status.toNat.testBit s

/-- What an access of the tag array returns: the answer, the line, the lines after it and the
block that has to be written back. -/
structure AccessResult where
  status : CacheRequestStatus
  idx : ℕ
  lines : ℕ → CacheBlock
  evicted : Option EvictedBlockInfo := none

/-- SOURCE: Cache.cc:351-397 -/
def access (addr time idx : ℕ) (s : Sector) : Except CacheFault AccessResult := do
  let (status, idx) ← probe cfg lines addr idx s
  let b := lines idx
  match status with
  | .hitReserved => return { status, idx, lines }
  | .hit => return { status, idx, lines := Function.update lines idx (b.setLastAccessTime time) }
  | .sectorMiss =>
    if cfg.cacheType ≠ .sector then .error .assertion
    else if cfg.allocPolicy = .onMiss then
      let b' ← b.allocateSector time s
      return { status, idx, lines := Function.update lines idx b' }
    else return { status, idx, lines }
  | .miss =>
    if cfg.allocPolicy = .onMiss then
      let evicted :=
        if b.isModifiedLine then
          some {
            blockAddr := b.getBlockAddr
            modifiedSize := b.getModifiedSize cfg.sectorSize
            dirtyMask := statusMask (b.getStatus s) }
        else none
      let b' := b.allocate (cfg.getTag addr) (cfg.getBlockAddr addr) time
      return { status, idx, lines := Function.update lines idx b', evicted }
    else return { status, idx, lines }
  | .reservationFail => return { status, idx, lines }

/-- SOURCE: Cache.cc:403-406 -/
def fillIndex (index : ℕ) (s : Sector) : Except CacheFault (ℕ → CacheBlock) :=
  if cfg.allocPolicy = .onMiss then
    .ok (Function.update lines index ((lines index).fill s))
  else .error .assertion

/-- SOURCE: Cache.cc:399-401, 408-420 -/
def fillAddr (addr time : ℕ) (s : Sector) : Except CacheFault (ℕ → CacheBlock) := do
  let (status, idx) ← probe cfg lines addr 0 s
  let b := lines idx
  let allocated : Except CacheFault CacheBlock :=
    match status with
    | .miss => .ok (b.allocate (cfg.getTag addr) (cfg.getBlockAddr addr) time)
    | .sectorMiss =>
      if cfg.cacheType = .sector then b.allocateSector time s else .error .assertion
    | _ => .ok b
  let b' ← allocated
  return Function.update lines idx (b'.fill s)

end TagArray

/-! ## Miss status holding registers -/

/-- The table from block addresses to the queues of the requests that wait for the block, and the
blocks that have come in.  No request is atomic.  `added` and `popped` record the requests that were put in
and taken out; nothing but the specification reads them.
SOURCE: Cache.h:249-276 -/
structure MshrTable where
  table : List (ℕ × List ℕ) := []
  currentResponse : List ℕ := []
  added : List ℕ := []
  popped : List ℕ := []

namespace MshrTable

/-- The requests of a block. -/
def entry (t : MshrTable) (block : ℕ) : Option (List ℕ) := t.table.lookup block

/-- SOURCE: Cache.cc:442-444 -/
def probe (t : MshrTable) (block : ℕ) : Bool := (t.entry block).isSome

/-- SOURCE: Cache.cc:446-451 -/
def full (cfg : CacheConfig) (t : MshrTable) (block : ℕ) : Bool :=
  match t.entry block with
  | some l => l.length ≥ cfg.mshrMaxMerge
  | none => t.table.length ≥ cfg.mshrEntries

/-- SOURCE: Cache.cc:453-459 -/
def add (cfg : CacheConfig) (t : MshrTable) (block id : ℕ) : Except CacheFault MshrTable :=
  if t.full cfg block then .error .assertion
  else .ok { t with table := KeyedQueues.pushBack block id t.table, added := t.added ++ [id] }

/-- SOURCE: Cache.cc:461-465 -/
def markReady (t : MshrTable) (block : ℕ) : Except CacheFault MshrTable :=
  if t.probe block then .ok { t with currentResponse := t.currentResponse ++ [block] }
  else .error .assertion

/-- SOURCE: Cache.h:258 -/
def accessReady (t : MshrTable) : Bool := !t.currentResponse.isEmpty

/-- SOURCE: Cache.cc:480-486 -/
def topNextAccess (t : MshrTable) : Except CacheFault ℕ :=
  match t.currentResponse with
  | [] => .error .assertion
  | block :: _ =>
    match t.entry block with
    | none => .error .assertion
    | some [] => .error .uninitialised
    | some (id :: _) => .ok id

/-- SOURCE: Cache.cc:467-478 -/
def popNextAccess (t : MshrTable) : Except CacheFault (ℕ × MshrTable) :=
  match t.currentResponse with
  | [] => .error .assertion
  | block :: rest =>
    match t.entry block with
    | none => .error .assertion
    | some [] => .error .uninitialised
    | some (id :: l) =>
      .ok (id, { t with
        table := KeyedQueues.popFront block t.table
        currentResponse := if l = [] then rest else t.currentResponse
        popped := t.popped ++ [id] })

end MshrTable

/-! ## The cache -/

/-- What the cache keeps of a read request until its fill.  `pending_read` is used with an MSHR
table of sectors only.
SOURCE: Cache.h:319-326 -/
structure ExtraMfFields where
  blockAddr : ℕ
  addr : ℕ
  cacheIndex : ℕ
  dataSize : ℕ
  deriving DecidableEq

/-- SOURCE: Cache.h:308-347 -/
structure DataCache where
  lines : ℕ → CacheBlock
  mshrs : MshrTable := {}
  missQueue : List ℕ := []
  extraMfFields : ℕ → Option ExtraMfFields := fun _ => none
  fetches : ℕ → CacheFetch
  uniqueUid : ℕ := 0

/-- A data cache before its first access.  The tags of its lines are whatever the memory
holds. -/
def DataCache.initial (cfg : CacheConfig) (tags : ℕ → ℕ × ℕ) (fetches : ℕ → CacheFetch) :
    DataCache where
  lines i := CacheBlock.initial cfg (tags i).1 (tags i).2
  fetches := fetches

namespace DataCache

variable (cfg : CacheConfig)

/-- SOURCE: Cache.h:351-354 -/
def missQueueFull (c : DataCache) (numMisses : ℕ) : Bool :=
  c.missQueue.length + numMisses > cfg.missQueueSize

/-- `new mem_fetch` -/
def newFetch (c : DataCache) (f : CacheFetch) : ℕ × DataCache :=
  (c.uniqueUid,
    { c with fetches := Function.update c.fetches c.uniqueUid f, uniqueUid := c.uniqueUid + 1 })

/-- A cache and the events of an access. -/
abbrev WithEvents := DataCache × List CacheEvent

/-- SOURCE: Cache.cc:803-808 -/
def sendWriteRequest (id : ℕ) (request : CacheEvent) (s : WithEvents) : WithEvents :=
  ({ s.1 with missQueue := s.1.missQueue ++ [id] }, s.2 ++ [request])

/-- The request that writes a packet of an evicted block back.
SOURCE: Cache.cc:811-817 -/
def writeBackFetch (evicted : EvictedBlockInfo) (i : ℕ) : CacheFetch where
  addr := evicted.blockAddr + i * cfg.atomSize
  accessType := .l2CacheWb
  mfType := .writeRequest
  dataSize := cfg.atomSize
  dirtyMask := evicted.dirtyMask

/-- SOURCE: Cache.cc:812-819 -/
def writeBackOne (evicted : EvictedBlockInfo) (s : WithEvents) (i : ℕ) : WithEvents :=
  let (id, c) := s.1.newFetch (writeBackFetch cfg evicted i)
  sendWriteRequest id (.writeBackRequestSent evicted) (c, s.2)

/-- SOURCE: Cache.cc:810-821 -/
def writeBack (evicted : EvictedBlockInfo) (s : WithEvents) : Except CacheFault WithEvents :=
  if cfg.atomSize = 0 then .error .divisionByZero
  else .ok ((List.range (evicted.modifiedSize / cfg.atomSize)).foldl (writeBackOne cfg evicted) s)

/-- What `send_read_request` gives back: `do_miss` and the block to write back. -/
structure ReadRequestResult where
  doMiss : Bool
  evicted : Option EvictedBlockInfo
  state : WithEvents

/-- The data cache calls it with `read_only` false and with `wa` true, so no event is recorded.
SOURCE: Cache.cc:579-622 -/
def sendReadRequest (addr blockAddr idx id time : ℕ) (s : WithEvents) :
    Except CacheFault ReadRequestResult := do
  let c := s.1
  let f := c.fetches id
  let mshrAddr := cfg.getMshrAddr addr
  let mshrHit := c.mshrs.probe mshrAddr
  let mshrAvail := !c.mshrs.full cfg mshrAddr
  if mshrHit && mshrAvail then
    let r ← TagArray.access cfg c.lines blockAddr time idx f.accessSector
    let mshrs ← c.mshrs.add cfg mshrAddr id
    return ⟨true, r.evicted, { c with lines := r.lines, mshrs }, s.2⟩
  else if !mshrHit && mshrAvail && !c.missQueueFull cfg 0 then
    let r ← TagArray.access cfg c.lines blockAddr time idx f.accessSector
    let mshrs ← c.mshrs.add cfg mshrAddr id
    let field : ExtraMfFields :=
      { blockAddr := mshrAddr, addr := f.addr, cacheIndex := r.idx, dataSize := f.dataSize }
    let f' := { f with dataSize := cfg.atomSize, addr := mshrAddr }
    let c' := { c with
      lines := r.lines
      mshrs
      extraMfFields := Function.update c.extraMfFields id (some field)
      fetches := Function.update c.fetches id f'
      missQueue := c.missQueue ++ [id] }
    return ⟨true, r.evicted, c', s.2⟩
  else return ⟨false, none, s⟩

/-- A function that handles a probe: the address, the line, the request, the time and the answer
of the probe. -/
abbrev Handler := ℕ → ℕ → ℕ → ℕ → CacheRequestStatus → WithEvents →
  Except CacheFault (CacheRequestStatus × WithEvents)

/-- The sector of a request in a line gets a status. -/
def setBlockStatus (c : DataCache) (idx id : ℕ) (status : CacheBlockState) : DataCache :=
  { c with
    lines := Function.update c.lines idx
      ((c.lines idx).setStatus status (c.fetches id).accessSector) }

/-- An access of the tag array for a hit.  It gives the line again, in which the status is set. -/
def touch (c : DataCache) (addr idx id time : ℕ) : Except CacheFault (ℕ × DataCache) := do
  let r ← TagArray.access cfg c.lines (cfg.getBlockAddr addr) time idx (c.fetches id).accessSector
  return (r.idx, { c with lines := r.lines })

/-- SOURCE: Cache.cc:825-834 -/
def wrHitWb : Handler := fun addr idx id time _ s => do
  let (idx, c) ← s.1.touch cfg addr idx id time
  return (.hit, c.setBlockStatus idx id .modified, s.2)

/-- SOURCE: Cache.cc:837-853 -/
def wrHitWt : Handler := fun addr idx id time _ s => do
  if s.1.missQueueFull cfg 0 then return (.reservationFail, s)
  let (idx, c) ← s.1.touch cfg addr idx id time
  return (.hit, sendWriteRequest id .writeRequestSent (c.setBlockStatus idx id .modified, s.2))

/-- SOURCE: Cache.cc:856-868 -/
def wrHitWe : Handler := fun _ idx id _ _ s => do
  if s.1.missQueueFull cfg 0 then return (.reservationFail, s)
  let (c, events) := sendWriteRequest id .writeRequestSent s
  return (.hit, c.setBlockStatus idx id .invalid, events)

/-- The write-backs of a miss, unless the cache writes through. -/
def writeBackEvicted (evicted : Option EvictedBlockInfo) (s : WithEvents) :
    Except CacheFault WithEvents :=
  match evicted with
  | some e => if cfg.writePolicy ≠ .writeThrough then writeBack cfg e s else .ok s
  | none => .ok s

/-- The read request of a write miss.
SOURCE: Cache.cc:892-895 -/
def writeAllocFetch (f : CacheFetch) : CacheFetch where
  addr := f.addr
  accessType := .l2CacheWa
  mfType := .readRequest
  dataSize := cfg.atomSize
  accessSector := f.accessSector
  coreId := f.coreId

/-- SOURCE: Cache.cc:872-914 -/
def wrMissWaNaive : Handler := fun addr idx id time status s => do
  let f := s.1.fetches id
  let mshrAddr := cfg.getMshrAddr addr
  let mshrHit := s.1.mshrs.probe mshrAddr
  let mshrAvail := !s.1.mshrs.full cfg mshrAddr
  if s.1.missQueueFull cfg 2 then return (.reservationFail, s)
  if mshrHit && !mshrAvail then return (.reservationFail, s)
  if !mshrHit && !mshrAvail then return (.reservationFail, s)
  let (c, events) := sendWriteRequest id .writeRequestSent s
  let (newId, c) := c.newFetch (writeAllocFetch cfg f)
  let r ← sendReadRequest cfg addr (cfg.getBlockAddr addr) idx newId time (c, events)
  if r.doMiss then
    if r.evicted.isSome ∧ cfg.writePolicy ≠ .writeThrough ∧ status ≠ .miss then
      .error .assertion
    else
      let s' ← writeBackEvicted cfg r.evicted r.state
      return (.miss, s')
  else return (.reservationFail, r.state)

/-- SOURCE: Cache.cc:917-927 -/
def wrMissNoWa : Handler := fun _ _ id _ _ s => do
  if s.1.missQueueFull cfg 0 then return (.reservationFail, s)
  return (.miss, sendWriteRequest id .writeRequestSent s)

/-- SOURCE: Cache.cc:929-940 -/
def rdHitBase : Handler := fun addr idx id time _ s => do
  let (_, c) ← s.1.touch cfg addr idx id time
  return (.hit, c, s.2)

/-- SOURCE: Cache.cc:942-960 -/
def rdMissBase : Handler := fun addr idx id time _ s => do
  if s.1.missQueueFull cfg 1 then return (.reservationFail, s)
  let r ← sendReadRequest cfg addr (cfg.getBlockAddr addr) idx id time s
  if r.doMiss then
    let s' ← writeBackEvicted cfg r.evicted r.state
    return (.miss, s')
  else return (.reservationFail, r.state)

/-- A cache cannot be made for the other write policies.
SOURCE: Cache.cc:712-738 -/
def wrHit : Handler :=
  match cfg.writePolicy with
  | .writeBack => wrHitWb cfg
  | .writeThrough => wrHitWt cfg
  | .writeEvict => wrHitWe cfg
  | _ => fun _ _ _ _ _ _ => .error .assertion

/-- SOURCE: Cache.cc:729-738 -/
def wrMiss : Handler :=
  match cfg.writeAllocPolicy with
  | .noWriteAllocate => wrMissNoWa cfg
  | .writeAllocate => wrMissWaNaive cfg
  | _ => fun _ _ _ _ _ _ => .error .assertion

/-- The width of the port divides the size of the data.
SOURCE: Cache.cc:624-650 -/
def useDataPort (outcome : CacheRequestStatus) (events : List CacheEvent) :
    Except CacheFault Unit :=
  let divides : Bool := match outcome with
    | .hit => true
    | .hitReserved | .miss => wasWritebackSent events
    | .sectorMiss | .reservationFail => false
  if divides && cfg.dataPortWidth = 0 then .error .divisionByZero else .ok ()

/-- The handler that a probe is given to; `none` when the access fails at once.
SOURCE: Cache.cc:776-798 -/
def selectHandler (wr : Bool) (probeStatus : CacheRequestStatus) : Option Handler :=
  if wr then
    if probeStatus = .hit then some (wrHit cfg)
    else if probeStatus ≠ .reservationFail ∨ cfg.writeAllocPolicy = .noWriteAllocate then
      some (wrMiss cfg)
    else none
  else
    if probeStatus = .hit then some (rdHitBase cfg)
    else if probeStatus ≠ .reservationFail then some (rdMissBase cfg)
    else none

/-- SOURCE: Cache.cc:769-801 -/
def processTagProbe (wr : Bool) (probeStatus : CacheRequestStatus) (addr idx id time : ℕ)
    (s : WithEvents) : Except CacheFault (CacheRequestStatus × WithEvents) := do
  let handled : Except CacheFault (CacheRequestStatus × WithEvents) :=
    match selectHandler cfg wr probeStatus with
    | some handler => handler addr idx id time probeStatus s
    | none => .ok (probeStatus, s)
  let (accessStatus, s') ← handled
  useDataPort cfg accessStatus s'.2
  return (accessStatus, s')

/-- SOURCE: Cache.cc:754-767 -/
def access (addr time id : ℕ) (s : WithEvents) :
    Except CacheFault (CacheRequestStatus × WithEvents) := do
  let f := s.1.fetches id
  let (probeStatus, idx) ←
    TagArray.probe cfg s.1.lines (cfg.getBlockAddr addr) (2 ^ 32 - 1) f.accessSector
  processTagProbe cfg f.isWrite probeStatus addr idx id time s

/-- The request that goes to the memory in a cycle.
SOURCE: Cache.cc:517-524 -/
def cycle (c : DataCache) : Option ℕ × DataCache :=
  (c.missQueue.head?, { c with missQueue := c.missQueue.tail })

/-- SOURCE: Cache.cc:575-577 -/
def waitingForFill (c : DataCache) (id : ℕ) : Bool := (c.extraMfFields id).isSome

/-- The tag array after a fill.  Nothing is filled with the policy `STREAMING`.
SOURCE: Cache.cc:546-552 -/
def fillTagArray (c : DataCache) (field : ExtraMfFields) (time : ℕ) (s : Sector) :
    Except CacheFault (ℕ → CacheBlock) :=
  match cfg.allocPolicy with
  | .onMiss => TagArray.fillIndex cfg c.lines field.cacheIndex s
  | .onFill => TagArray.fillAddr cfg c.lines field.blockAddr time s
  | .streaming => .ok c.lines

/-- An MSHR table of sectors reads a pointer that nothing sets.
SOURCE: Cache.cc:526-573 -/
def fill (c : DataCache) (id time : ℕ) : Except CacheFault DataCache := do
  if cfg.mshrType = .sectorAssoc then .error .uninitialised
  else
    match c.extraMfFields id with
    | none => .error .assertion
    | some field =>
      let f := c.fetches id
      let lines ← c.fillTagArray cfg field time f.accessSector
      let mshrs ← c.mshrs.markReady field.blockAddr
      if cfg.dataPortWidth = 0 then .error .divisionByZero
      else
        return { c with
          lines
          mshrs
          extraMfFields := Function.update c.extraMfFields id none
          fetches :=
            Function.update c.fetches id { f with dataSize := field.dataSize, addr := field.addr } }

/-- SOURCE: Cache.h:292 -/
def popNextAccess (c : DataCache) : Except CacheFault (ℕ × DataCache) := do
  let (id, mshrs) ← c.mshrs.popNextAccess
  return (id, { c with mshrs })

end DataCache

/-- The calls that the owner of a data cache makes: it looks a request up, gives a block that it
waits for, takes a request out whose block has come in, and runs a cycle. -/
inductive CacheAction
  | access (f : CacheFetch) (addr time : ℕ)
  | fill (id time : ℕ)
  | popNextAccess
  | cycle

/-- A call that the owner does not make changes nothing.
SOURCE: L2Cache.cc:25-110 -/
def DataCache.step (cfg : CacheConfig) (c : DataCache) : CacheAction → Except CacheFault DataCache
  | .access f addr time => do
    let (id, c) := c.newFetch f
    let (_, c, _) ← access cfg addr time id (c, [])
    return c
  | .fill id time => if c.waitingForFill id then c.fill cfg id time else .ok c
  | .popNextAccess =>
    if c.mshrs.accessReady then do
      let (_, c) ← c.popNextAccess
      return c
    else .ok c
  | .cycle => .ok c.cycle.2

/-- A data cache with the requests that it has sent and that are not answered. -/
structure CacheSystem where
  cache : DataCache
  memory : List ℕ := []

/-- The memory answers its requests in any order; the cache is filled with those that it waits
for. -/
def CacheSystem.step (cfg : CacheConfig) (s : CacheSystem) :
    CacheAction → Except CacheFault CacheSystem
  | .fill id time =>
    if id ∈ s.memory then do
      let cache ← s.cache.step cfg (.fill id time)
      return { cache, memory := s.memory.erase id }
    else .ok s
  | .cycle => .ok { cache := s.cache.cycle.2, memory := s.memory ++ s.cache.cycle.1.toList }
  | a => do
    let cache ← s.cache.step cfg a
    return { s with cache }

end PyTorchSim.Model
