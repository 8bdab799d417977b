import PyTorchSim.Model.Cache
import PyTorchSim.Model.DelayQueue

/-!
# The L2 cache

`L2DataCache` stands between the crossbar and the DRAM of a channel.  It takes requests from the
queue of the crossbar, gives those that are cacheable to a data cache, and puts the replies on
the queue back.  `L2System` adds what the cache does not determine: the requests that arrive, the
requests in the DRAM and the order in which these are answered.

`taken` records the requests that leave the queue from the crossbar and `sent` those that are put
on the queue toward it; nothing but the specification reads them.
-/

set_option autoImplicit false

namespace PyTorchSim.Model

/-- What an L2 cache is made with.
SOURCE: L2Cache.h:9-42 -/
structure L2Config where
  cache : CacheConfig
  l2dHitLatency : ℕ
  numCores : ℕ
  nReadPort : ℕ := 2
  nWritePort : ℕ := 1

/-- SOURCE: L2Cache.h:26-41, L2Cache.cc:15-23 -/
structure L2DataCache where
  cache : DataCache
  toXbarQueue : List ℕ := []
  fromXbarQueue : List ℕ := []
  toMemQueue : List ℕ := []
  fromCacheQueue : DelayQueue ℕ := {}
  readPort : ℕ → ℕ := fun _ => 0
  writePort : ℕ → ℕ := fun _ => 0
  coreCycle : ℕ := 0
  taken : List ℕ := []
  sent : List ℕ := []

namespace L2DataCache

variable (cfg : L2Config)

/-- The request with a number. -/
def fetch (l : L2DataCache) (id : ℕ) : CacheFetch := l.cache.fetches id

/-- A request is changed where it stands. -/
def modifyFetch (l : L2DataCache) (id : ℕ) (f : CacheFetch → CacheFetch) : L2DataCache :=
  { l with cache := { l.cache with
      fetches := Function.update l.cache.fetches id (f (l.cache.fetches id)) } }

/-- Requests of a core, not those that the cache makes itself. -/
def isGlobal (f : CacheFetch) : Bool := f.accessType = .globalAccR ∨ f.accessType = .globalAccW

/-- `l_to_xbar_queue->push(req)` -/
def pushXbar (l : L2DataCache) (id : ℕ) : L2DataCache :=
  { l with toXbarQueue := l.toXbarQueue ++ [id], sent := l.sent ++ [id] }

/-- `l_from_xbar_queue->pop()` -/
def popXbar (l : L2DataCache) : L2DataCache :=
  { l with
    fromXbarQueue := l.fromXbarQueue.tail
    taken := l.taken ++ l.fromXbarQueue.head?.toList }

/-- A reply of the DRAM.  The fill port is always free.
SOURCE: L2Cache.cc:25-40 -/
def push (l : L2DataCache) (id : ℕ) : Except CacheFault L2DataCache :=
  if !(l.fetch id).cacheable then .ok (l.pushXbar id)
  else if l.cache.waitingForFill id then do
    let cache ← l.cache.fill cfg.cache id (l.coreCycle % 2 ^ 32)
    return { l with cache }
  else if isGlobal (l.fetch id) then .ok (l.pushXbar id)
  else .ok l

/-- SOURCE: L2Cache.cc:112-126 -/
def portFree (l : L2DataCache) (f : CacheFetch) : Except CacheFault (Bool × L2DataCache) :=
  if cfg.numCores ≤ f.coreId then .error .outOfRange
  else if f.isWrite then
    let n := l.writePort f.coreId + 1
    .ok (n ≤ cfg.nWritePort, { l with writePort := Function.update l.writePort f.coreId n })
  else
    let n := l.readPort f.coreId + 1
    .ok (n ≤ cfg.nReadPort, { l with readPort := Function.update l.readPort f.coreId n })

/-- A request comes with an empty mask, and its address stays the same while it is retried.
SOURCE: Memfetch.h:55 -/
def setAccessSector (l : L2DataCache) (id : ℕ) : Except CacheFault L2DataCache :=
  if cfg.cache.lineSize = 0 ∨ cfg.cache.sectorSize = 0 then .error .divisionByZero
  else
    let sector := (l.fetch id).addr % cfg.cache.lineSize / cfg.cache.sectorSize
    if h : sector < sectorChunckSize then
      .ok (l.modifyFetch id fun f => { f with accessSector := ⟨sector, h⟩ })
    else .error .outOfRange

/-- A request that the cache has looked up.
SOURCE: L2Cache.cc:66-88 -/
def accessed (id : ℕ) (status : CacheRequestStatus) (events : List CacheEvent)
    (l : L2DataCache) : Except CacheFault L2DataCache :=
  let reply (l : L2DataCache) : L2DataCache :=
    let l := l.modifyFetch id CacheFetch.setReply
    { l with fromCacheQueue := l.fromCacheQueue.push id cfg.l2dHitLatency }
  match status with
  | .hit => .ok (if wasWriteSent events then l else reply l).popXbar
  | .reservationFail =>
    if wasWriteSent events ∨ wasReadSent events then .error .assertion else .ok l
  | _ =>
    let fetchOnWrite : Bool := cfg.cache.writeAllocPolicy = .fetchOnWrite ∨
      cfg.cache.writeAllocPolicy = .lazyFetchOnRead
    .ok (if (l.fetch id).isWrite && fetchOnWrite then reply l else l).popXbar

/-- The request at the front of the queue from the crossbar.  The Boolean tells whether the rest
of the iteration is left out.
SOURCE: L2Cache.cc:52-92 -/
def takeRequest (l : L2DataCache) : Except CacheFault (Bool × L2DataCache) := do
  match l.fromXbarQueue with
  | [] => return (false, l)
  | id :: _ =>
    if (l.fetch id).cacheable then
      let (free, l) ← l.portFree cfg (l.fetch id)
      if !free then return (true, l)
      let l ← l.setAccessSector cfg id
      let (status, cache, events) ←
        DataCache.access cfg.cache (l.fetch id).addr (l.coreCycle % 2 ^ 32) id (l.cache, [])
      let l ← accessed cfg id status events { l with cache }
      return (false, l)
    else return (false, { l with toMemQueue := l.toMemQueue ++ [id] }.popXbar)

/-- A request whose block has come in.  The queue to which it goes has no size.
SOURCE: L2Cache.cc:20, 94-101 -/
def takeReady (l : L2DataCache) : Except CacheFault L2DataCache := do
  if l.cache.mshrs.accessReady && !l.fromCacheQueue.full 0 then
    let id ← l.cache.mshrs.topNextAccess
    let l := if (l.fetch id).isRequest then l.modifyFetch id CacheFetch.setReply else l
    let l := { l with fromCacheQueue := l.fromCacheQueue.push id cfg.l2dHitLatency }
    let (_, cache) ← l.cache.popNextAccess
    return { l with cache }
  else return l

/-- A reply that has arrived.
SOURCE: L2Cache.cc:103-108 -/
def takeArrived (l : L2DataCache) : L2DataCache :=
  if l.fromCacheQueue.arrived then
    match l.fromCacheQueue.top with
    | none => l
    | some id =>
      let l' := if isGlobal (l.fetch id) then l.pushXbar id else l
      { l' with fromCacheQueue := l.fromCacheQueue.pop }
  else l

/-- One iteration of the loop over the ports.
SOURCE: L2Cache.cc:51-109 -/
def portIteration (l : L2DataCache) (_ : ℕ) : Except CacheFault L2DataCache := do
  let (skip, l) ← l.takeRequest cfg
  if skip then return l
  let l ← l.takeReady cfg
  return l.takeArrived

/-- The cache sends the front of its miss queue on, and the ports are free again.
SOURCE: L2Cache.cc:43-48, L2Cache.h:55-56 -/
def beginCycle (l : L2DataCache) : L2DataCache :=
  let (request, cache) := l.cache.cycle
  { l with
    cache
    fromCacheQueue := l.fromCacheQueue.cycle
    toMemQueue := l.toMemQueue ++ request.toList
    readPort := fun _ => 0
    writePort := fun _ => 0 }

/-- SOURCE: L2Cache.cc:42-110 -/
def cycle (l : L2DataCache) : Except CacheFault L2DataCache :=
  (List.range ((cfg.nReadPort + cfg.nWritePort) * cfg.numCores)).foldlM (portIteration cfg)
    l.beginCycle

end L2DataCache

/-- A request that a core sends: its address, type, size and core, and whether it is to be
cached.
SOURCE: DMA.cc:148-161 -/
structure XbarRequest where
  addr : ℕ
  isWrite : Bool
  dataSize : ℕ
  coreId : ℕ
  cacheable : Bool

/-- The `mem_fetch` of a request. -/
def XbarRequest.toFetch (r : XbarRequest) : CacheFetch where
  addr := r.addr
  accessType := if r.isWrite then .globalAccW else .globalAccR
  mfType := if r.isWrite then .writeRequest else .readRequest
  dataSize := r.dataSize
  coreId := r.coreId
  cacheable := r.cacheable

/-- An L2 cache with the requests that are in the DRAM. -/
structure L2System where
  l2 : L2DataCache
  dram : List ℕ := []

/-- What happens at an L2 cache.  The DRAM may answer its requests in any order, and it may have
turned them into replies.
SOURCE: Dram.cc:246-274, 475-506 -/
inductive L2Action
  | arrive (r : XbarRequest)
  | advance (cycles : ℕ)
  | cycle
  | toDram
  | reply (id : ℕ) (setsReply : Bool)
  | takeXbar

namespace L2System

variable (cfg : L2Config)

/-- An action that cannot happen changes nothing. -/
def step (s : L2System) : L2Action → Except CacheFault L2System
  | .arrive r =>
    let (id, cache) := s.l2.cache.newFetch r.toFetch
    .ok { s with l2 := { s.l2 with cache, fromXbarQueue := s.l2.fromXbarQueue ++ [id] } }
  | .advance cycles => .ok { s with l2 := { s.l2 with coreCycle := s.l2.coreCycle + cycles } }
  | .cycle => do
    let l2 ← s.l2.cycle cfg
    return { s with l2 }
  | .toDram =>
    .ok {
      l2 := { s.l2 with toMemQueue := s.l2.toMemQueue.tail }
      dram := s.dram ++ s.l2.toMemQueue.head?.toList }
  | .reply id setsReply =>
    if id ∈ s.dram then do
      let l2 := if setsReply then s.l2.modifyFetch id CacheFetch.setReply else s.l2
      let l2 ← l2.push cfg id
      return { l2, dram := s.dram.erase id }
    else .ok s
  | .takeXbar => .ok { s with l2 := { s.l2 with toXbarQueue := s.l2.toXbarQueue.tail } }

end L2System

/-- An L2 cache before its first request. -/
def L2System.initial (cfg : L2Config) (tags : ℕ → ℕ × ℕ) (fetches : ℕ → CacheFetch) : L2System where
  l2 := { cache := DataCache.initial cfg.cache tags fetches }

end PyTorchSim.Model
