import Mathlib.Data.Rat.Floor
import PyTorchSim.Library.Delimited
import PyTorchSim.Library.KeyedQueues
import PyTorchSim.Model.Instruction
import PyTorchSim.Model.Strings

/-!
# The trace of DMA accesses and the latencies that come back

The trace manager writes a row of comma-separated values for each DMA instruction.  Another
program adds a latency to each row, and a later run reads the file back: it keeps a queue of
latencies for each core, instruction and address name, and the DMA engine takes from it.
-/

set_option autoImplicit false

namespace PyTorchSim.Model

open PyTorchSim.Library

/-! ## Rows of comma-separated values -/

def isBlank (c : Char) : Bool := c = ' ' ∨ c = '\t' ∨ c = '\r' ∨ c = '\n'

/-- SOURCE: SsdTrace.cc:15-21 -/
def trimCopy (s : List Char) : List Char := trim isBlank s

/-- Every token is trimmed, and dropped if nothing is left of it.
SOURCE: SsdTrace.cc:23-33 -/
def splitCsv (s : List Char) : List (List Char) :=
  ((fields ',' s).map trimCopy).filter (· ≠ [])

/-! ## The manager -/

/-- What the trace reads of a DMA instruction. -/
structure TracedInst where
  globalInstId : UInt64
  opcode : Opcode
  tileNumel : ℕ
  elemBits : ℕ
  baseDramAddress : ℕ
  addrName : List Char

namespace TracedInst

def isDmaRead (inst : TracedInst) : Bool := inst.opcode = .movin
def isDmaWrite (inst : TracedInst) : Bool := inst.opcode = .movout

/-- SOURCE: SsdTrace.cc:254-256 -/
def totalBytes (inst : TracedInst) : ℕ :=
  let totalBits := inst.tileNumel % 2 ^ 64 * (inst.elemBits % 2 ^ 64) % 2 ^ 64
  (totalBits + 7) % 2 ^ 64 / 8

end TracedInst

/-- One row of the trace. -/
structure TraceRow where
  seq : UInt64
  op : Char
  addr : ℕ
  totalBytes : ℕ
  timestampNs : ℕ
  coreId : UInt32
  instId : UInt64
  addrName : List Char

/-- SOURCE: SsdTrace.cc:260-267 -/
def TraceRow.text (row : TraceRow) : List Char :=
  [','].intercalate [Nat.toDigits 10 row.seq.toNat, [row.op], Nat.toDigits 10 row.addr,
    Nat.toDigits 10 row.totalBytes, Nat.toDigits 10 row.timestampNs,
    Nat.toDigits 10 row.coreId.toNat, Nat.toDigits 10 row.instId.toNat, row.addrName]

/-- SOURCE: SsdTrace.cc:103 -/
def traceHeader : List Char :=
  "seq,op,addr,len,timestamp_ns,core_id,inst_id,addr_name".toList

/-- SOURCE: SsdTrace.h:30-55 -/
structure SsdTraceManager where
  enabled : Bool := false
  traceFile : List Char := []
  instTraced : List UInt64 := []
  traceSeq : UInt64 := 0
  latencyEnabled : Bool := false
  latencyMap : List (List Char × List ℕ) := []

namespace SsdTraceManager

/-- The manager after the trace file is opened.
SOURCE: SsdTrace.cc:61-62 and 97-104 -/
def opened : SsdTraceManager := { enabled := true, traceFile := traceHeader ++ ['\n'] }

/-- The time of a cycle.  The period is a floating-point number in the source, and a rational
number here.
SOURCE: SsdTrace.cc:249-250 -/
def timestampNs (coreCycle coreFreqMhz : ℕ) : ℕ :=
  let periodNs : ℚ := if 0 < coreFreqMhz then 1000 / coreFreqMhz else 0
  ⌊(coreCycle : ℚ) * periodNs + 1 / 2⌋₊ % 2 ^ 64

/-- The row of an instruction. -/
def row (m : SsdTraceManager) (coreId : UInt32) (coreCycle coreFreqMhz : ℕ)
    (inst : TracedInst) : TraceRow where
  seq := m.traceSeq
  op := if inst.isDmaWrite then 'W' else 'R'
  addr := inst.baseDramAddress
  totalBytes := inst.totalBytes
  timestampNs := timestampNs coreCycle coreFreqMhz
  coreId := coreId
  instId := inst.globalInstId
  addrName := inst.addrName

/-- An instruction has a row the first time only.
SOURCE: SsdTrace.cc:239-271 -/
def maybeTraceAndMark (m : SsdTraceManager) (coreId : UInt32) (coreCycle coreFreqMhz : ℕ)
    (inst : TracedInst) : SsdTraceManager :=
  if !m.enabled then m
  else if !inst.isDmaRead && !inst.isDmaWrite then m
  else if inst.globalInstId ∈ m.instTraced then m
  else
    { m with
      traceFile := m.traceFile ++ ((m.row coreId coreCycle coreFreqMhz inst).text ++ ['\n'])
      traceSeq := m.traceSeq + 1
      instTraced := inst.globalInstId :: m.instTraced }

/-- SOURCE: SsdTrace.cc:161-163 -/
def makeLatencyKey (coreId instId : ℕ) (addrName : List Char) : List Char :=
  Nat.toDigits 10 coreId ++ '|' :: (Nat.toDigits 10 instId ++ '|' :: addrName)

/-- The loop over the lines of the latency file. -/
structure LatencyReader where
  firstLine : Bool := true
  latencyMap : List (List Char × List ℕ) := []

/-- A row of at least nine tokens.
SOURCE: SsdTrace.cc:187-195 -/
def LatencyReader.row (r : LatencyReader) (line : List Char) :
    Except ConversionError LatencyReader :=
  match splitCsv line with
  | _ :: _ :: _ :: _ :: _ :: coreId :: instId :: addrName :: latencyNs :: _ => do
    let coreId ← stoul coreId
    let instId ← stoull instId
    let latencyNs ← stoull latencyNs
    let key := makeLatencyKey (coreId % 2 ^ 32) instId addrName
    return { r with latencyMap := KeyedQueues.pushBack key latencyNs r.latencyMap }
  | _ => .ok r

/-- SOURCE: SsdTrace.cc:179-196 -/
def LatencyReader.line (r : LatencyReader) (line : List Char) :
    Except ConversionError LatencyReader :=
  if line = [] then .ok r
  else if r.firstLine && "seq,".toList.isPrefixOf line then .ok { r with firstLine := false }
  else { r with firstLine := false }.row line

/-- `file` is what the file at the latency path holds, if it can be opened.
SOURCE: SsdTrace.cc:165-198 -/
def loadLatencyFile (m : SsdTraceManager) (file : Option (List Char)) :
    Except ConversionError SsdTraceManager :=
  match file with
  | none => .ok { m with latencyEnabled := false }
  | some text => do
    let r ← (fields '\n' text).foldlM LatencyReader.line { latencyMap := m.latencyMap }
    return { m with latencyMap := r.latencyMap, latencyEnabled := !r.latencyMap.isEmpty }

/-- SOURCE: SsdTrace.cc:273-287 -/
def popLatencyForInstruction (m : SsdTraceManager) (coreId : UInt32) (inst : TracedInst) :
    SsdTraceManager × Option ℕ :=
  if !m.latencyEnabled then (m, none)
  else
    let key := makeLatencyKey coreId.toNat inst.globalInstId.toNat inst.addrName
    match KeyedQueues.find key m.latencyMap with
    | some (latencyNs :: _) =>
      ({ m with latencyMap := KeyedQueues.popFront key m.latencyMap }, some latencyNs)
    | _ => (m, none)

end SsdTraceManager

end PyTorchSim.Model
