import PyTorchSim.Library.Delimited
import PyTorchSim.Model.Strings

/-!
# The commands of the trace file

A Python process drives the simulator through a file of commands, one on a line: it launches
kernels and it synchronizes a device.  The simulator reads the file line by line.
-/

set_option autoImplicit false

namespace PyTorchSim.Model

open PyTorchSim.Library

/-- The fields of a line. -/
structure Command where
  commandType : List Char
  kernelId : ℤ
  deviceIndex : ℤ
  streamIndex : ℤ
  togPath : List Char
  attributePath : List Char
  timestamp : ℤ
deriving DecidableEq

def launchKernelType : List Char := "LAUNCH_KERNEL".toList
def deviceSyncType : List Char := "DEVICE_SYNC".toList

/-! ## The writer -/

/-- The text of a command, without the end of its line.
SOURCE: simulator.py:355-356 -/
def Command.text (c : Command) : List Char :=
  [','].intercalate [c.commandType, decimal c.kernelId, decimal c.deviceIndex,
    decimal c.streamIndex, c.togPath, c.attributePath, decimal c.timestamp]

inductive SimulatorProcess where
  | absent
  | running
  | terminated

inductive SendError where
  | notRunning
  | terminated
  | writeFailed

def traceLogHeader : List Char :=
  ("# command_type, kernel_id, device_index, stream_index, tog_path, attribute_path, " ++
    "timestamp\n").toList

/-- `writable` tells whether the next write to the trace file succeeds.
SOURCE: simulator.py:243-281 -/
structure TOGSimulator where
  process : SimulatorProcess
  nextKernelId : ℕ := 0
  traceFile : List Char := []
  traceLog : List Char := traceLogHeader
  writable : Bool := true

/-- A kernel takes its id also when the write fails.
SOURCE: simulator.py:330-368 -/
def TOGSimulator.sendCommand (sim : TOGSimulator) (commandType : List Char)
    (deviceIndex streamIndex : ℤ) (togPath attributePath : List Char) (timestamp : ℤ) :
    TOGSimulator × Except SendError ℕ :=
  match sim.process with
  | .absent => (sim, .error .notRunning)
  | .terminated => (sim, .error .terminated)
  | .running =>
    let kernelId := sim.nextKernelId
    let sim := { sim with nextKernelId := sim.nextKernelId + 1 }
    let command : Command :=
      { commandType, kernelId, deviceIndex, streamIndex, togPath, attributePath, timestamp }
    if sim.writable then
      ({ sim with
          traceFile := sim.traceFile ++ (command.text ++ ['\n'])
          traceLog := sim.traceLog ++ (command.text ++ ['\n']) }, .ok kernelId)
    else (sim, .error .writeFailed)

/-- SOURCE: simulator.py:419-433 -/
def TOGSimulator.launchKernel (sim : TOGSimulator) (deviceIndex streamIndex : ℤ)
    (togPath attributePath : List Char) (timestamp : ℤ) : TOGSimulator × Except SendError ℕ :=
  sim.sendCommand launchKernelType deviceIndex streamIndex togPath attributePath timestamp

/-- SOURCE: simulator.py:435-447 -/
def TOGSimulator.deviceSynchronize (sim : TOGSimulator) (deviceIndex : ℤ) :
    TOGSimulator × Except SendError ℕ :=
  sim.sendCommand deviceSyncType deviceIndex 0 [] [] 0

/-! ## The reader -/

/-- What the reader calls.  An exception inside of either is caught, so a call always leaves a
state of the simulator. -/
structure TraceHandlers (σ : Type) where
  /-- The id, the two paths, the request time, the partition and the device. -/
  launchKernel : ℕ → List Char → List Char → ℕ → ℤ → ℤ → σ → σ
  cycle : σ → σ

/-- The values of a line.  Empty lines, comments and lines that are not of seven fields have none.
SOURCE: main.cc:41-70 -/
def readLine (line : List Char) : Except ConversionError (Option Command) :=
  if line = [] then .ok none
  else if line.head? = some '#' then .ok none
  else
    match fields ',' line with
    | [commandType, kernelId, deviceIndex, streamIndex, togPath, attributePath, timestamp] => do
      let kernelId ← stoul kernelId
      let deviceIndex ← stoi deviceIndex
      let streamIndex ← stoi streamIndex
      let timestamp ← stoi timestamp
      return some { commandType, kernelId := (kernelId % 2 ^ 32 : ℕ), deviceIndex, streamIndex,
                    togPath, attributePath, timestamp }
    | _ => .ok none

/-- The state of the simulator, and the commands that have been handed to it. -/
structure TraceRun (σ : Type) where
  simulator : σ
  commands : List Command := []

/-- A command of an unknown type is passed over.  The timestamp is the request time of a kernel,
and the stream is its partition.
SOURCE: main.cc:73-84 -/
def TraceRun.dispatch {σ : Type} (handlers : TraceHandlers σ) (run : TraceRun σ) (c : Command) :
    TraceRun σ :=
  if c.commandType = launchKernelType then
    { simulator := handlers.launchKernel c.kernelId.toNat c.togPath c.attributePath
        (c.timestamp % 2 ^ 64).toNat c.streamIndex c.deviceIndex run.simulator
      commands := run.commands ++ [c] }
  else if c.commandType = deviceSyncType then
    { simulator := handlers.cycle run.simulator, commands := run.commands ++ [c] }
  else run

/-- One line.  It is read in front of the try block: what a conversion throws ends the process.
SOURCE: main.cc:40-85 -/
def TraceRun.line {σ : Type} (handlers : TraceHandlers σ) (run : TraceRun σ)
    (line : List Char) : Except ConversionError (TraceRun σ) := do
  let command ← readLine line
  return command.elim run (run.dispatch handlers)

/-- SOURCE: main.cc:28-88 -/
def processTraceFile {σ : Type} (handlers : TraceHandlers σ) (simulator : σ)
    (traceFile : List Char) : Except ConversionError (TraceRun σ) := do
  let run ← (fields '\n' traceFile).foldlM (TraceRun.line handlers) { simulator }
  return { run with simulator := handlers.cycle run.simulator }

end PyTorchSim.Model
