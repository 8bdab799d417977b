import Mathlib.Data.Rat.Defs
import PyTorchSim.Model.Interconnect
import PyTorchSim.Model.DelayQueue

/-!
# The simple DRAM

A channel of the simple DRAM is a delay queue.  Between the interconnect and a channel is an L2
cache; without one a request only passes through, one in each cycle of the cores.  The replies
go back without a delay.

The bandwidth credit is a floating-point number in the source and a rational number here.
-/

set_option autoImplicit false

namespace PyTorchSim.Model

/-- `caches` are the queues toward the memory of the caches; a cycle of the DRAM moves
`bytesPerDramCycle` bytes in each channel, any number if it is 0.
SOURCE: Dram.h:43-53, Dram.h:106-110, Dram.cc:441-454 -/
structure SimpleDRAM (ι : Type) where
  nCh : ℕ
  latency : ℕ
  reqSize : ℕ
  bytesPerDramCycle : ℚ := 0
  fromCrossbarQueue : ℕ → List (Access ι) := fun _ => []
  caches : ℕ → List (Access ι) := fun _ => []
  mem : ℕ → DelayQueue (Access ι) := fun _ => {}
  toCrossbarQueue : ℕ → List (Access ι) := fun _ => []
  bwCreditBytes : ℕ → ℚ := fun _ => reqSize * 2

namespace SimpleDRAM

variable {ι : Type}

/-- SOURCE: Dram.cc:465-473 -/
def running (d : SimpleDRAM ι) : Bool :=
  (List.range d.nCh).any fun ch => !(d.mem ch).queueEmpty || !(d.caches ch).isEmpty

/-- The clock of a channel and its credit.
SOURCE: Dram.cc:477-480 -/
def tick (d : SimpleDRAM ι) (ch : ℕ) : SimpleDRAM ι :=
  { d with
    mem := Function.update d.mem ch (d.mem ch).cycle
    bwCreditBytes := if 0 < d.bytesPerDramCycle then
      Function.update d.bwCreditBytes ch (d.bwCreditBytes ch + d.bytesPerDramCycle)
      else d.bwCreditBytes }

/-- Whether the credit of a channel admits a request.
SOURCE: Dram.cc:484-491 -/
def admits (d : SimpleDRAM ι) (ch : ℕ) : Bool :=
  !(0 < d.bytesPerDramCycle) || !(d.bwCreditBytes ch < d.reqSize)

/-- From the cache to the DRAM.
SOURCE: Dram.cc:482-496 -/
def fromCache (d : SimpleDRAM ι) (ch : ℕ) : SimpleDRAM ι :=
  match d.caches ch with
  | [] => d
  | req :: rest =>
    if d.admits ch then
      { d with
        mem := Function.update d.mem ch ((d.mem ch).push req d.latency)
        caches := Function.update d.caches ch rest
        bwCreditBytes := if 0 < d.bytesPerDramCycle then
          Function.update d.bwCreditBytes ch (d.bwCreditBytes ch - d.reqSize)
          else d.bwCreditBytes }
    else d

/-- From the DRAM to the cache, which takes the reply and hands it on at once.
SOURCE: Dram.cc:498-504, L2Cache.cc:3-6 -/
def toCache (d : SimpleDRAM ι) (ch : ℕ) : SimpleDRAM ι :=
  if (d.mem ch).arrived then
    match (d.mem ch).top with
    | none => d
    | some req => { d with
        mem := Function.update d.mem ch (d.mem ch).pop
        toCrossbarQueue := Function.update d.toCrossbarQueue ch
          (d.toCrossbarQueue ch ++ [req.setReply]) }
  else d

/-- SOURCE: Dram.cc:475-506 -/
def cycle (d : SimpleDRAM ι) : SimpleDRAM ι :=
  (List.range d.nCh).foldl (fun d ch => ((d.tick ch).fromCache ch).toCache ch) d

/-- The cycle of the cache of a channel when there is no cache.
SOURCE: L2Cache.cc:7-13 -/
def noL2Cycle (d : SimpleDRAM ι) (ch : ℕ) : SimpleDRAM ι :=
  match d.fromCrossbarQueue ch with
  | [] => d
  | req :: rest => { d with
      caches := Function.update d.caches ch (d.caches ch ++ [req])
      fromCrossbarQueue := Function.update d.fromCrossbarQueue ch rest }

/-- SOURCE: Dram.cc:508-512 -/
def cacheCycle (d : SimpleDRAM ι) : SimpleDRAM ι := (List.range d.nCh).foldl noL2Cycle d

/-- SOURCE: Dram.cc:514-516 -/
def isFull (_ : SimpleDRAM ι) (_cid : ℕ) : Bool := false

/-- SOURCE: Dram.cc:518-520 -/
def push (d : SimpleDRAM ι) (cid : ℕ) (request : Access ι) : SimpleDRAM ι :=
  { d with
    fromCrossbarQueue :=
      Function.update d.fromCrossbarQueue cid (d.fromCrossbarQueue cid ++ [request]) }

/-- SOURCE: Dram.cc:522-524 -/
def isEmpty (d : SimpleDRAM ι) (cid : ℕ) : Bool := (d.toCrossbarQueue cid).isEmpty

/-- SOURCE: Dram.cc:526-529 -/
def top (d : SimpleDRAM ι) (cid : ℕ) : Except SimFault (Access ι) :=
  match d.toCrossbarQueue cid with
  | [] => .error .emptyQueue
  | a :: _ => .ok a

/-- SOURCE: Dram.cc:531-534 -/
def pop (d : SimpleDRAM ι) (cid : ℕ) : SimpleDRAM ι :=
  { d with
    toCrossbarQueue := Function.update d.toCrossbarQueue cid (d.toCrossbarQueue cid).tail }

end SimpleDRAM

end PyTorchSim.Model
