import Mathlib.Data.Nat.Bitwise
import Mathlib.Data.Nat.Log
import Mathlib.Tactic.Common

/-!
# The address map of the DRAM

A request goes to a channel that a polynomial hash picks in the partition of its NUMA node,
and within the channel to an address from which the channel number is divided out.
-/

set_option autoImplicit false

namespace PyTorchSim.Model

/-- SOURCE: Dram.cc:19 -/
def isPowerOf2U32 (n : ℕ) : Bool := n ≠ 0 && (n &&& (n - 1)) = 0

/-- The loop counts how often `n` can be halved, as `Nat.log2` does.
SOURCE: Dram.cc:21-26 -/
def floorLog2U32 (n : ℕ) : ℕ := Nat.log2 n

/-- SOURCE: Dram.cc:29-39 -/
def nextPowerOf2U32 (n : ℕ) : ℕ :=
  if n ≤ 1 then 1
  else
    let n := n - 1
    let n := n ||| n >>> 1
    let n := n ||| n >>> 2
    let n := n ||| n >>> 4
    let n := n ||| n >>> 8
    let n := n ||| n >>> 16
    (n + 1) % 2 ^ 32

/-- A number from its bits, the lowest first (`std::bitset::to_ulong`). -/
def bitsetToUlong : List Bool → ℕ
  | [] => 0
  | b :: bs => b.toNat + 2 * bitsetToUlong bs

/-- The polynomial hash; `none` when the program exits.
SOURCE: Hashing.cc:9-97 -/
def ipolyHashFunction (higherBits index bankSetNum : ℕ) : Option ℕ :=
  let a := higherBits.testBit
  let b := index.testBit
  if bankSetNum = 16 then
    some (bitsetToUlong [
      a 11 ^^ a 10 ^^ a 9 ^^ a 8 ^^ a 6 ^^ a 4 ^^ a 3 ^^ a 0 ^^ b 0,
      a 12 ^^ a 8 ^^ a 7 ^^ a 6 ^^ a 5 ^^ a 3 ^^ a 1 ^^ a 0 ^^ b 1,
      a 9 ^^ a 8 ^^ a 7 ^^ a 6 ^^ a 4 ^^ a 2 ^^ a 1 ^^ b 2,
      a 10 ^^ a 9 ^^ a 8 ^^ a 7 ^^ a 5 ^^ a 3 ^^ a 2 ^^ b 3])
  else if bankSetNum = 32 then
    some (bitsetToUlong [
      a 13 ^^ a 12 ^^ a 11 ^^ a 10 ^^ a 9 ^^ a 6 ^^ a 5 ^^ a 3 ^^ a 0 ^^ b 0,
      a 14 ^^ a 13 ^^ a 12 ^^ a 11 ^^ a 10 ^^ a 7 ^^ a 6 ^^ a 4 ^^ a 1 ^^ b 1,
      a 14 ^^ a 10 ^^ a 9 ^^ a 8 ^^ a 7 ^^ a 6 ^^ a 3 ^^ a 2 ^^ a 0 ^^ b 2,
      a 11 ^^ a 10 ^^ a 9 ^^ a 8 ^^ a 7 ^^ a 4 ^^ a 3 ^^ a 1 ^^ b 3,
      a 12 ^^ a 11 ^^ a 10 ^^ a 9 ^^ a 8 ^^ a 5 ^^ a 4 ^^ a 2 ^^ b 4])
  else if bankSetNum = 64 then
    some (bitsetToUlong [
      a 18 ^^ a 17 ^^ a 16 ^^ a 15 ^^ a 12 ^^ a 10 ^^ a 6 ^^ a 5 ^^ a 0 ^^ b 0,
      a 15 ^^ a 13 ^^ a 12 ^^ a 11 ^^ a 10 ^^ a 7 ^^ a 5 ^^ a 1 ^^ a 0 ^^ b 1,
      a 16 ^^ a 14 ^^ a 13 ^^ a 12 ^^ a 11 ^^ a 8 ^^ a 6 ^^ a 2 ^^ a 1 ^^ b 2,
      a 17 ^^ a 15 ^^ a 14 ^^ a 13 ^^ a 12 ^^ a 9 ^^ a 7 ^^ a 3 ^^ a 2 ^^ b 3,
      a 18 ^^ a 16 ^^ a 15 ^^ a 14 ^^ a 13 ^^ a 10 ^^ a 8 ^^ a 4 ^^ a 3 ^^ b 4,
      a 17 ^^ a 16 ^^ a 15 ^^ a 14 ^^ a 11 ^^ a 9 ^^ a 5 ^^ a 4 ^^ b 5])
  else none

/-- The size of the hash table for a number of channels.
SOURCE: Dram.cc:187-188 -/
def polyUse (n : ℕ) : ℕ := min (nextPowerOf2U32 (max 16 n)) 64

/-- The values of the configuration that the address map depends on: the channels are dealt
out evenly to the partitions, and a request has a power of two of bytes.
SOURCE: Common.cc:104-116, Dram.cc:198-205 -/
structure DramConfig where
  nPartitions : ℕ
  nChPerPartition : ℕ
  txLog2 : ℕ
  partitions_pos : 0 < nPartitions
  channels_pos : 0 < nChPerPartition
  channels_lt : nPartitions * nChPerPartition < 2 ^ 32
  txLog2_lt : txLog2 < 32

namespace DramConfig

variable (d : DramConfig)

/-- SOURCE: Dram.cc:163-169 -/
def partitionDramAddress (rawAddr : ℕ) : ℕ :=
  let tx := rawAddr >>> d.txLog2
  let q := tx / d.nChPerPartition
  q <<< d.txLog2

/-- SOURCE: Dram.cc:172-191 -/
def channelInPartition (addr : ℕ) : Option ℕ :=
  let n := d.nChPerPartition
  if 1 < n then
    let tx := addr >>> d.txLog2
    let (restHigh, initIndex) :=
      if isPowerOf2U32 n then (tx >>> floorLog2U32 n, tx &&& (n - 1)) else (tx / n, tx % n)
    (ipolyHashFunction restHigh initIndex (polyUse n)).map (· % n)
  else some 0

/-- SOURCE: Dram.cc:171-196 -/
def getChannelId (addr numaId : ℕ) : Option ℕ :=
  (d.channelInPartition addr).map fun c =>
    (c + numaId % d.nPartitions * d.nChPerPartition) % 2 ^ 32

end DramConfig

end PyTorchSim.Model
