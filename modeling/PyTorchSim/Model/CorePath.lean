import Mathlib.Data.Finset.Basic
import PyTorchSim.Model.Core

/-!
# A core and its requests

A core as the simulator runs it, with any interconnect and any DRAM behind it: a cycle of the
cores runs the core and then the L2 caches, and the request of a core comes back only after a
cycle of the caches took it.  Without a cache that is all that is required of the memory: the
replies come in any order.

The requests that left the core are numbered in their order.  `taken` are the numbers of those
that the caches took, `answered` of those whose reply the core got.
-/

set_option autoImplicit false

namespace PyTorchSim.Model

/-- A core and the requests that left it. -/
structure CorePath (τ ι : Type) where
  core : Core τ ι
  sent : List (MemFetch ι) := []
  taken : Finset ℕ := ∅
  answered : Finset ℕ := ∅

/-- What happens to a core and its requests: it is given a tile, a finished tile is taken from
it, it has a cycle at whose end the caches take the requests `taken`, a request leaves it, or
it gets the reply to the request with number `n`. -/
inductive PathAction (τ : Type)
  | issue (t : τ)
  | popFinishedTile
  | coreCycle (env : CycleEnv) (taken : Finset ℕ)
  | popMemoryRequest
  | pushMemoryResponse (n : ℕ)

namespace CorePath

variable {τ ι : Type} [DecidableEq τ] [DecidableEq ι]

/-- A core that has been given no tile. -/
def init (P : TileProgram τ ι) : CorePath τ ι := { core := { heap := P.heap } }

/-- A tile is given to the core once, the caches take requests that left the core, and a
request that they took is answered once. -/
def Legal (p : CorePath τ ι) : PathAction τ → Prop
  | .issue t => t ∉ p.core.issuedTiles
  | .coreCycle _ taken => ∀ n ∈ taken, n < p.sent.length
  | .pushMemoryResponse n => n ∈ p.taken ∧ n ∉ p.answered
  | _ => True

/-- SOURCE: Simulator.cc:97-157 -/
def step (cfg : CoreConfig) (p : CorePath τ ι) :
    PathAction τ → Except CoreFault (CorePath τ ι)
  | .issue t => .ok { p with core := p.core.issue t }
  | .popFinishedTile => .ok { p with core := p.core.popFinishedTile.2 }
  | .coreCycle env taken => do
    let core ← p.core.cycle cfg env
    pure { p with core := core, taken := p.taken ∪ taken }
  | .popMemoryRequest =>
    match p.core.requestQueue with
    | [] => .ok p
    | r :: rest =>
      .ok { p with core := { p.core with requestQueue := rest }, sent := p.sent ++ [r] }
  | .pushMemoryResponse n =>
    match p.sent[n]? with
    | none => .ok p
    | some r =>
      .ok { p with core := p.core.pushMemoryResponse r, answered := insert n p.answered }

end CorePath

end PyTorchSim.Model
