import PyTorchSim.Model.Instruction

/-!
# The iterator over the outer loops

`TileGraph::Iterator` is an odometer: the last index is advanced first, and an index that leaves its
range goes back to the start and carries into the one before it.
-/

set_option autoImplicit false

namespace PyTorchSim.Model

/-- SOURCE: TileGraph.h:81, TileGraph.h:124 (`std::tuple<int, int, int>`) -/
structure LoopRange where
  start : ℤ
  stop : ℤ
  step : ℤ
  deriving DecidableEq, Repr

/-- SOURCE: TileGraph.h:123-126 -/
structure Iterator where
  ranges : List LoopRange
  indices : List ℤ
  finished : Bool
  deriving DecidableEq, Repr

namespace Iterator

/-- The indices behind the increment, and whether the loop ran through all of them.  The places
behind an index are advanced before it.
SOURCE: TileGraph.h:87-101 -/
def advance : List LoopRange → List ℤ → List ℤ × Bool
  | range :: ranges, index :: indices =>
    match advance ranges indices with
    | (indices, false) => (index :: indices, false)
    | (indices, true) =>
      let current := i32 (index + range.step)
      if current < range.stop then (current :: indices, false)
      else (range.start :: indices, true)
  | _, _ => ([], true)

/-- SOURCE: TileGraph.h:86-104 -/
def next (it : Iterator) : Iterator :=
  let (indices, exhausted) := advance it.ranges it.indices
  { it with indices := indices, finished := it.finished || exhausted }

/-- SOURCE: TileGraph.h:79-84, 129-131 -/
def begin (ranges : List LoopRange) : Iterator where
  ranges := ranges
  indices := ranges.map (·.start)
  finished := false

/-- What a loop from the iterator to the end goes through.  The end is an iterator whose flag is
set, and nothing but the flags is compared.
SOURCE: TileGraph.h:106-109, TileGraphParser.cc:844 -/
inductive Yields : Iterator → List (List ℤ) → Prop
  | done (it : Iterator) : it.finished = true → Yields it []
  | next (it : Iterator) (l : List (List ℤ)) : it.finished = false → Yields it.next l →
      Yields it (it.indices :: l)

end Iterator

end PyTorchSim.Model
