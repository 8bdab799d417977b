import PyTorchSim.Model.CachePlan

/-!
# The tree of intervals

The plan is kept as a tree.  A node has a center, the intervals that have it, and two subtrees for
the intervals below and above it.  A query leaves out the subtrees that the center rules out.

The order in which `std::sort` leaves intervals of one beginning is not given, so the sort is a
parameter.  A constructor whose assertions fail, or that asks for the front of no intervals, gives no
tree.
-/

set_option autoImplicit false

namespace PyTorchSim.Model

/-- SOURCE: IntervalTree.h:334-338 -/
inductive IntervalTree where
  | nil
  | node (intervals : List Interval) (left right : IntervalTree) (center : ℕ)
  deriving DecidableEq, Repr

namespace IntervalTree

/-- `std::numeric_limits<Scalar>::max()` -/
def scalarMax : ℕ := u64 (2 ^ 64 - 1)

def minStart (ivals : List Interval) : ℕ := (ivals.map Interval.start).min?.getD 0

def maxStop (ivals : List Interval) : ℕ := (ivals.map Interval.stop).max?.getD 0

/-- `std::is_sorted` -/
def isSorted (ivals : List Interval) : Bool := decide (ivals.Pairwise fun a b => a.start ≤ b.start)

def join (e e' : ℕ × ℕ) : ℕ × ℕ := (min e.1 e'.1, min e.2 e'.2)

/-- Whether the constraints hold, and the extent: its end is compared with `std::min` and so is
always 0.
SOURCE: IntervalTree.h:268-306 -/
def isValid : IntervalTree → Bool × (ℕ × ℕ)
  | nil => (true, (scalarMax, 0))
  | node intervals left right center =>
    let own :=
      if intervals = [] then (scalarMax, 0)
      else join (scalarMax, 0) (minStart intervals, maxStop intervals)
    let l := left.isValid
    if left ≠ nil ∧ (l.1 = false ∨ center ≤ l.2.2) then (false, join own l.2)
    else
      let extent := if left = nil then own else join own l.2
      let r := right.isValid
      if right ≠ nil ∧ (r.1 = false ∨ r.2.1 ≤ center) then (false, join extent r.2)
      else (isSorted intervals, if right = nil then extent else join extent r.2)

/-- `assert(is_valid().first)` -/
def checked (t : IntervalTree) : Option IntervalTree := if t.isValid.1 then some t else none

/-- A subtree is made of intervals, if there are any. -/
def subtree (ivals : List Interval) (t : Option IntervalTree) : Option IntervalTree :=
  if ivals = [] then some nil else t

/-- The constructor, whose defaults are 64, 512, 16, and 0 for the extents.  `depth` is what is left
after the decrement at its beginning.
SOURCE: IntervalTree.h:92-163 -/
def build (sort : List Interval → List Interval) (minbucket maxbucket : ℕ) (depth : ℕ)
    (ivals : List Interval) (leftextent rightextent : ℕ) : Option IntervalTree :=
  let center := u64 (minStart ivals + maxStop ivals) / 2
  let outermost := leftextent = 0 ∧ rightextent = 0
  let sorted := if outermost then sort ivals else ivals
  if ¬ outermost ∧ ¬ isSorted ivals then none
  else
    match depth with
    | 0 => checked (node (sort sorted) nil nil center)
    | depth + 1 =>
      if sorted.length < minbucket ∧ sorted.length < maxbucket then
        checked (node (sort sorted) nil nil center)
      else
        let leftp :=
          if leftextent ≠ 0 ∨ rightextent ≠ 0 then some leftextent
          else sorted.head?.map Interval.start
        let rightp := if leftextent ≠ 0 ∨ rightextent ≠ 0 then rightextent else maxStop sorted
        let lefts := sorted.filter fun i => i.stop < center
        let rights := sorted.filter fun i => ¬ i.stop < center ∧ center < i.start
        let inner := sorted.filter fun i => ¬ i.stop < center ∧ ¬ center < i.start
        do
          let leftp ← leftp
          let left ← subtree lefts (build sort minbucket maxbucket depth lefts leftp center)
          let right ← subtree rights (build sort minbucket maxbucket depth rights center rightp)
          checked (node inner left right center)

/-- The intervals of a node, which begin with the front. -/
def nearIntervals (stop : ℕ) : List Interval → List Interval
  | [] => []
  | front :: rest => if stop < front.start then [] else front :: rest

/-- The intervals that a query looks at.
SOURCE: IntervalTree.h:165-179 -/
def visitNear (start stop : ℕ) : IntervalTree → List Interval
  | nil => []
  | node intervals left right center =>
    nearIntervals stop intervals ++
    (if start ≤ center then left.visitNear start stop else []) ++
    (if center ≤ stop then right.visitNear start stop else [])

/-- SOURCE: IntervalTree.h:187-197, 210-217 -/
def findOverlapping (t : IntervalTree) (start stop : ℕ) : List Interval :=
  (t.visitNear start stop).filter fun i => i.stop ≥ start ∧ i.start ≤ stop

/-- SOURCE: IntervalTree.h:199-208, 219-226 -/
def findContained (t : IntervalTree) (start stop : ℕ) : List Interval :=
  (t.visitNear start stop).filter fun i => start ≤ i.start ∧ i.stop ≤ stop

end IntervalTree

end PyTorchSim.Model
