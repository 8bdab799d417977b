import PyTorchSim.Analysis.LoopNest

/-!
# The edges of a loop nest

The edges that the generator makes, told along the nest: those to each node of a body, those
inside of a nested loop, and those from the end of its body to its loop end.  The last ones depend
on whether another node follows the loop.
-/

set_option autoImplicit false

namespace PyTorchSim.Analysis

open PyTorchSim.Model PyTorchSim.Library
open TogGenerator (closing isLoadOrWait)

/-- What the next node of a body is connected to: one node, or the siblings since then. -/
inductive Front where
  | one (q : TogNode)
  | run (init : List TogNode) (last up : TogNode)

namespace Front

def edgesTo (y : TogNode) : Front → List Edge
  | one q => [(q, y)]
  | run init last up => (Before.siblings init last up).edgesTo y

def next (y : TogNode) : Front → Front
  | one q => run [] y q
  | run init last up => run (init ++ [last]) y (if SameRun last y then up else last)

/-- The edges from the end of a body to its loop end: when another node follows, all loads at the
end of the body are connected, and otherwise the last node only. -/
def closingEdges (followed : Bool) (e : TogNode) : Front → List Edge
  | one q => [(q, e)]
  | run init last _ =>
    if followed then (closing (init ++ [last]).reverse).map fun n => (n, e) else [(last, e)]

/-- The nodes from which the next edges can come. -/
def sources : Front → List TogNode
  | one q => [q]
  | run init last up => up :: (init ++ [last])

end Front

namespace Nest

def isNil : Nest → Bool
  | nil => true
  | _ => false

/-- What the node after a nest is connected to. -/
def frontAfter (c p : ℤ) (f : Front) : Nest → Front
  | nil => f
  | leaf id kind rest => rest.frontAfter c p (f.next (leafNode id kind p))
  | loop _ loopIdx body rest => rest.frontAfter (c + 1 + body.loops) p (.one (endNode c loopIdx p))

/-- Whether a node follows, when `rest` comes next. -/
def followedBy (followed : Bool) (rest : Nest) : Bool := followed || !rest.isNil

/-- The edges of a nest; `followed` tells whether a node comes after it. -/
def levelEdges (followed : Bool) (c p : ℤ) (f : Front) : Nest → List Edge
  | nil => []
  | leaf id kind rest =>
    f.edgesTo (leafNode id kind p) ++
      rest.levelEdges followed c p (f.next (leafNode id kind p))
  | loop id loopIdx body rest =>
    f.edgesTo (loopNode id loopIdx p) ++
      (body.levelEdges (rest.followedBy followed) (c + 1) id (.one (loopNode id loopIdx p)) ++
        ((body.frontAfter (c + 1) id (.one (loopNode id loopIdx p))).closingEdges
            (rest.followedBy followed) (endNode c loopIdx p) ++
          rest.levelEdges followed (c + 1 + body.loops) p (.one (endNode c loopIdx p))))

end Nest

/-! ## The walk makes these edges -/

namespace Before

def front : Before → Front
  | opened q => .one q
  | siblings init last up => .run init last up
  | closed _ _ _ outer => .one outer

/-- The edges of the ended loops that the next node brings, or the end of the graph. -/
def owed (followed : Bool) : Before → List Edge
  | opened _ => []
  | siblings _ _ _ => []
  | closed init last ends outer =>
    match ends ++ [outer] with
    | [] => []
    | e :: rest => (Front.run init last last).closingEdges followed e ++ chain e rest

theorem edgesTo_eq (b : Before) (y : TogNode) :
    b.edgesTo y = b.owed true ++ b.front.edgesTo y := by
  cases b with
  | opened q => rfl
  | siblings init last up => rfl
  | closed init last ends outer =>
    simp only [edgesTo, owed, front, Front.edgesTo]
    cases ends <;> rfl

theorem chain_last_pending (b : Before) : chain b.last b.pending = b.owed false := by
  cases b with
  | opened q => rfl
  | siblings init last up => rfl
  | closed init last ends outer =>
    simp only [pending, owed, Before.last]
    cases ends <;> rfl

theorem front_next (b : Before) (y : TogNode) : (b.next y).front = b.front.next y := by
  cases b <;> rfl

theorem owed_next (b : Before) (y : TogNode) (followed : Bool) : (b.next y).owed followed = [] := by
  cases b <;> rfl

theorem front_close (b : Before) (e : TogNode) : (b.close e).front = .one e := by
  cases b <;> rfl

theorem chain_concat (q : TogNode) (ns : List TogNode) (m e : TogNode) :
    chain q (ns ++ [m] ++ [e]) = chain q (ns ++ [m]) ++ [(m, e)] := by
  induction ns generalizing q with
  | nil => rfl
  | cons n ns ih =>
    simp only [List.cons_append, chain]
    rw [ih]

theorem owed_close (b : Before) (e : TogNode) (followed : Bool) :
    (b.close e).owed followed = b.owed followed ++ b.front.closingEdges followed e := by
  cases b with
  | opened q => cases followed <;> simp [close, owed, front, Front.closingEdges, closing, chain]
  | siblings init last up => simp [close, owed, front, Front.closingEdges, chain]
  | closed init last ends outer =>
    cases ends with
    | nil => simp [close, owed, front, Front.closingEdges, chain]
    | cons a ends =>
      have hchain := chain_concat a ends outer e
      simp only [close, owed, front, List.cons_append]
      rw [hchain]
      simp [Front.closingEdges]

end Before

theorem front_walk (t : Trail) (p : ℤ) (nest : Nest) :
    (t.walk p nest).before.front = nest.frontAfter t.nextId p t.before.front := by
  induction nest generalizing t p with
  | nil => rfl
  | leaf id kind rest ih =>
    rw [Trail.walk, ih, Nest.frontAfter]
    simp only [Trail.enter, Before.front_next]
  | loop id loopIdx body rest ihb ihr =>
    rw [Trail.walk, ihr, Nest.frontAfter]
    simp only [Trail.closeLoop, Before.front_close, Trail.nextId_walk, Trail.openLoop]

/-- The edges of a walk over a nest, with those that its end owes. -/
theorem mem_walk_edges (t : Trail) (p : ℤ) (nest : Nest) (followed : Bool) (ed : Edge) :
    ed ∈ (t.walk p nest).edges ∨ ed ∈ (t.walk p nest).before.owed followed ↔
      (ed ∈ t.edges ∨ ed ∈ t.before.owed (nest.followedBy followed)) ∨
        ed ∈ nest.levelEdges followed t.nextId p t.before.front := by
  induction nest generalizing t p followed with
  | nil => simp [Trail.walk, Nest.followedBy, Nest.isNil, Nest.levelEdges]
  | leaf id kind rest ih =>
    rw [Trail.walk, ih, Nest.levelEdges]
    simp only [Trail.enter, Before.edgesTo_eq, Before.owed_next, Before.front_next, Nest.followedBy,
      Nest.isNil, List.mem_append, List.not_mem_nil, or_false, Bool.not_false, Bool.or_true]
    tauto
  | loop id loopIdx body rest ihb ihr =>
    have hbody := ihb (t.openLoop (loopNode id loopIdx p)) id (rest.followedBy followed)
    rw [Trail.walk, ihr, Nest.levelEdges]
    simp only [Trail.closeLoop, Before.owed_close, Before.front_close, Trail.nextId_walk,
      List.mem_append, front_walk]
    simp only [Trail.openLoop, Trail.enter, Before.edgesTo_eq, Before.front, Before.owed,
      List.mem_append, List.not_mem_nil, or_false] at hbody ⊢
    simp only [Nest.followedBy, Nest.isNil, Bool.not_false, Bool.or_true] at hbody ⊢
    tauto

/-- The edges of the graph that is emitted. -/
def Nest.graphEdges (nest : Nest) : List Edge :=
  nest.levelEdges false (nest.rawGraph.length + 1) 0 (.one rootNode)

theorem mem_final_edges (nest : Nest) (ed : Edge) :
    ed ∈ (endTrail nest).edges ++ chain (endTrail nest).before.last (endTrail nest).before.pending ↔
      ed ∈ nest.graphEdges := by
  have hwalk := mem_walk_edges (startTrail nest) 0 nest false ed
  rw [Before.chain_last_pending, List.mem_append]
  refine hwalk.trans ?_
  simp [startTrail, Before.owed, Before.front, Nest.graphEdges]

/-- The generator emits the nodes of the nest and its edges. -/
theorem parseGraph_spec {nest : Nest} (h : nest.Numbered) (hloops : nest.NonEmptyLoops) :
    ∃ g, TogGenerator.parseGraph nest.rawGraph = .ok g ∧ g.nodeDict = dictOf nest.nodes ∧
      ∀ ed, ed ∈ g.edges ↔ ed ∈ nest.graphEdges := by
  obtain ⟨g, hg, hdict, hedges⟩ := parseGraph_eq h hloops
  exact ⟨g, hg, hdict, fun ed => hedges ▸ mem_final_edges nest ed⟩

end PyTorchSim.Analysis
