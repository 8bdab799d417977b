import PyTorchSim.Library.Runs
import PyTorchSim.Model.TogGenerator

/-!
# The generator on a loop nest

A raw graph is the nodes of a loop nest in pre-order.  The generator walks over the nest: between
two nodes it knows the node or the siblings before the new one, and the ends of the loops that
have no further node.
-/

set_option autoImplicit false

namespace PyTorchSim.Analysis

open PyTorchSim.Model PyTorchSim.Library

/-! ## Loop nests -/

/-- The nodes of a loop body that are no loops. -/
inductive LeafKind where
  | load
  | wait
  | compute
  | store
deriving DecidableEq

def LeafKind.nodeType : LeafKind → NodeKind
  | load => .dma false
  | wait => .dmaWait
  | compute => .compute
  | store => .dma true

def LeafKind.nodeClass : LeafKind → NodeClass
  | load => .loadNode
  | wait => .memoryWaitNode
  | compute => .computeNode
  | store => .storeNode

/-- The nodes of a body, one after the other: a leaf or a loop, and what comes after it. -/
inductive Nest where
  | nil
  | leaf (id : ℤ) (kind : LeafKind) (rest : Nest)
  | loop (id : ℤ) (loopIdx : String) (body rest : Nest)

def leafNode (id : ℤ) (kind : LeafKind) (p : ℤ) : TogNode :=
  { id, nodeClass := kind.nodeClass, parent := p }

def loopNode (id : ℤ) (loopIdx : String) (p : ℤ) : TogNode :=
  { id, nodeClass := .loopIndexNode, loopIdx, parent := p }

def endNode (id : ℤ) (loopIdx : String) (p : ℤ) : TogNode :=
  { id, nodeClass := .loopEndNode, loopIdx, parent := p }

def rootNode : TogNode := { id := 0, nodeClass := .node, parent := -1 }

namespace Nest

/-- The entries of the nodes under the parent `p`, in pre-order. -/
def entries (p : ℤ) : Nest → List DumpData
  | nil => []
  | leaf id kind rest =>
    { nodeId := id, nodeType := kind.nodeType, parents := [p] } :: rest.entries p
  | loop id loopIdx body rest =>
    { nodeId := id, nodeType := .loop, loopIndex := loopIdx, parents := [p] } ::
      (body.entries id ++ rest.entries p)

/-- The numbers of the nodes, in pre-order. -/
def ids : Nest → List ℤ
  | nil => []
  | leaf id _ rest => id :: rest.ids
  | loop id _ body rest => id :: (body.ids ++ rest.ids)

/-- The number of the loops. -/
def loops : Nest → ℕ
  | nil => 0
  | leaf _ _ rest => rest.loops
  | loop _ _ body rest => 1 + body.loops + rest.loops

/-- Every loop has a body. -/
def NonEmptyLoops : Nest → Prop
  | nil => True
  | leaf _ _ rest => rest.NonEmptyLoops
  | loop _ _ body rest => body ≠ nil ∧ body.NonEmptyLoops ∧ rest.NonEmptyLoops

/-- The nodes that are emitted, when the next loop end gets the number `c`. -/
def emit (c p : ℤ) : Nest → List TogNode
  | nil => []
  | leaf id kind rest => leafNode id kind p :: rest.emit c p
  | loop id loopIdx body rest =>
    loopNode id loopIdx p ::
      (body.emit (c + 1) id ++ endNode c loopIdx p :: rest.emit (c + 1 + body.loops) p)

/-- The nodes are numbered from 0, which is the root, without gaps. -/
structure Numbered (nest : Nest) : Prop where
  nodup : nest.ids.Nodup
  range : ∀ i ∈ nest.ids, 0 < i ∧ i ≤ nest.ids.length

/-- The root and the nest. -/
def rawGraph (nest : Nest) : List DumpData :=
  { nodeId := 0, nodeType := .base, parents := [] } :: nest.entries 0

/-- What an emitted node is numbered with: a number of the nest, or one of a loop end. -/
theorem mem_emit_ids {c p : ℤ} {nest : Nest} {n : TogNode} (h : n ∈ nest.emit c p) :
    n.id ∈ nest.ids ∨ c ≤ n.id ∧ n.id < c + nest.loops := by
  induction nest generalizing c p with
  | nil => cases h
  | leaf id kind rest ih =>
    rcases List.mem_cons.1 h with rfl | h
    · exact .inl List.mem_cons_self
    · exact (ih h).imp (List.mem_cons_of_mem _) fun h => by simpa [loops] using h
  | loop id loopIdx body rest ihb ihr =>
    simp only [loops, ids, List.mem_cons, List.mem_append]
    rcases List.mem_cons.1 h with rfl | h
    · exact .inl (.inl rfl)
    · rcases List.mem_append.1 h with h | h
      · rcases ihb h with h | h
        · exact .inl (.inr (.inl h))
        · exact .inr (by push_cast; omega)
      · rcases List.mem_cons.1 h with rfl | h
        · exact .inr (by simp only [endNode]; push_cast; omega)
        · rcases ihr h with h | h
          · exact .inl (.inr (.inr h))
          · exact .inr (by push_cast; omega)

/-- No number is emitted twice. -/
theorem nodup_emit {c p : ℤ} {nest : Nest} (hnodup : nest.ids.Nodup) (h : ∀ i ∈ nest.ids, i < c) :
    ((nest.emit c p).map TogNode.id).Nodup := by
  have hmem : ∀ {c p : ℤ} {nest : Nest} {i : ℤ}, i ∈ (nest.emit c p).map TogNode.id →
      i ∈ nest.ids ∨ c ≤ i ∧ i < c + nest.loops := by
    intro c p nest i hi
    obtain ⟨n, hn, rfl⟩ := List.mem_map.1 hi
    exact mem_emit_ids hn
  induction nest generalizing c p with
  | nil => exact List.nodup_nil
  | leaf id kind rest ih =>
    rw [ids, List.nodup_cons] at hnodup
    have hrest : ∀ i ∈ rest.ids, i < c := fun i hi => h i (List.mem_cons_of_mem _ hi)
    have hid : id < c := h id List.mem_cons_self
    refine List.nodup_cons.2 ⟨fun hi => ?_, ih hnodup.2 hrest⟩
    rcases hmem hi with hi | hi
    · exact hnodup.1 hi
    · simp only [leafNode] at hi
      omega
  | loop id loopIdx body rest ihb ihr =>
    simp only [ids, List.nodup_cons, List.mem_append, List.nodup_append] at hnodup
    obtain ⟨hid, hbody, hrest, hdisjoint⟩ := hnodup
    have hidc : id < c := h id List.mem_cons_self
    have hbodyc : ∀ i ∈ body.ids, i < c := fun i hi => h i (by simp [ids, hi])
    have hrestc : ∀ i ∈ rest.ids, i < c := fun i hi => h i (by simp [ids, hi])
    have hb := ihb (c := c + 1) (p := id) hbody fun i hi => by have := hbodyc i hi; omega
    have hr := ihr (c := c + 1 + body.loops) (p := p) hrest fun i hi => by
      have := hrestc i hi
      omega
    simp only [emit, List.map_cons, List.map_append, List.nodup_cons, List.nodup_append,
      List.mem_append, List.mem_cons]
    refine ⟨?_, hb, ⟨?_, hr⟩, ?_⟩
    · -- The number of the loop is neither of the two parts, and below the one of its end.
      rintro (hi | hi | hi)
      · rcases hmem hi with hi | hi
        · exact hid (.inl hi)
        · simp only [loopNode] at hi
          omega
      · simp only [loopNode, endNode] at hi
        omega
      · rcases hmem hi with hi | hi
        · exact hid (.inr hi)
        · simp only [loopNode] at hi
          omega
    · intro hi
      rcases hmem hi with hi | hi
      · have := hrestc _ hi
        simp only [endNode] at this
        omega
      · simp only [endNode] at hi
        omega
    · intro i hi j hj hij
      subst hij
      rcases hmem hi with hi | hi
      · have hic := hbodyc i hi
        rcases hj with hj | hj
        · simp only [endNode] at hj
          omega
        · rcases hmem hj with hj | hj
          · exact hdisjoint i hi i hj rfl
          · omega
      · rcases hj with hj | hj
        · simp only [endNode] at hj
          omega
        · rcases hmem hj with hj | hj
          · have := hrestc i hj
            omega
          · omega

end Nest

/-! ## The walk over a nest -/

abbrev Edge := TogNode × TogNode

/-- Two loads, or two waits. -/
def SameRun (m n : TogNode) : Prop :=
  m.nodeClass = .loadNode ∧ n.nodeClass = .loadNode ∨
    m.nodeClass = .memoryWaitNode ∧ n.nodeClass = .memoryWaitNode

instance (m n : TogNode) : Decidable (SameRun m n) := inferInstanceAs (Decidable (_ ∨ _))

/-- What stands before the next node of a body: the node that opened the body; or the siblings
since then or since the last loop, with the parent of the last one; or such siblings in a loop
that has no further node, with the ends of the loops around them, up to the one in this body. -/
inductive Before where
  | opened (q : TogNode)
  | siblings (init : List TogNode) (last up : TogNode)
  | closed (init : List TogNode) (last : TogNode) (ends : List TogNode) (outer : TogNode)

/-- The edges along some nodes. -/
def chain : TogNode → List TogNode → List Edge
  | _, [] => []
  | q, n :: rest => (q, n) :: chain n rest

/-- The edges of a body that ends before another node comes, and of the loop ends after it. -/
def closeEdges (prevNode : List TogNode) : List TogNode → List Edge
  | [] => []
  | e :: rest => (TogGenerator.closing prevNode.reverse).map (fun n => (n, e)) ++ chain e rest

namespace Before

/-- The loop ends that are not emitted yet. -/
def pending : Before → List TogNode
  | opened _ => []
  | siblings _ _ _ => []
  | closed _ _ ends outer => ends ++ [outer]

/-- The edges that come with the next node. -/
def edgesTo (y : TogNode) : Before → List Edge
  | opened q => [(q, y)]
  | siblings init last up =>
    if SameRun last y then [(up, y)]
    else if TogGenerator.isLoadOrWait last ∧ y.nodeClass = .computeNode then
      ((init ++ [last]).filter TogGenerator.isLoadOrWait).map fun n => (n, y)
    else [(last, y)]
  | closed init last ends outer => closeEdges (init ++ [last]) (ends ++ [outer]) ++ [(outer, y)]

/-- What stands before the node after a leaf. -/
def next (y : TogNode) : Before → Before
  | opened q => siblings [] y q
  | siblings init last up => siblings (init ++ [last]) y (if SameRun last y then up else last)
  | closed _ _ _ outer => siblings [] y outer

/-- What stands before the node after a loop, from what stands at the end of its body. -/
def close (e : TogNode) : Before → Before
  | opened q => closed [] q [] e
  | siblings init last _ => closed init last [] e
  | closed init last ends outer => closed init last (ends ++ [outer]) e

/-- The list of the generator. -/
def Prev (prevNode : List TogNode) : Before → Prop
  | opened q => prevNode.getLast? = some q
  | siblings init last _ => prevNode = init ++ [last]
  | closed init last _ _ => prevNode = init ++ [last]

/-- The node that comes last in the list. -/
def last : Before → TogNode
  | opened q => q
  | siblings _ last _ => last
  | closed _ last _ _ => last

/-- The numbers tell the three cases apart, for a new node with the parent `p`. -/
def At (p : ℤ) : Before → Prop
  | opened q => q.id = p ∧ q.parent ≠ p
  | siblings _ last _ => last.parent = p
  | closed _ last ends outer =>
    last.parent ≠ p ∧ last.id ≠ p ∧ (∀ e ∈ ends, e.parent ≠ p) ∧ outer.parent = p

theorem Prev.getLast? {prevNode : List TogNode} {b : Before} (h : b.Prev prevNode) :
    prevNode.getLast? = some b.last := by
  cases b with
  | opened q => exact h
  | siblings init last up =>
    rw [show prevNode = init ++ [last] from h]
    exact List.getLast?_concat
  | closed init last ends outer =>
    rw [show prevNode = init ++ [last] from h]
    exact List.getLast?_concat

end Before

/-- A place in the walk. -/
structure Trail where
  before : Before
  edges : List Edge
  emitted : List TogNode
  nextId : ℤ

namespace Trail

/-- The nodes that are emitted or wait for it. -/
def taken (t : Trail) : List TogNode := t.emitted ++ t.before.pending

/-- A leaf. -/
def enter (t : Trail) (y : TogNode) : Trail :=
  { t with
    before := t.before.next y
    edges := t.edges ++ t.before.edgesTo y
    emitted := t.taken ++ [y] }

/-- A loop, and the step into its body. -/
def openLoop (t : Trail) (l : TogNode) : Trail :=
  { t.enter l with before := .opened l, nextId := t.nextId + 1 }

/-- The end of a body. -/
def closeLoop (t : Trail) (e : TogNode) : Trail :=
  { t with before := t.before.close e }

def walk (t : Trail) (p : ℤ) : Nest → Trail
  | .nil => t
  | .leaf id kind rest => (t.enter (leafNode id kind p)).walk p rest
  | .loop id loopIdx body rest =>
    (((t.openLoop (loopNode id loopIdx p)).walk id body).closeLoop
      (endNode t.nextId loopIdx p)).walk p rest

theorem taken_closeLoop (t : Trail) (e : TogNode) : (t.closeLoop e).taken = t.taken ++ [e] := by
  obtain ⟨before, edges, emitted, nextId⟩ := t
  cases before <;> simp [taken, closeLoop, Before.close, Before.pending]

theorem taken_enter (t : Trail) (y : TogNode) : (t.enter y).taken = t.taken ++ [y] := by
  have hpending : (t.before.next y).pending = [] := by cases t.before <;> rfl
  simp only [taken, enter, hpending, List.append_nil]

theorem taken_openLoop (t : Trail) (l : TogNode) : (t.openLoop l).taken = t.taken ++ [l] := by
  simp [taken, openLoop, enter, Before.pending]

theorem nextId_walk (t : Trail) (p : ℤ) (nest : Nest) :
    (t.walk p nest).nextId = t.nextId + nest.loops := by
  induction nest generalizing t p with
  | nil => simp [walk, Nest.loops]
  | leaf id kind rest ih =>
    simpa [walk, Nest.loops, enter] using ih (t.enter (leafNode id kind p)) p
  | loop id loopIdx body rest ihb ihr =>
    rw [walk, ihr, closeLoop, ihb]
    simp only [openLoop, Nest.loops]
    push_cast
    omega

/-- The walk emits the nodes of the nest. -/
theorem taken_walk (t : Trail) (p : ℤ) (nest : Nest) :
    (t.walk p nest).taken = t.taken ++ nest.emit t.nextId p := by
  induction nest generalizing t p with
  | nil => simp [walk, Nest.emit]
  | leaf id kind rest ih =>
    rw [walk, ih, taken_enter, Nest.emit]
    simp [enter]
  | loop id loopIdx body rest ihb ihr =>
    rw [walk, ihr, taken_closeLoop, ihb, taken_openLoop, Nest.emit]
    simp [closeLoop, nextId_walk, openLoop]

end Trail

/-! ## The generator walks -/

open TogGenerator (closing isLoadOrWait closeLoops)

/-- The dictionary of some nodes. -/
def dictOf (ns : List TogNode) : List (ℤ × TogNode) := ns.map fun n => (n.id, n)

theorem setItem_fresh {n : TogNode} {ns : List TogNode} (h : n.id ∉ ns.map TogNode.id) :
    TogGenerator.setItem n.id n (dictOf ns) = dictOf (ns ++ [n]) := by
  induction ns with
  | nil => rfl
  | cons m ns ih =>
    rw [List.map_cons, List.mem_cons, not_or] at h
    have hrest : TogGenerator.setItem n.id n (dictOf ns) = dictOf (ns ++ [n]) := ih h.2
    simp only [dictOf, List.map_cons, List.cons_append] at hrest ⊢
    rw [TogGenerator.setItem, if_neg (Ne.symm h.1), hrest]

theorem foldl_connectNodes (g : TogGenerator) (ns : List TogNode) (e : TogNode) :
    ns.foldl (fun g n => g.connectNodes n e) g =
      { g with edges := g.edges ++ ns.map fun n => (n, e) } := by
  induction ns generalizing g with
  | nil => simp
  | cons n ns ih =>
    rw [List.foldl_cons, ih]
    simp [TogGenerator.connectNodes]

section Close

variable {newNode : TogNode}

theorem closeLoops_beside {g : TogGenerator} {e : TogNode} (h : e.parent = newNode.parent)
    (stack : List TogNode) :
    closeLoops newNode g e stack = .ok (g.closeBeside newNode e stack) := by
  cases stack with
  | nil => rw [closeLoops, if_pos h]
  | cons e' stack => rw [closeLoops, if_pos h]

/-- The loop ends up to the one beside the new node are connected one after the other. -/
theorem closeLoops_eq (ends : List TogNode) (outer : TogNode) (stack : List TogNode)
    (hends : ∀ e ∈ ends, e.parent ≠ newNode.parent) (houter : outer.parent = newNode.parent)
    {g : TogGenerator} {ns : List TogNode} {e : TogNode} {es : List TogNode}
    (heq : e :: es = ends ++ [outer]) (hdict : g.nodeDict = dictOf ns)
    (hnodup : ((ns ++ e :: es).map TogNode.id).Nodup) :
    closeLoops newNode g e (es ++ stack) = .ok
      { g with
        edges := g.edges ++ chain e es ++ [(outer, newNode)]
        nodeDict := dictOf (ns ++ e :: es)
        loopEndStack := stack } := by
  have hfresh : e.id ∉ ns.map TogNode.id := by
    intro hmem
    rw [List.map_append, List.nodup_append] at hnodup
    exact hnodup.2.2 _ hmem _ List.mem_cons_self rfl
  have hinsert : g.insert e = { g with nodeDict := dictOf (ns ++ [e]) } := by
    rw [TogGenerator.insert, hdict, setItem_fresh hfresh]
  induction ends generalizing g ns e es with
  | nil =>
    obtain ⟨rfl, rfl⟩ := List.cons.inj heq
    rw [List.nil_append, closeLoops_beside houter, TogGenerator.closeBeside, hinsert]
    simp [TogGenerator.connectNodes, chain]
  | cons a ends ih =>
    obtain ⟨rfl, hes⟩ := List.cons.inj heq
    obtain ⟨e', es', rfl⟩ : ∃ e' es', es = e' :: es' := by
      cases es with
      | nil => simp at hes
      | cons e' es' => exact ⟨e', es', rfl⟩
    have hnodup' : ((ns ++ [e] ++ e' :: es').map TogNode.id).Nodup := by simpa using hnodup
    have hfresh' : e'.id ∉ (ns ++ [e]).map TogNode.id := by
      intro hmem
      rw [List.map_append, List.nodup_append] at hnodup'
      exact hnodup'.2.2 _ hmem _ List.mem_cons_self rfl
    rw [List.cons_append, closeLoops, if_neg (hends e List.mem_cons_self), hinsert]
    rw [ih (fun x hx => hends x (List.mem_cons_of_mem _ hx)) hes rfl hnodup' hfresh'
      (by rw [TogGenerator.insert]; simp only [TogGenerator.connectNodes, setItem_fresh hfresh'])]
    simp [TogGenerator.connectNodes, chain]

end Close

/-- The nodes that are connected to `n`. -/
def parentsIn (edges : List Edge) (n : TogNode) : List TogNode :=
  (edges.filter fun e => e.2 = n).map Prod.fst

theorem parentsIn_append (edges edges' : List Edge) (n : TogNode) :
    parentsIn (edges ++ edges') n = parentsIn edges n ++ parentsIn edges' n := by
  simp [parentsIn]

theorem parentsIn_eq_nil {edges : List Edge} {n : TogNode} (h : ∀ e ∈ edges, e.2 ≠ n) :
    parentsIn edges n = [] := by
  simpa [parentsIn, List.filter_eq_nil_iff] using h

/-- The one parent of the last sibling is known if it is a load or a wait. -/
def Before.UpKnown (edges : List Edge) : Before → Prop
  | .siblings _ last up => isLoadOrWait last → parentsIn edges last = [up]
  | _ => True

/-- What holds at every place of the walk: edges end in emitted nodes. -/
structure Tidy (t : Trail) : Prop where
  targets : ∀ e ∈ t.edges, e.2 ∈ t.emitted
  up : t.before.UpKnown t.edges

/-- The edges to a new node, without those among the nodes before it. -/
theorem mem_chain {q : TogNode} {ns : List TogNode} {e : Edge} (h : e ∈ chain q ns) :
    e.2 ∈ ns ∧ (e.1 = q ∨ e.1 ∈ ns) := by
  induction ns generalizing q with
  | nil => cases h
  | cons n ns ih =>
    rcases List.mem_cons.1 h with rfl | h
    · exact ⟨List.mem_cons_self, .inl rfl⟩
    · obtain ⟨htarget, hsource⟩ := ih h
      refine ⟨List.mem_cons_of_mem _ htarget, .inr ?_⟩
      rcases hsource with rfl | hsource
      · exact List.mem_cons_self
      · exact List.mem_cons_of_mem _ hsource

theorem mem_closeEdges {prevNode ends : List TogNode} {e : Edge}
    (h : e ∈ closeEdges prevNode ends) : e.2 ∈ ends := by
  cases ends with
  | nil => cases h
  | cons n ends =>
    rcases List.mem_append.1 h with h | h
    · obtain ⟨m, -, rfl⟩ := List.mem_map.1 h
      exact List.mem_cons_self
    · exact List.mem_cons_of_mem _ (mem_chain h).1

theorem mem_edgesTo {b : Before} {y : TogNode} {e : Edge} (h : e ∈ b.edgesTo y) :
    e.2 = y ∨ e.2 ∈ b.pending := by
  cases b with
  | opened q => exact .inl (by rw [List.mem_singleton.1 h])
  | siblings init last up =>
    refine .inl ?_
    simp only [Before.edgesTo] at h
    split_ifs at h
    · rw [List.mem_singleton.1 h]
    · obtain ⟨m, -, rfl⟩ := List.mem_map.1 h
      rfl
    · rw [List.mem_singleton.1 h]
  | closed init last ends outer =>
    rcases List.mem_append.1 h with h | h
    · exact .inr (mem_closeEdges h)
    · exact .inl (by rw [List.mem_singleton.1 h])

/-- A load or a wait is entered by one edge, from the node that the walk notes. -/
theorem parentsIn_edgesTo {b : Before} {y : TogNode} (hy : isLoadOrWait y)
    (hpending : y ∉ b.pending) :
    ∃ init up, b.next y = .siblings init y up ∧ parentsIn (b.edgesTo y) y = [up] := by
  cases b with
  | opened q => exact ⟨[], q, rfl, by simp [parentsIn, Before.edgesTo]⟩
  | siblings init last up =>
    refine ⟨init ++ [last], if SameRun last y then up else last, rfl, ?_⟩
    have hcompute : y.nodeClass ≠ .computeNode := by
      intro hclass
      simp [isLoadOrWait, hclass] at hy
    by_cases hrun : SameRun last y
    · simp [parentsIn, Before.edgesTo, hrun]
    · simp [parentsIn, Before.edgesTo, hrun, hcompute]
  | closed init last ends outer =>
    refine ⟨[], outer, rfl, ?_⟩
    have hnone : parentsIn (closeEdges (init ++ [last]) (ends ++ [outer])) y = [] := by
      apply parentsIn_eq_nil
      rintro e he rfl
      exact hpending (mem_closeEdges he)
    rw [Before.edgesTo, parentsIn_append, hnone]
    simp [parentsIn]

theorem Tidy.enter {t : Trail} {y : TogNode} (h : Tidy t) (hy : y ∉ t.taken) :
    Tidy (t.enter y) where
  targets e he := by
    rcases List.mem_append.1 he with he | he
    · exact List.mem_append_left _ (List.mem_append_left _ (h.targets e he))
    · rcases mem_edgesTo he with heq | hmem
      · simp [Trail.enter, heq]
      · exact List.mem_append_left _ (List.mem_append_right _ hmem)
  up := by
    have hold : parentsIn t.edges y = [] := by
      apply parentsIn_eq_nil
      rintro e he rfl
      exact hy (List.mem_append_left _ (h.targets e he))
    have hpending : y ∉ t.before.pending := fun hmem => hy (List.mem_append_right _ hmem)
    by_cases hclass : isLoadOrWait y
    · obtain ⟨init, up, hnext, hparents⟩ := parentsIn_edgesTo hclass hpending
      simp only [Trail.enter, hnext, Before.UpKnown]
      intro _
      rw [parentsIn_append, hold, hparents, List.nil_append]
    · have hlast : ∃ init up, t.before.next y = .siblings init y up := by
        cases t.before with
        | opened q => exact ⟨_, _, rfl⟩
        | siblings init last up => exact ⟨_, _, rfl⟩
        | closed init last ends outer => exact ⟨_, _, rfl⟩
      obtain ⟨init, up, hnext⟩ := hlast
      simp only [Trail.enter, hnext, Before.UpKnown]
      exact fun hy => absurd hy hclass

theorem Tidy.openLoop {t : Trail} {l : TogNode} (h : Tidy t) (hl : l ∉ t.taken) :
    Tidy (t.openLoop l) where
  targets := (h.enter hl).targets
  up := trivial

theorem Tidy.closeLoop {t : Trail} (h : Tidy t) (e : TogNode) : Tidy (t.closeLoop e) where
  targets := h.targets
  up := by
    obtain ⟨before, edges, emitted, nextId⟩ := t
    cases before <;> trivial

/-- The generator stands at a place of the walk; `stack` are the ends of the loops around it. -/
structure Walks (t : Trail) (stack : List TogNode) (s : TogGenerator × List TogNode) : Prop where
  edges : s.1.edges = t.edges
  nodeDict : s.1.nodeDict = dictOf t.emitted
  newNodeId : s.1.newNodeId = t.nextId
  loopEndStack : s.1.loopEndStack = t.before.pending ++ stack
  prev : t.before.Prev s.2

theorem connectSibling_eq {g : TogGenerator} {init : List TogNode} {last up y : TogNode}
    (h : isLoadOrWait last → g.getParent last = [up]) :
    g.connectSibling (init ++ [last]) last y =
      .ok { g with edges := g.edges ++ (Before.siblings init last up).edgesTo y } := by
  unfold TogGenerator.connectSibling
  split
  · next hrun =>
    have hload : isLoadOrWait last := by
      rcases hrun with ⟨hrun, -⟩ | ⟨hrun, -⟩ <;> simp [isLoadOrWait, hrun]
    have hrun' : SameRun last y := hrun
    rw [h hload]
    simp [TogGenerator.connectNodes, Before.edgesTo, hrun']
  · next hrun =>
    have hrun' : ¬ SameRun last y := hrun
    split
    · next hcompute =>
      rw [foldl_connectNodes, Before.edgesTo, if_neg hrun', if_pos hcompute]
    · next hcompute => simp [TogGenerator.connectNodes, Before.edgesTo, hrun', hcompute]

/-- The generator connects a new node as the walk says. -/
theorem link_eq {t : Trail} {stack : List TogNode} {g : TogGenerator} {prevNode : List TogNode}
    {y : TogNode} (hedges : g.edges = t.edges) (hdict : g.nodeDict = dictOf t.emitted)
    (hstack : g.loopEndStack = t.before.pending ++ stack) (hprev : t.before.Prev prevNode)
    (hat : t.before.At y.parent) (htidy : Tidy t) (hnodup : (t.taken.map TogNode.id).Nodup) :
    g.link prevNode t.before.last y = .ok
      { g with
        edges := t.edges ++ t.before.edgesTo y
        nodeDict := dictOf t.taken
        loopEndStack := stack } := by
  obtain ⟨before, edges, emitted, nextId⟩ := t
  simp only at hedges hdict hstack hprev hat
  cases before with
  | opened q =>
    obtain ⟨hid, hparent⟩ := hat
    simp only [Before.pending, List.nil_append] at hstack
    rw [TogGenerator.link, Before.last, if_neg hparent, if_pos hid]
    simp [TogGenerator.connectNodes, Before.edgesTo, Trail.taken, Before.pending, hedges, ← hdict,
      ← hstack]
  | siblings init last up =>
    have hprev' : prevNode = init ++ [last] := hprev
    simp only [Before.pending, List.nil_append] at hstack
    have hparent : last.parent = y.parent := hat
    have hlast : (Before.siblings init last up).last = last := rfl
    have hup : isLoadOrWait last → g.getParent last = [up] := by
      intro hload
      have hparents : parentsIn g.edges last = [up] := hedges ▸ htidy.up hload
      simp only [parentsIn] at hparents
      rw [TogGenerator.getParent, hparents]
      simp
    rw [TogGenerator.link, hlast, if_pos hparent, hprev', connectSibling_eq hup]
    simp [Trail.taken, Before.pending, hedges, ← hdict, ← hstack]
  | closed init last ends outer =>
    obtain ⟨hparent, hid, hends, houter⟩ := hat
    have hprev' : prevNode = init ++ [last] := hprev
    have hlast : (Before.closed init last ends outer).last = last := rfl
    obtain ⟨e, es, hes⟩ : ∃ e es, ends ++ [outer] = e :: es :=
      List.exists_cons_of_ne_nil (by simp)
    simp only [Before.pending, hes, List.cons_append] at hstack
    simp only [Trail.taken, Before.pending, hes] at hnodup
    rw [TogGenerator.link, hlast, if_neg hparent, if_neg hid, hstack]
    let g' := { g with edges := g.edges ++ (closing prevNode.reverse).map fun n => (n, e) }
    have hclose := closeLoops_eq ends outer stack hends houter (g := g') hes.symm hdict hnodup
    simp only [foldl_connectNodes]
    rw [hclose]
    simp [g', Before.edgesTo, Trail.taken, Before.pending, hes, closeEdges, hedges, hprev']

/-! ## One entry -/

theorem insert_fresh {g : TogGenerator} {ns : List TogNode} {n : TogNode}
    (hdict : g.nodeDict = dictOf ns) (h : n.id ∉ ns.map TogNode.id) :
    g.insert n = { g with nodeDict := dictOf (ns ++ [n]) } := by
  rw [TogGenerator.insert, hdict, setItem_fresh h]

theorem newNodes_leaf (g : TogGenerator) {id p : ℤ} (kind : LeafKind) (hid : id ≠ 0) :
    g.newNodes { nodeId := id, nodeType := kind.nodeType, parents := [p] } =
      .ok (g, leafNode id kind p, none) := by
  cases kind <;>
    simp [TogGenerator.newNodes, LeafKind.nodeType, NodeKind.nodeClass, DumpData.firstParent, hid,
      leafNode, LeafKind.nodeClass, bind, Except.bind, pure, Except.pure]

theorem newNodes_loop (g : TogGenerator) {id p : ℤ} (loopIdx : String) (hid : id ≠ 0) :
    g.newNodes { nodeId := id, nodeType := .loop, loopIndex := loopIdx, parents := [p] } =
      .ok ({ g with newNodeId := g.newNodeId + 1 }, loopNode id loopIdx p,
        some (endNode g.newNodeId loopIdx p)) := by
  simp [TogGenerator.newNodes, NodeKind.nodeClass, DumpData.firstParent, hid, loopNode, endNode,
    bind, Except.bind, pure, Except.pure]

section Step

variable {t : Trail} {stack : List TogNode} {s : TogGenerator × List TogNode}

/-- The list after an entry, by the parents of its last node and of the new one. -/
theorem prev_next {y : TogNode} (hprev : t.before.Prev s.2) (hat : t.before.At y.parent) :
    (t.before.next y).Prev
      (if t.before.last.parent = y.parent then s.2 ++ [y] else [y]) := by
  revert hprev hat
  cases t.before with
  | opened q =>
    rintro - ⟨-, hparent⟩
    simp [Before.last, Before.next, Before.Prev, hparent]
  | siblings init last up =>
    intro hprev hat
    have hparent : last.parent = y.parent := hat
    have hprev' : s.2 = init ++ [last] := hprev
    simp [Before.last, Before.next, Before.Prev, hparent, hprev']
  | closed init last ends outer =>
    rintro - ⟨hparent, -⟩
    simp [Before.last, Before.next, Before.Prev, hparent]

theorem addEntry_eq {d : DumpData} {g : TogGenerator} {y : TogNode} {newEndNode : Option TogNode}
    (h : Walks t stack s) (htidy : Tidy t) (hat : t.before.At y.parent)
    (hnodup : ((t.taken ++ [y]).map TogNode.id).Nodup)
    (hnew : s.1.newNodes d = .ok ({ s.1 with newNodeId := g.newNodeId }, y, newEndNode)) :
    TogGenerator.addEntry s d = .ok
      ({ nodeDict := dictOf (t.taken ++ [y])
         edges := t.edges ++ t.before.edgesTo y
         newNodeId := g.newNodeId
         loopEndStack := newEndNode.toList ++ stack },
        if t.before.last.parent = y.parent then s.2 ++ [y] else [y]) := by
  have hlast := h.prev.getLast?
  have hnodup' : (t.taken.map TogNode.id).Nodup := by
    rw [List.map_append] at hnodup
    exact (List.nodup_append.1 hnodup).1
  have hfresh : y.id ∉ t.taken.map TogNode.id := by
    intro hmem
    rw [List.map_append] at hnodup
    exact (List.nodup_append.1 hnodup).2.2 _ hmem _ (by simp) rfl
  have hlink := link_eq (g := { s.1 with newNodeId := g.newNodeId }) (y := y) h.edges h.nodeDict
    h.loopEndStack h.prev hat htidy hnodup'
  have hcreate : s.1.createNode d s.2 = .ok
      ({ nodeDict := dictOf (t.taken ++ [y])
         edges := t.edges ++ t.before.edgesTo y
         newNodeId := g.newNodeId
         loopEndStack := newEndNode.toList ++ stack }, y) := by
    rw [TogGenerator.createNode, hnew]
    simp only [bind, Except.bind, hlast, hlink, pure, Except.pure]
    rw [insert_fresh rfl hfresh]
  rw [TogGenerator.addEntry, hcreate]
  simp only [bind, Except.bind, hlast, pure, Except.pure]
  split <;> rfl

/-- A leaf is one step of the walk. -/
theorem Walks.leaf (h : Walks t stack s) (htidy : Tidy t) {id p : ℤ} {kind : LeafKind}
    (hat : t.before.At p) (hid : id ≠ 0)
    (hnodup : ((t.taken ++ [leafNode id kind p]).map TogNode.id).Nodup) :
    ∃ s', TogGenerator.addEntry s
        { nodeId := id, nodeType := kind.nodeType, parents := [p] } = .ok s' ∧
      Walks (t.enter (leafNode id kind p)) stack s' := by
  refine ⟨_, addEntry_eq (g := s.1) h htidy hat hnodup (newNodes_leaf s.1 kind hid), ?_⟩
  refine ⟨rfl, rfl, h.newNodeId, ?_, prev_next h.prev hat⟩
  have hpending : (t.before.next (leafNode id kind p)).pending = [] := by
    cases t.before <;> rfl
  simp [Trail.enter, hpending]

/-- A loop is one step of the walk, with its end on the stack. -/
theorem Walks.loop (h : Walks t stack s) (htidy : Tidy t) {id p : ℤ} (loopIdx : String)
    (hat : t.before.At p) (hid : id ≠ 0)
    (hnodup : ((t.taken ++ [loopNode id loopIdx p]).map TogNode.id).Nodup) :
    ∃ s', TogGenerator.addEntry s
        { nodeId := id, nodeType := .loop, loopIndex := loopIdx, parents := [p] } = .ok s' ∧
      Walks (t.openLoop (loopNode id loopIdx p)) (endNode t.nextId loopIdx p :: stack) s' := by
  have hnew := newNodes_loop s.1 (p := p) loopIdx hid
  refine ⟨_, addEntry_eq (g := { s.1 with newNodeId := s.1.newNodeId + 1 }) h htidy hat hnodup
    hnew, ?_⟩
  refine ⟨rfl, rfl, ?_, ?_, ?_⟩
  · simp [Trail.openLoop, h.newNodeId]
  · simp [Trail.openLoop, Before.pending, h.newNodeId]
  · simp only [Trail.openLoop, Before.Prev]
    split
    · exact List.getLast?_concat
    · rfl

end Step

/-! ## The whole nest -/

/-- What stands before a node after a nest under the parent `p` with the numbers `is`. -/
def Before.Within (p : ℤ) (is : List ℤ) : Before → Prop
  | .opened _ => False
  | .siblings _ last _ => last.parent = p ∧ last.id ∈ is
  | .closed _ last ends outer =>
    last.id ∈ is ∧ last.parent ∈ is ∧ (∀ e ∈ ends, e.parent ∈ is) ∧ outer.parent = p

theorem Before.Within.mono {p : ℤ} {is is' : List ℤ} {b : Before} (h : b.Within p is)
    (hsub : is ⊆ is') : b.Within p is' := by
  cases b with
  | opened q => exact h.elim
  | siblings init last up => exact ⟨h.1, hsub h.2⟩
  | closed init last ends outer =>
    exact ⟨hsub h.1, hsub h.2.1, fun e he => hsub (h.2.2.1 e he), h.2.2.2⟩

theorem Before.Within.at {p : ℤ} {is : List ℤ} {b : Before} (h : b.Within p is) (hp : p ∉ is) :
    b.At p := by
  have hne : ∀ {i : ℤ}, i ∈ is → i ≠ p := fun hi heq => hp (heq ▸ hi)
  cases b with
  | opened q => exact h.elim
  | siblings init last up => exact h.1
  | closed init last ends outer =>
    exact ⟨hne h.2.1, hne h.1, fun e he => hne (h.2.2.1 e he), h.2.2.2⟩

theorem Before.Within.close {id p : ℤ} {is : List ℤ} {b : Before} (h : b.Within id is)
    {e : TogNode} (he : e.parent = p) : (b.close e).Within p (id :: is) := by
  cases b with
  | opened q => exact h.elim
  | siblings init last up =>
    exact ⟨List.mem_cons_of_mem _ h.2, by rw [h.1]; exact List.mem_cons_self, by simp, he⟩
  | closed init last ends outer =>
    obtain ⟨hid, hparent, hends, houter⟩ := h
    refine ⟨List.mem_cons_of_mem _ hid, List.mem_cons_of_mem _ hparent, ?_, he⟩
    intro x hx
    rcases List.mem_append.1 hx with hx | hx
    · exact List.mem_cons_of_mem _ (hends x hx)
    · rw [List.mem_singleton.1 hx, houter]
      exact List.mem_cons_self

theorem within_walk {t : Trail} {p : ℤ} {nest : Nest} (hne : nest ≠ .nil)
    (hloops : nest.NonEmptyLoops) : (t.walk p nest).before.Within p nest.ids := by
  induction nest generalizing t p with
  | nil => exact absurd rfl hne
  | leaf id kind rest ih =>
    by_cases hrest : rest = .nil
    · subst hrest
      simp only [Trail.walk, Trail.enter]
      cases t.before <;> exact ⟨rfl, List.mem_cons_self⟩
    · exact (ih hrest hloops).mono (List.subset_cons_self _ _)
  | loop id loopIdx body rest ihb ihr =>
    obtain ⟨hbody, hloopsb, hloopsr⟩ := hloops
    by_cases hrest : rest = .nil
    · subst hrest
      refine Before.Within.mono ((ihb hbody hloopsb).close rfl) ?_
      simp [Nest.ids]
    · refine (ihr hrest hloopsr).mono ?_
      intro i hi
      simp [Nest.ids, hi]

theorem Walks.closeLoop {t : Trail} {stack : List TogNode} {s : TogGenerator × List TogNode}
    {e : TogNode} {id : ℤ} {is : List ℤ} (h : Walks t (e :: stack) s)
    (hb : t.before.Within id is) : Walks (t.closeLoop e) stack s := by
  obtain ⟨before, edges, emitted, nextId⟩ := t
  cases before with
  | opened q => exact hb.elim
  | siblings init last up =>
    exact ⟨h.edges, h.nodeDict, h.newNodeId, h.loopEndStack, h.prev⟩
  | closed init last ends outer =>
    refine ⟨h.edges, h.nodeDict, h.newNodeId, ?_, h.prev⟩
    have hstack := h.loopEndStack
    simp only [Before.pending] at hstack
    simp [Trail.closeLoop, Before.close, Before.pending, hstack]

theorem at_enter (t : Trail) (y : TogNode) : (t.enter y).before.At y.parent := by
  simp only [Trail.enter]
  cases t.before <;> rfl

/-- The entries of a nest take the generator along the walk. -/
theorem follows_walk {t : Trail} {stack : List TogNode} {s : TogGenerator × List TogNode} {p : ℤ}
    {nest : Nest} (h : Walks t stack s) (htidy : Tidy t) (hat : t.before.At p)
    (hloops : nest.NonEmptyLoops) (hids : nest.ids.Nodup) (hp : p ∉ nest.ids)
    (hzero : (0 : ℤ) ∉ nest.ids)
    (hnodup : ((t.taken ++ nest.emit t.nextId p).map TogNode.id).Nodup) :
    ∃ s', (nest.entries p).foldlM TogGenerator.addEntry s = .ok s' ∧
      Walks (t.walk p nest) stack s' ∧ Tidy (t.walk p nest) := by
  induction nest generalizing t stack s p with
  | nil => exact ⟨s, rfl, h, htidy⟩
  | leaf id kind rest ih =>
    simp only [Nest.ids, List.nodup_cons, List.mem_cons, not_or] at hids hp hzero
    rw [Nest.emit, ← List.singleton_append, ← List.append_assoc] at hnodup
    have hstep : ((t.taken ++ [leafNode id kind p]).map TogNode.id).Nodup := by
      rw [List.map_append] at hnodup
      exact (List.nodup_append.1 hnodup).1
    have hfresh : leafNode id kind p ∉ t.taken := by
      intro hmem
      rw [List.map_append] at hstep
      exact (List.nodup_append.1 hstep).2.2 _ (List.mem_map_of_mem hmem) _ (by simp) rfl
    obtain ⟨s₁, hs₁, hfollows⟩ := h.leaf htidy hat (Ne.symm hzero.1) hstep
    obtain ⟨s', hs', hwalk, htidy'⟩ := ih hfollows (htidy.enter hfresh) (at_enter t _) hloops
      hids.2 hp.2 hzero.2 (by rw [Trail.taken_enter]; exact hnodup)
    refine ⟨s', ?_, hwalk, htidy'⟩
    rw [Nest.entries, List.foldlM_cons, hs₁]
    exact hs'
  | loop id loopIdx body rest ihb ihr =>
    obtain ⟨hbody, hloopsb, hloopsr⟩ := hloops
    simp only [Nest.ids, List.nodup_cons, List.mem_cons, List.mem_append, not_or,
      List.nodup_append] at hids hp hzero
    obtain ⟨⟨hidb, hidr⟩, hidsb, hidsr, -⟩ := hids
    have hlist : t.taken ++ (Nest.loop id loopIdx body rest).emit t.nextId p =
        t.taken ++ [loopNode id loopIdx p] ++ body.emit (t.nextId + 1) id ++
          [endNode t.nextId loopIdx p] ++ rest.emit (t.nextId + 1 + body.loops) p := by
      simp [Nest.emit]
    rw [hlist] at hnodup
    have hnodupb : ((t.taken ++ [loopNode id loopIdx p] ++ body.emit (t.nextId + 1) id).map
        TogNode.id).Nodup := by
      simp only [List.append_assoc, List.map_append] at hnodup ⊢
      refine hnodup.sublist ?_
      simp
    have hstep : ((t.taken ++ [loopNode id loopIdx p]).map TogNode.id).Nodup := by
      rw [List.map_append] at hnodupb
      exact (List.nodup_append.1 hnodupb).1
    have hfresh : loopNode id loopIdx p ∉ t.taken := by
      intro hmem
      rw [List.map_append] at hstep
      exact (List.nodup_append.1 hstep).2.2 _ (List.mem_map_of_mem hmem) _ (by simp) rfl
    obtain ⟨s₁, hs₁, hopen⟩ := h.loop htidy loopIdx hat (Ne.symm hzero.1) hstep
    have hatb : (t.openLoop (loopNode id loopIdx p)).before.At id := ⟨rfl, hp.1⟩
    obtain ⟨s₂, hs₂, hwalkb, htidyb⟩ := ihb hopen (htidy.openLoop hfresh) hatb hloopsb hidsb hidb
      hzero.2.1 (by rw [Trail.taken_openLoop]; exact hnodupb)
    have hwithin := within_walk (t := t.openLoop (loopNode id loopIdx p)) (p := id) hbody hloopsb
    have hclosed := hwalkb.closeLoop hwithin
    have hatr : (((t.openLoop (loopNode id loopIdx p)).walk id body).closeLoop
        (endNode t.nextId loopIdx p)).before.At p :=
      (hwithin.close (p := p) rfl).at (by simp [hp.1, hp.2.1])
    obtain ⟨s', hs', hwalk, htidyr⟩ := ihr hclosed (htidyb.closeLoop _) hatr hloopsr hidsr hp.2.2
      hzero.2.2 (by
        rw [Trail.taken_closeLoop, Trail.taken_walk, Trail.taken_openLoop]
        simpa [Trail.closeLoop, Trail.nextId_walk, Trail.openLoop] using hnodup)
    refine ⟨s', ?_, hwalk, htidyr⟩
    have hparts : (body.entries id ++ rest.entries p).foldlM TogGenerator.addEntry s₁ = .ok s' := by
      rw [List.foldlM_append]
      exact bind_eq_ok.2 ⟨s₂, hs₂, hs'⟩
    rw [Nest.entries, List.foldlM_cons]
    exact bind_eq_ok.2 ⟨s₁, hs₁, hparts⟩

/-! ## The whole graph -/

theorem linkRemaining_eq {g : TogGenerator} {q : TogNode} {ns es : List TogNode}
    (hdict : g.nodeDict = dictOf ns) (hnodup : ((ns ++ es).map TogNode.id).Nodup) :
    g.linkRemaining q es =
      { g with
        edges := g.edges ++ chain q es
        nodeDict := dictOf (ns ++ es)
        loopEndStack := [] } := by
  induction es generalizing g q ns with
  | nil => simp [TogGenerator.linkRemaining, chain, hdict]
  | cons e es ih =>
    have hfresh : e.id ∉ ns.map TogNode.id := by
      intro hmem
      rw [List.map_append, List.nodup_append] at hnodup
      exact hnodup.2.2 _ hmem _ List.mem_cons_self rfl
    rw [TogGenerator.linkRemaining, insert_fresh hdict hfresh]
    let g' := ({ g with nodeDict := dictOf (ns ++ [e]) } : TogGenerator).connectNodes q e
    have hrest := ih (g := g') (q := e) (show _ = dictOf (ns ++ [e]) from rfl)
      (by simpa using hnodup)
    rw [hrest]
    simp [g', TogGenerator.connectNodes, chain]

/-- The place at which the walk over a raw graph starts. -/
def startTrail (nest : Nest) : Trail :=
  { before := .opened rootNode, edges := [], emitted := [rootNode]
    nextId := nest.rawGraph.length + 1 }

namespace Nest

theorem length_entries (p : ℤ) (nest : Nest) : (nest.entries p).length = nest.ids.length := by
  induction nest generalizing p with
  | nil => rfl
  | leaf id kind rest ih => simp [entries, ids, ih]
  | loop id loopIdx body rest ihb ihr => simp [entries, ids, ihb, ihr]

theorem length_rawGraph (nest : Nest) : nest.rawGraph.length = nest.ids.length + 1 := by
  simp [rawGraph, length_entries]

/-- The nodes of the graph that is emitted, with the root. -/
def nodes (nest : Nest) : List TogNode :=
  rootNode :: nest.emit (nest.rawGraph.length + 1) 0

/-- The nodes of a numbered nest have different numbers. -/
theorem Numbered.nodup_nodes {nest : Nest} (h : nest.Numbered) :
    (nest.nodes.map TogNode.id).Nodup := by
  have hlength := nest.length_rawGraph
  have hbelow : ∀ i ∈ nest.ids, i < (nest.rawGraph.length + 1 : ℤ) := by
    intro i hi
    have := (h.range i hi).2
    omega
  rw [nodes, List.map_cons, List.nodup_cons]
  refine ⟨fun hmem => ?_, nodup_emit h.nodup hbelow⟩
  obtain ⟨n, hn, hid⟩ := List.mem_map.1 hmem
  simp only [rootNode] at hid
  rcases mem_emit_ids hn with hi | hi
  · have := (h.range n.id hi).1
    omega
  · omega

end Nest

/-- The place at which the walk over a raw graph ends. -/
def endTrail (nest : Nest) : Trail := (startTrail nest).walk 0 nest

theorem taken_endTrail (nest : Nest) : (endTrail nest).taken = nest.nodes := by
  rw [endTrail, Trail.taken_walk]
  rfl

/-- The generator emits the nodes of the nest, and it connects them as the walk does, with the
ends that are left after it. -/
theorem parseGraph_eq {nest : Nest} (h : nest.Numbered) (hloops : nest.NonEmptyLoops) :
    ∃ g, TogGenerator.parseGraph nest.rawGraph = .ok g ∧ g.nodeDict = dictOf nest.nodes ∧
      g.edges = (endTrail nest).edges ++
        chain (endTrail nest).before.last (endTrail nest).before.pending := by
  have hzero : (0 : ℤ) ∉ nest.ids := by
    intro hmem
    have := (h.range 0 hmem).1
    omega
  let s : TogGenerator × List TogNode :=
    ({ nodeDict := dictOf [rootNode], newNodeId := nest.rawGraph.length + 1 }, [rootNode])
  have hroot : TogGenerator.addEntry ({ newNodeId := nest.rawGraph.length + 1 }, [])
      { nodeId := 0, nodeType := .base, parents := [] } = .ok s := rfl
  have hstart : Walks (startTrail nest) [] s := ⟨rfl, rfl, rfl, rfl, rfl⟩
  have htidy : Tidy (startTrail nest) := ⟨by simp [startTrail], trivial⟩
  have hat : (startTrail nest).before.At 0 := by
    refine ⟨rfl, ?_⟩
    decide
  obtain ⟨s', hs', hwalk, -⟩ := follows_walk hstart htidy hat hloops h.nodup hzero hzero
    h.nodup_nodes
  have htaken := taken_endTrail nest
  have hnodup : ((endTrail nest).taken.map TogNode.id).Nodup := htaken ▸ h.nodup_nodes
  have hleft : (((endTrail nest).emitted ++ s'.1.loopEndStack).map TogNode.id).Nodup := by
    rw [hwalk.loopEndStack, List.append_nil]
    exact hnodup
  have hlink := linkRemaining_eq (q := (endTrail nest).before.last) hwalk.nodeDict hleft
  refine ⟨s'.1.linkRemaining (endTrail nest).before.last s'.1.loopEndStack, ?_, ?_, ?_⟩
  · have hfold : nest.rawGraph.foldlM TogGenerator.addEntry
        ({ newNodeId := nest.rawGraph.length + 1 }, []) = .ok s' :=
      bind_eq_ok.2 ⟨s, hroot, hs'⟩
    rw [TogGenerator.parseGraph]
    refine bind_eq_ok.2 ⟨s', hfold, ?_⟩
    simp only [hwalk.prev.getLast?]
    rfl
  · rw [hlink, hwalk.loopEndStack, List.append_nil]
    exact congrArg dictOf htaken
  · rw [hlink, hwalk.edges, hwalk.loopEndStack, List.append_nil]
    rfl

end PyTorchSim.Analysis
