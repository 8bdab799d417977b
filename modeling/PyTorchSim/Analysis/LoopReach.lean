import Mathlib.Logic.Relation
import PyTorchSim.Analysis.LoopEdges

/-!
# The nodes of a body reach its loop end

A load that directly follows a load, and a wait that directly follows a wait, are connected beside
it, not after it.  Such a run is waited for by the compute nodes after it that come directly after
a load or a wait; and loads at the end of a body are, when another node follows the loop.
-/

set_option autoImplicit false

namespace PyTorchSim.Analysis

open PyTorchSim.Model PyTorchSim.Library
open TogGenerator (closing isLoadOrWait)

/-- There is a directed path. -/
def Reaches (edges : List Edge) : TogNode → TogNode → Prop :=
  Relation.ReflTransGen fun m n => (m, n) ∈ edges

/-! ## The condition -/

/-- A load or a wait. -/
def LeafKind.Dma (k : LeafKind) : Prop := k = .load ∨ k = .wait

instance (k : LeafKind) : Decidable k.Dma := inferInstanceAs (Decidable (_ ∨ _))

namespace Nest

/-- After a node of the kind `k`, a compute node comes directly after a load or a wait before the
next loop and the end of the body. -/
def Feeds (k : LeafKind) : Nest → Prop
  | nil => False
  | leaf _ k' rest => k.Dma ∧ k' = .compute ∨ rest.Feeds k'
  | loop _ _ _ _ => False

/-- There are only loads up to the end of the body. -/
def OnlyLoads : Nest → Prop
  | nil => True
  | leaf _ k rest => k = .load ∧ rest.OnlyLoads
  | loop _ _ _ _ => False

/-- A node of the kind `k` before `rest` is waited for: it does not start a run with the next node,
or the run is waited for. -/
def LeafLinked (followed : Bool) (k : LeafKind) : Nest → Prop
  | nil => True
  | leaf _ k' rest =>
    k.Dma ∧ k = k' → rest.Feeds k' ∨ k = .load ∧ followed = true ∧ rest.OnlyLoads
  | loop _ _ _ _ => True

/-- The nodes in loops are waited for.  `inLoop` tells whether the nest is the body of a loop, and
`followed` whether a node comes after it. -/
def Linked (inLoop followed : Bool) : Nest → Prop
  | nil => True
  | leaf _ k rest => (inLoop = true → rest.LeafLinked followed k) ∧ rest.Linked inLoop followed
  | loop _ _ body rest =>
    body.Linked true (rest.followedBy followed) ∧ rest.Linked inLoop followed

/-- The nodes in loops, each with the end of the loop whose body it is in; `stop` is the end of the
loop around the nest. -/
def waits (stop : Option TogNode) (c p : ℤ) : Nest → List Edge
  | nil => []
  | leaf id kind rest =>
    stop.toList.map (fun e => (leafNode id kind p, e)) ++ rest.waits stop c p
  | loop id loopIdx body rest =>
    body.waits (some (endNode c loopIdx p)) (c + 1) id ++
      rest.waits stop (c + 1 + body.loops) p

end Nest

theorem isLoadOrWait_leafNode (id p : ℤ) (k : LeafKind) :
    isLoadOrWait (leafNode id k p) = true ↔ k.Dma := by
  cases k <;> simp [isLoadOrWait, leafNode, LeafKind.nodeClass, LeafKind.Dma]

theorem sameRun_leafNode (id id' p p' : ℤ) (k k' : LeafKind) :
    SameRun (leafNode id k p) (leafNode id' k' p') ↔ k.Dma ∧ k = k' := by
  cases k <;> cases k' <;>
    simp [SameRun, leafNode, LeafKind.nodeClass, LeafKind.Dma]

theorem compute_leafNode (id p : ℤ) (k : LeafKind) :
    (leafNode id k p).nodeClass = .computeNode ↔ k = .compute := by
  cases k <;> simp [leafNode, LeafKind.nodeClass]

theorem load_leafNode (id p : ℤ) (k : LeafKind) :
    (leafNode id k p).nodeClass = .loadNode ↔ k = .load := by
  cases k <;> simp [leafNode, LeafKind.nodeClass]

theorem not_sameRun_loopNode (m : TogNode) (id p : ℤ) (loopIdx : String) :
    ¬ SameRun m (loopNode id loopIdx p) := by
  simp [SameRun, loopNode]

/-! ## Every loop reaches its end -/

namespace Front

/-- The last node before the next one. -/
def last : Front → TogNode
  | one q => q
  | run _ last _ => last

/-- A node that reaches the next one, whatever it is. -/
def anchor : Front → TogNode
  | one q => q
  | run _ last up => if isLoadOrWait last then up else last

/-- The last load or wait is connected to the node that is noted as its parent. -/
def Anchored (edges : List Edge) : Front → Prop
  | one _ => True
  | run _ last up => isLoadOrWait last → (up, last) ∈ edges

variable {edges : List Edge} {f : Front} {y : TogNode}

theorem Anchored.reaches_last (h : f.Anchored edges) : Reaches edges f.anchor f.last := by
  cases f with
  | one q => exact .refl
  | run init last up =>
    by_cases hlast : isLoadOrWait last
    · simp only [anchor, hlast, if_true]
      exact .single (h hlast)
    · simp only [anchor, hlast, Bool.false_eq_true, if_false]
      exact .refl

/-- Unless the two make a run, the last node is connected to the next one. -/
theorem last_mem_edgesTo (h : ∀ init last up, f = run init last up → ¬ SameRun last y) :
    (f.last, y) ∈ f.edgesTo y := by
  cases f with
  | one q => exact List.mem_singleton_self _
  | run init last up =>
    simp only [edgesTo, Before.edgesTo, if_neg (h init last up rfl), Front.last]
    split
    · next hcompute => simp [hcompute.1]
    · exact List.mem_singleton_self _

/-- In a run the parent of the last node is connected to the next one. -/
theorem up_mem_edgesTo {init : List TogNode} {last up : TogNode} (h : SameRun last y) :
    (up, y) ∈ (run init last up).edgesTo y := by
  simp [edgesTo, Before.edgesTo, h]

theorem anchor_next_of_not_dma (hy : ¬ isLoadOrWait y) : (f.next y).anchor = y := by
  cases f <;> simp [Front.next, anchor, hy]

theorem anchor_next_of_not_sameRun {init : List TogNode} {last up : TogNode} (hy : isLoadOrWait y)
    (hrun : ¬ SameRun last y) : ((run init last up).next y).anchor = last := by
  simp [Front.next, anchor, hy, hrun]

theorem Anchored.next (hE : ∀ ed ∈ f.edgesTo y, ed ∈ edges) : (f.next y).Anchored edges := by
  cases f with
  | one q =>
    intro _
    exact hE _ (List.mem_singleton_self _)
  | run init last up =>
    intro _
    by_cases hrun : SameRun last y
    · simp only [if_pos hrun]
      exact hE _ (up_mem_edgesTo hrun)
    · simp only [if_neg hrun]
      refine hE _ (last_mem_edgesTo (f := run init last up) ?_)
      rintro _ _ _ heq
      cases heq
      exact hrun

/-- The anchor reaches the next anchor. -/
theorem Anchored.reaches_next (h : f.Anchored edges) (hE : ∀ ed ∈ f.edgesTo y, ed ∈ edges) :
    Reaches edges f.anchor (f.next y).anchor := by
  have hnext : (f.next y).Anchored edges := Anchored.next hE
  cases f with
  | one q =>
    by_cases hy : isLoadOrWait y
    · simp only [Front.next, anchor, hy, if_true]
      exact .refl
    · simp only [Front.next, anchor, hy, Bool.false_eq_true, if_false]
      exact .single (hE _ (List.mem_singleton_self _))
  | run init last up =>
    by_cases hrun : SameRun last y
    · have hlast : isLoadOrWait last := by
        rcases hrun with ⟨hclass, -⟩ | ⟨hclass, -⟩ <;> simp [isLoadOrWait, hclass]
      have hy : isLoadOrWait y := by
        rcases hrun with ⟨-, hclass⟩ | ⟨-, hclass⟩ <;> simp [isLoadOrWait, hclass]
      simp only [Front.next, anchor, hlast, hy, if_true, if_pos hrun]
      exact .refl
    · have hedge : (last, y) ∈ edges :=
        hE _ (last_mem_edgesTo (f := run init last up) fun _ _ _ heq => by cases heq; exact hrun)
      have hreach : Reaches edges (run init last up).anchor last := h.reaches_last
      by_cases hy : isLoadOrWait y
      · simpa only [Front.next, anchor, hy, if_true, if_neg hrun] using hreach
      · simp only [Front.next, anchor, hy, Bool.false_eq_true, if_false]
        exact hreach.tail hedge

end Front

namespace Nest

/-- The edges of a body, with those to its loop end. -/
def localEdges (followed : Bool) (stop : Option TogNode) (c p : ℤ) (f : Front) (nest : Nest) :
    List Edge :=
  nest.levelEdges followed c p f ++
    stop.toList.flatMap fun e => (nest.frontAfter c p f).closingEdges followed e

section Parts

variable {followed : Bool} {stop : Option TogNode} {c p id : ℤ} {f : Front} {kind : LeafKind}
  {loopIdx : String} {body rest : Nest}

theorem localEdges_leaf :
    (leaf id kind rest).localEdges followed stop c p f =
      f.edgesTo (leafNode id kind p) ++
        rest.localEdges followed stop c p (f.next (leafNode id kind p)) := by
  simp [localEdges, levelEdges, frontAfter]

theorem localEdges_loop :
    (loop id loopIdx body rest).localEdges followed stop c p f =
      f.edgesTo (loopNode id loopIdx p) ++
        (body.localEdges (rest.followedBy followed) (some (endNode c loopIdx p)) (c + 1) id
            (.one (loopNode id loopIdx p)) ++
          rest.localEdges followed stop (c + 1 + body.loops) p (.one (endNode c loopIdx p))) := by
  simp [localEdges, levelEdges, frontAfter]

end Parts

end Nest

theorem last_mem_closingEdges (f : Front) (followed : Bool) (e : TogNode) :
    (f.last, e) ∈ f.closingEdges followed e := by
  cases f with
  | one q => exact List.mem_singleton_self _
  | run init last up =>
    cases followed <;> simp [Front.closingEdges, Front.last, closing]

/-- The nodes before a nest reach the end of the loop around it. -/
theorem reaches_of_front {edges : List Edge} {followed : Bool} {e : TogNode} {c p : ℤ} {f : Front}
    {nest : Nest} (hE : ∀ ed ∈ nest.localEdges followed (some e) c p f, ed ∈ edges)
    (hf : f.Anchored edges) : Reaches edges f.anchor e := by
  induction nest generalizing followed e c p f with
  | nil =>
    have hedge : (f.last, e) ∈ edges := by
      apply hE
      simpa [Nest.localEdges, Nest.levelEdges, Nest.frontAfter] using
        last_mem_closingEdges f followed e
    exact hf.reaches_last.tail hedge
  | leaf id kind rest ih =>
    rw [Nest.localEdges_leaf, List.forall_mem_append] at hE
    obtain ⟨hto, hafter⟩ := hE
    exact (hf.reaches_next hto).trans (ih hafter (Front.Anchored.next hto))
  | loop id loopIdx body rest ihb ihr =>
    rw [Nest.localEdges_loop, List.forall_mem_append, List.forall_mem_append] at hE
    obtain ⟨hto, hinner, hafter⟩ := hE
    have hopen : (f.last, loopNode id loopIdx p) ∈ edges :=
      hto _ (Front.last_mem_edgesTo fun _ last _ _ => not_sameRun_loopNode last id p loopIdx)
    have hbody : Reaches edges (loopNode id loopIdx p) (endNode c loopIdx p) := ihb hinner trivial
    have hrest : Reaches edges (endNode c loopIdx p) e := ihr hafter trivial
    exact ((hf.reaches_last.tail hopen).trans hbody).trans hrest

/-! ## The nodes that are waited for -/

section Waiting

variable {edges : List Edge} {followed : Bool} {e x : TogNode} {c p id : ℤ} {init : List TogNode}
  {k : LeafKind} {up : TogNode} {rest : Nest}

/-- A load or a wait before a compute node that comes directly after a load or a wait. -/
theorem reaches_of_feeds
    (hE : ∀ ed ∈ rest.localEdges followed (some e) c p (.run init (leafNode id k p) up),
      ed ∈ edges)
    (hx : x ∈ init ++ [leafNode id k p]) (hdma : isLoadOrWait x) (hfeeds : rest.Feeds k) :
    Reaches edges x e := by
  induction rest generalizing init id k up with
  | nil => exact hfeeds.elim
  | leaf id' k' rest ih =>
    rw [Nest.localEdges_leaf, List.forall_mem_append] at hE
    obtain ⟨hto, hafter⟩ := hE
    rcases hfeeds with ⟨hk, rfl⟩ | hfeeds
    · have hrun : ¬ SameRun (leafNode id k p) (leafNode id' .compute p) := by
        rw [sameRun_leafNode]
        rintro ⟨hk, rfl⟩
        exact hk.elim nofun nofun
      have hedge : (x, leafNode id' .compute p) ∈ edges := by
        apply hto
        rw [Front.edgesTo, Before.edgesTo, if_neg hrun,
          if_pos ⟨(isLoadOrWait_leafNode id p k).2 hk, rfl⟩]
        exact List.mem_map.2 ⟨x, List.mem_filter.2 ⟨hx, hdma⟩, rfl⟩
      have hreach := reaches_of_front hafter (Front.Anchored.next hto)
      rw [Front.anchor_next_of_not_dma (by simp [isLoadOrWait_leafNode, LeafKind.Dma])] at hreach
      exact .head hedge hreach
    · exact ih hafter (List.mem_append_left _ hx) hfeeds
  | loop id' loopIdx body rest => exact hfeeds.elim

/-- A load at the end of a body that another node follows. -/
theorem mem_closingEdges_of_onlyLoads
    (hx : x ∈ closing (init ++ [leafNode id k p]).reverse) (hloads : rest.OnlyLoads) :
    (x, e) ∈ (rest.frontAfter c p (.run init (leafNode id k p) up)).closingEdges true e := by
  induction rest generalizing init id k up with
  | nil =>
    simp only [Nest.frontAfter, Front.closingEdges, if_true]
    exact List.mem_map.2 ⟨x, hx, rfl⟩
  | leaf id' k' rest ih =>
    obtain ⟨rfl, hloads⟩ := hloads
    refine ih ?_ hloads
    rw [List.reverse_append, List.reverse_singleton, List.singleton_append, closing]
    simp [leafNode, LeafKind.nodeClass] at hx ⊢
    exact .inr hx
  | loop id' loopIdx body rest => exact hloads.elim

/-- A node whose run is waited for, if it starts one, reaches the end of its loop. -/
theorem reaches_of_leafLinked
    (hE : ∀ ed ∈ rest.localEdges followed (some e) c p (.run init (leafNode id k p) up),
      ed ∈ edges)
    (hlinked : rest.LeafLinked followed k) : Reaches edges (leafNode id k p) e := by
  cases rest with
  | nil =>
    apply Relation.ReflTransGen.single
    apply hE
    have hlast := last_mem_closingEdges (.run init (leafNode id k p) up) followed e
    simpa [Nest.localEdges, Nest.levelEdges, Nest.frontAfter, Front.last] using hlast
  | loop id' loopIdx body rest =>
    rw [Nest.localEdges_loop, List.forall_mem_append, List.forall_mem_append] at hE
    obtain ⟨hto, hinner, hafter⟩ := hE
    have hopen : (leafNode id k p, loopNode id' loopIdx p) ∈ edges :=
      hto _ (Front.last_mem_edgesTo (f := .run init (leafNode id k p) up) fun _ last _ _ =>
        not_sameRun_loopNode last id' p loopIdx)
    have hbody : Reaches edges (loopNode id' loopIdx p) (endNode c loopIdx p) :=
      reaches_of_front hinner trivial
    have hrest : Reaches edges (endNode c loopIdx p) e := reaches_of_front hafter trivial
    exact (hbody.trans hrest).head hopen
  | leaf id' k' rest =>
    rw [Nest.localEdges_leaf, List.forall_mem_append] at hE
    obtain ⟨hto, hafter⟩ := hE
    have hreach := reaches_of_front hafter (Front.Anchored.next hto)
    by_cases hrun : k.Dma ∧ k = k'
    · obtain ⟨hk, rfl⟩ := hrun
      rcases hlinked ⟨hk, rfl⟩ with hfeeds | ⟨rfl, rfl, hloads⟩
      · exact reaches_of_feeds hafter (by simp) ((isLoadOrWait_leafNode id p k).2 hk) hfeeds
      · apply Relation.ReflTransGen.single
        apply hafter
        apply List.mem_append_right
        have hclosing : leafNode id .load p ∈
            closing (init ++ [leafNode id .load p] ++ [leafNode id' .load p]).reverse := by
          simp [closing, leafNode, LeafKind.nodeClass]
        simpa [Front.next] using mem_closingEdges_of_onlyLoads hclosing hloads
    · have hnot : ¬ SameRun (leafNode id k p) (leafNode id' k' p) := by
        rwa [sameRun_leafNode]
      by_cases hy : isLoadOrWait (leafNode id' k' p)
      · rwa [Front.anchor_next_of_not_sameRun hy hnot] at hreach
      · rw [Front.anchor_next_of_not_dma hy] at hreach
        refine .head (hto _ (Front.last_mem_edgesTo
          (f := .run init (leafNode id k p) up) ?_)) hreach
        rintro _ _ _ heq
        cases heq
        exact hnot

end Waiting

theorem Front.exists_next (f : Front) (y : TogNode) : ∃ init up, f.next y = .run init y up := by
  cases f with
  | one q => exact ⟨[], q, rfl⟩
  | run init last up => exact ⟨init ++ [last], _, rfl⟩

/-- In a linked nest the nodes reach the ends of their loops. -/
theorem reaches_of_linked {edges : List Edge} {followed : Bool} {stop : Option TogNode} {c p : ℤ}
    {f : Front} {nest : Nest} (hE : ∀ ed ∈ nest.localEdges followed stop c p f, ed ∈ edges)
    (hlinked : nest.Linked stop.isSome followed) :
    ∀ w ∈ nest.waits stop c p, Reaches edges w.1 w.2 := by
  induction nest generalizing followed stop c p f with
  | nil =>
    intro w hw
    cases hw
  | leaf id kind rest ih =>
    obtain ⟨hleaf, hrest⟩ := hlinked
    rw [Nest.localEdges_leaf, List.forall_mem_append] at hE
    obtain ⟨-, hafter⟩ := hE
    intro w hw
    rw [Nest.waits, List.mem_append] at hw
    rcases hw with hw | hw
    · obtain ⟨e, he, rfl⟩ := List.mem_map.1 hw
      obtain rfl := Option.mem_toList.1 he
      obtain ⟨init, up, hnext⟩ := f.exists_next (leafNode id kind p)
      rw [hnext] at hafter
      exact reaches_of_leafLinked hafter (hleaf rfl)
    · exact ih hafter hrest w hw
  | loop id loopIdx body rest ihb ihr =>
    obtain ⟨hbody, hrest⟩ := hlinked
    rw [Nest.localEdges_loop, List.forall_mem_append, List.forall_mem_append] at hE
    obtain ⟨-, hinner, hafter⟩ := hE
    intro w hw
    rw [Nest.waits, List.mem_append] at hw
    rcases hw with hw | hw
    · exact ihb hinner hbody w hw
    · exact ihr hafter hrest w hw

end PyTorchSim.Analysis
