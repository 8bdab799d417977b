import PyTorchSim.Analysis.LoopNest
import PyTorchSim.Model.TogFile

/-!
# Reading the nodes of a file

The parser reads the nodes of a file one after the other.  The stack of loops gives each node the
loop that it belongs to, and each loop the nodes of its body, in their order; an input becomes a
link to a node that was read before.
-/

set_option autoImplicit false

namespace PyTorchSim.Analysis

open PyTorchSim.Model PyTorchSim.Library
open TogReader (linkParent readNode)

/-! ## One node -/

section Step

variable {r : TogReader} {n : NodeProto} {o : Option ℕ}

/-- The node that an input is a link to. -/
def standsFor (r : TogReader) (m : NodeName) : Option ℕ :=
  (r.outputMap m).bind fun p =>
    match (r.tileVec[p]?).map NodeName.nodeClass with
    | some .loopEndNode => r.ownerLoop p
    | some .loopIndexNode => none
    | _ => some p

/-- An input whose node was read. -/
def Known (r : TogReader) (m : NodeName) : Prop :=
  ∃ p, r.outputMap m = some p ∧
    ((r.tileVec[p]?).map NodeName.nodeClass = some .loopEndNode → (r.ownerLoop p).isSome)

/-- The links of the node `i`. -/
def linked (r : TogReader) (i : ℕ) (input : List NodeName) : TogReader :=
  { r with child := fun j =>
      r.child j ++ (input.filter fun m => standsFor r m = some j).map fun _ => i }

theorem linkParent_eq {i : ℕ} {m : NodeName} (h : Known r m) :
    linkParent i r m = .ok (linked r i [m]) := by
  have hadd : ∀ q, standsFor r m = some q → r.addChild q i = linked r i [m] := by
    intro q hq
    simp only [linked, TogReader.addChild]
    congr 1
    funext j
    by_cases hj : j = q
    · subst hj
      simp [hq]
    · have hne : standsFor r m ≠ some j := by
        rw [hq]
        exact fun heq => hj (Option.some.inj heq).symm
      simp [hj, hne]
  obtain ⟨p, hp, hend⟩ := h
  unfold linkParent
  simp only [hp]
  split
  · next hclass =>
    obtain ⟨l, hl⟩ := Option.isSome_iff_exists.mp (hend hclass)
    simp only [hl]
    exact congrArg _ (hadd l (by simp [standsFor, hp, hclass, hl]))
  · next hclass =>
    have hnone : standsFor r m = none := by simp [standsFor, hp, hclass]
    simp [linked, hnone]
  · next hother hindex =>
    refine congrArg _ (hadd p ?_)
    simp only [standsFor, hp, Option.bind_some]

theorem linked_cons (r : TogReader) (i : ℕ) (m : NodeName) (input : List NodeName) :
    linked (linked r i [m]) i input = linked r i (m :: input) := by
  have hstands : standsFor (linked r i [m]) = standsFor r := rfl
  simp only [linked]
  congr 1
  funext j
  change _ ++ _ ++ (input.filter fun m' => standsFor (linked r i [m]) m' = some j).map _ = _
  rw [hstands, List.append_assoc, ← List.map_append, ← List.filter_append]
  rfl

theorem foldlM_linkParent {i : ℕ} {input : List NodeName} (h : ∀ m ∈ input, Known r m) :
    input.foldlM (linkParent i) r = .ok (linked r i input) := by
  induction input generalizing r with
  | nil => simp [linked, pure, Except.pure]
  | cons m input ih =>
    rw [List.foldlM_cons, linkParent_eq (h m List.mem_cons_self)]
    refine (ih (r := linked r i [m]) fun m' hm' => h m' (List.mem_cons_of_mem _ hm')).trans ?_
    rw [linked_cons]

/-- A node in its place, without its links. -/
def entered (r : TogReader) (name : NodeName) (o : Option ℕ) : TogReader :=
  { r with
    outputMap := Function.update r.outputMap name (some r.tileVec.length)
    tileVec := r.tileVec ++ [name]
    ownerLoop := Function.update r.ownerLoop r.tileVec.length o
    bodyNode := fun j => r.bodyNode j ++ if o = some j then [r.tileVec.length] else [] }

theorem addBody_eq (r : TogReader) (o : Option ℕ) (i : ℕ) :
    r.addBody o i =
      { r with bodyNode := fun j => r.bodyNode j ++ if o = some j then [i] else [] } := by
  cases o with
  | none => simp [TogReader.addBody]
  | some l =>
      simp only [TogReader.addBody]
      congr 1
      funext j
      by_cases hj : j = l
      · subst hj
        simp
      · simp [hj, Ne.symm hj]

theorem registerTile_eq (htop : r.getTopLoop = .ok o)
    (h : n.name.nodeClass ≠ .loopEndNode → ∀ m ∈ n.input, Known (entered r n.name o) m) :
    r.registerTile n = .ok (if n.name.nodeClass = .loopEndNode then entered r n.name o
      else linked (entered r n.name o) r.tileVec.length n.input) := by
  unfold TogReader.registerTile
  rw [htop]
  simp only [bind, Except.bind, pure, Except.pure, addBody_eq]
  by_cases hend : n.name.nodeClass = .loopEndNode
  · simp [hend, entered]
  · simp only [hend, if_false]
    exact foldlM_linkParent (h hend)

/-- The loops with one more at a depth. -/
def pushLoop (loops : List (List ℕ)) (depth i : ℕ) : List (List ℕ) :=
  (loops ++ List.replicate (depth + 1 - loops.length) []).modify depth (· ++ [i])

theorem length_pushLoop (loops : List (List ℕ)) (depth i : ℕ) :
    (pushLoop loops depth i).length = max loops.length (depth + 1) := by
  simp only [pushLoop, List.length_modify, List.length_append, List.length_replicate]
  omega

theorem getD_pushLoop (loops : List (List ℕ)) (depth i e : ℕ) :
    (pushLoop loops depth i).getD e [] = loops.getD e [] ++ if depth = e then [i] else [] := by
  have hpad : (loops ++ List.replicate (depth + 1 - loops.length) [])[e]?.getD [] =
      loops[e]?.getD [] := by
    by_cases he : e < loops.length
    · simp [List.getElem?_append_left he]
    · have hnone : loops[e]? = none := List.getElem?_eq_none (by omega)
      rw [List.getElem?_append_right (by omega), hnone, List.getElem?_replicate]
      split <;> rfl
  simp only [pushLoop, List.getD_eq_getElem?_getD]
  by_cases hdepth : depth = e
  · subst hdepth
    have hlt : depth < (loops ++ List.replicate (depth + 1 - loops.length) []).length := by
      simp only [List.length_append, List.length_replicate]
      omega
    rw [List.getElem?_eq_getElem hlt, Option.getD_some] at hpad
    simp [List.getElem?_eq_getElem hlt, hpad]
  · rw [List.getElem?_modify_ne _ _ hdepth, if_neg hdepth, List.append_nil, hpad]

end Step

/-! ## Between two nodes -/

/-- The parser between two nodes, at a depth. -/
structure Reading (r : TogReader) (depth : ℕ) : Prop where
  output : ∀ m k, r.outputMap m = some k ↔ r.tileVec[k]? = some m
  ends : ∀ k m, r.tileVec[k]? = some m → m.nodeClass = .loopEndNode → (r.ownerLoop k).isSome
  pointer : r.loopStackPointer = depth
  levels : depth ≤ r.loopNodes.length
  later : ∀ k, r.tileVec.length ≤ k → r.bodyNode k = []

/-- Moreover the next node belongs to the loop `o`. -/
structure Inside (r : TogReader) (depth : ℕ) (o : Option ℕ) : Prop extends Reading r depth where
  top : r.getTopLoop = .ok o
  owned : ∀ l ∈ o, l < r.tileVec.length

/-- What the node of a name leaves behind. -/
def taken (r : TogReader) (name : NodeName) (o : Option ℕ) (input : List NodeName) : TogReader :=
  linked (entered r name o) r.tileVec.length input

section Between

variable {r : TogReader} {depth : ℕ} {o : Option ℕ} {name : NodeName}

theorem output_entered (houtput : ∀ m k, r.outputMap m = some k ↔ r.tileVec[k]? = some m)
    (hfresh : name ∉ r.tileVec) (m : NodeName) (k : ℕ) :
    (entered r name o).outputMap m = some k ↔ (entered r name o).tileVec[k]? = some m := by
  simp only [entered]
  by_cases hm : m = name
  · subst hm
    simp only [Function.update_self, Option.some.injEq]
    constructor
    · rintro rfl
      simp
    · intro hk
      by_contra hne
      rcases Nat.lt_or_gt_of_ne hne with hlt | hlt
      · rw [List.getElem?_eq_none (by simp; omega)] at hk
        cases hk
      · rw [List.getElem?_append_left hlt] at hk
        exact hfresh (List.mem_of_getElem? hk)
  · rw [Function.update_of_ne hm, houtput]
    by_cases hk : k < r.tileVec.length
    · rw [List.getElem?_append_left hk]
    · rw [List.getElem?_eq_none (by omega), List.getElem?_append_right (by omega)]
      simp only [List.getElem?_singleton, reduceCtorEq, false_iff]
      split
      · exact fun heq => hm (Option.some.inj heq).symm
      · simp

theorem Reading.known (h : Reading r depth) {m : NodeName} (hm : m ∈ r.tileVec) : Known r m := by
  obtain ⟨k, hlt, hk⟩ := List.getElem_of_mem hm
  have hget : r.tileVec[k]? = some m := by rw [List.getElem?_eq_getElem hlt, hk]
  refine ⟨k, (h.output m k).mpr hget, ?_⟩
  rw [hget]
  intro hend
  exact h.ends k m hget (by simpa using hend)

theorem Reading.entered (h : Reading r depth) (hfresh : name ∉ r.tileVec)
    (howned : ∀ l ∈ o, l < r.tileVec.length) (hend : name.nodeClass = .loopEndNode → o.isSome) :
    Reading (entered r name o) depth where
  output := output_entered h.output hfresh
  ends := by
    intro k m hk hclass
    simp only [Analysis.entered] at hk ⊢
    rcases Nat.lt_trichotomy k r.tileVec.length with hlt | rfl | hgt
    · rw [List.getElem?_append_left hlt] at hk
      rw [Function.update_of_ne (by omega)]
      exact h.ends k m hk hclass
    · rw [Function.update_self]
      simp only [List.getElem?_concat_length, Option.some.injEq] at hk
      exact hend (hk ▸ hclass)
    · rw [List.getElem?_eq_none (by simp; omega)] at hk
      cases hk
  pointer := h.pointer
  levels := h.levels
  later := by
    intro k hk
    simp only [Analysis.entered, List.length_append, List.length_singleton] at hk ⊢
    have hne : o ≠ some k := by
      intro heq
      have hlt := howned k heq
      omega
    rw [h.later k (by omega), if_neg hne]
    rfl

theorem Reading.taken (h : Reading r depth) (hfresh : name ∉ r.tileVec)
    (howned : ∀ l ∈ o, l < r.tileVec.length) (hend : name.nodeClass = .loopEndNode → o.isSome)
    (input : List NodeName) : Reading (taken r name o input) depth := by
  have hentered := h.entered hfresh howned hend
  exact ⟨hentered.output, hentered.ends, hentered.pointer, hentered.levels, hentered.later⟩

/-- The open loop at a depth is the last one that was met there. -/
theorem top_iff (hdepth : 0 < depth) (h : Reading r depth) :
    r.getTopLoop = .ok o ↔
      ∃ l, o = some l ∧ (r.loopNodes.getD (depth - 1) []).getLast? = some l := by
  have hpointer := h.pointer
  have hlevels := h.levels
  have hne : r.loopNodes.isEmpty = false := by
    rw [List.isEmpty_eq_false_iff, ← List.length_pos_iff]
    omega
  have hat : (r.loopStackPointer - 1).toNat = depth - 1 := by omega
  have hlt : depth - 1 < r.loopNodes.length := by omega
  have hget : r.loopNodes[depth - 1]? = some (r.loopNodes.getD (depth - 1) []) := by
    simp [List.getElem?_eq_getElem hlt]
  have hpos : ¬ r.loopStackPointer ≤ 0 := by omega
  unfold TogReader.getTopLoop
  rw [hne, hat, hget, Option.bind_some]
  simp only [Bool.false_eq_true, if_false, if_neg hpos]
  cases hlast : (r.loopNodes.getD (depth - 1) []).getLast? with
  | none => simp
  | some l =>
      simp only [Except.ok.injEq, Option.some.injEq]
      constructor
      · rintro rfl
        exact ⟨l, rfl, rfl⟩
      · rintro ⟨l', rfl, rfl⟩
        rfl

/-! ## One node of each kind -/

variable {n : NodeProto}

/-- A node that is no loop end. -/
theorem Inside.registerTile (h : Inside r depth o) (hfresh : n.name ∉ r.tileVec)
    (hend : n.name.nodeClass ≠ .loopEndNode)
    (hinput : ∀ m ∈ n.input, m ∈ r.tileVec ++ [n.name]) :
    r.registerTile n = .ok (taken r n.name o n.input) := by
  rw [registerTile_eq h.top, if_neg hend]
  · rfl
  · intro _ m hm
    exact (h.toReading.entered hfresh h.owned fun heq => absurd heq hend).known (hinput m hm)

theorem readNode_leaf (h : Inside r depth o) (hfresh : n.name ∉ r.tileVec) {kind : LeafKind}
    (hclass : n.name.nodeClass = kind.nodeClass)
    (hinput : ∀ m ∈ n.input, m ∈ r.tileVec ++ [n.name]) :
    readNode r n = .ok (taken r n.name o n.input) := by
  have hend : n.name.nodeClass ≠ .loopEndNode := by
    rw [hclass]
    cases kind <;> decide
  rw [← h.registerTile hfresh hend hinput]
  unfold TogReader.readNode
  rw [hclass]
  cases kind <;> rfl

/-- The state in the body of a loop. -/
def opened (r : TogReader) (depth : ℕ) (name : NodeName) (o : Option ℕ) (input : List NodeName) :
    TogReader :=
  { taken r name o input with
    loopNodes := pushLoop r.loopNodes depth r.tileVec.length
    loopStackPointer := depth + 1 }

theorem readNode_loop (h : Inside r depth o) (hfresh : n.name ∉ r.tileVec)
    (hclass : n.name.nodeClass = .loopIndexNode)
    (hinput : ∀ m ∈ n.input, m ∈ r.tileVec ++ [n.name]) :
    readNode r n = .ok (opened r depth n.name o n.input) := by
  have hend : n.name.nodeClass ≠ .loopEndNode := by
    rw [hclass]
    decide
  have hpointer : (taken r n.name o n.input).loopStackPointer = depth := h.pointer
  have hregister : (taken r n.name o n.input).registerLoop r.tileVec.length =
      .ok { taken r n.name o n.input with
        loopNodes := pushLoop r.loopNodes depth r.tileVec.length } := by
    have hdepth : (taken r n.name o n.input).loopStackPointer.toNat = depth := by omega
    unfold TogReader.registerLoop
    rw [if_neg (by omega)]
    simp only [hdepth]
    rfl
  unfold TogReader.readNode
  rw [hclass]
  simp only [h.registerTile hfresh hend hinput, bind, Except.bind, pure, Except.pure]
  rw [hregister]
  simp only [hpointer]
  rfl

/-- The state behind a loop. -/
def closed (r : TogReader) (depth : ℕ) (name : NodeName) (o : Option ℕ) : TogReader :=
  { entered r name o with loopStackPointer := depth }

theorem readNode_end (h : Inside r (depth + 1) o) (hclass : n.name.nodeClass = .loopEndNode) :
    readNode r n = .ok (closed r depth n.name o) := by
  have hpointer : (entered r n.name o).loopStackPointer - 1 = depth := by
    have hdepth := h.pointer
    change r.loopStackPointer - 1 = depth
    omega
  have hregister : r.registerTile n = .ok (entered r n.name o) := by
    rw [registerTile_eq h.top fun hend => absurd hclass hend, if_pos hclass]
  unfold TogReader.readNode
  rw [hclass]
  simp only [hregister, bind, Except.bind, pure, Except.pure]
  rw [hpointer]
  rfl

end Between

end PyTorchSim.Analysis
