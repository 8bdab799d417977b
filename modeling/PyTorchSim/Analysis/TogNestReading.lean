import PyTorchSim.Analysis.TogReading

/-!
# Reading the nodes of a loop nest

The nodes of a nest are read in the order in which they are emitted.  A loop gets the nodes of its
body in their order and its loop end behind them, and it is noted at its depth.
-/

set_option autoImplicit false

namespace PyTorchSim.Analysis

open PyTorchSim.Model PyTorchSim.Library
open TogReader (linkParent readNode)

/-! ## The places of the nodes -/

namespace Nest

/-- The number of the nodes that are emitted. -/
def size : Nest → ℕ
  | nil => 0
  | leaf _ _ rest => 1 + rest.size
  | loop _ _ body rest => 1 + body.size + 1 + rest.size

/-- The places of the nodes of a body, which begins at `i`, without those inside of its loops. -/
def places (i : ℕ) : Nest → List ℕ
  | nil => []
  | leaf _ _ rest => i :: rest.places (i + 1)
  | loop _ _ body rest => i :: rest.places (i + 1 + body.size + 1)

/-- The places of the loops at the depth `e`, in a body at the depth `d`. -/
def loopPlaces (e d i : ℕ) : Nest → List ℕ
  | nil => []
  | leaf _ _ rest => rest.loopPlaces e d (i + 1)
  | loop _ _ body rest =>
    (if d = e then [i] else []) ++ body.loopPlaces e (d + 1) (i + 1) ++
      rest.loopPlaces e d (i + 1 + body.size + 1)

/-- The number of the loops around the innermost nodes. -/
def depth : Nest → ℕ
  | nil => 0
  | leaf _ _ rest => rest.depth
  | loop _ _ body rest => max (body.depth + 1) rest.depth

/-- Every loop has the nodes of its body and, behind them, its end. -/
def Bodies (bodyNode : ℕ → List ℕ) (i : ℕ) : Nest → Prop
  | nil => True
  | leaf _ _ rest => rest.Bodies bodyNode (i + 1)
  | loop _ _ body rest =>
    bodyNode i = body.places (i + 1) ++ [i + 1 + body.size] ∧ body.Bodies bodyNode (i + 1) ∧
      rest.Bodies bodyNode (i + 1 + body.size + 1)

/-- Every node belongs to the loop around it, and a loop end to its loop. -/
def Owners (ownerLoop : ℕ → Option ℕ) (o : Option ℕ) (i : ℕ) : Nest → Prop
  | nil => True
  | leaf _ _ rest => ownerLoop i = o ∧ rest.Owners ownerLoop o (i + 1)
  | loop _ _ body rest =>
    ownerLoop i = o ∧ body.Owners ownerLoop (some i) (i + 1) ∧
      ownerLoop (i + 1 + body.size) = some i ∧ rest.Owners ownerLoop o (i + 1 + body.size + 1)

/-- No node comes after a loop. -/
def LastLoop : Nest → Prop
  | nil => True
  | leaf _ _ rest => rest.LastLoop
  | loop _ _ _ rest => rest = nil

variable {nest : Nest}

@[simp]
theorem length_emit (c p : ℤ) (nest : Nest) : (nest.emit c p).length = nest.size := by
  induction nest generalizing c p with
  | nil => rfl
  | leaf id kind rest ih =>
    simp only [emit, size, List.length_cons, ih]
    omega
  | loop id loopIdx body rest ihb ihr =>
    simp only [emit, size, List.length_cons, List.length_append, ihb, ihr]
    omega

theorem loopPlaces_of_lt {e d : ℕ} (h : e < d) (i : ℕ) : nest.loopPlaces e d i = [] := by
  induction nest generalizing d i with
  | nil => rfl
  | leaf id kind rest ih => exact ih h _
  | loop id loopIdx body rest ihb ihr =>
    rw [loopPlaces, if_neg (by omega), ihb (by omega), ihr h]
    rfl

theorem Bodies.congr {f g : ℕ → List ℕ} {i : ℕ} (h : nest.Bodies f i)
    (heq : ∀ k, i ≤ k → k < i + nest.size → g k = f k) : nest.Bodies g i := by
  induction nest generalizing i with
  | nil => trivial
  | leaf id kind rest ih =>
    simp only [size] at heq
    exact ih h fun k hge hlt => heq k (by omega) (by omega)
  | loop id loopIdx body rest ihb ihr =>
    simp only [size] at heq
    obtain ⟨hloop, hbody, hrest⟩ := h
    refine ⟨?_, ihb hbody fun k hge hlt => heq k (by omega) (by omega),
      ihr hrest fun k hge hlt => heq k (by omega) (by omega)⟩
    rw [heq i (by omega) (by omega), hloop]

theorem Owners.congr {f g : ℕ → Option ℕ} {o : Option ℕ} {i : ℕ} (h : nest.Owners f o i)
    (heq : ∀ k, i ≤ k → k < i + nest.size → g k = f k) : nest.Owners g o i := by
  induction nest generalizing i o with
  | nil => trivial
  | leaf id kind rest ih =>
    simp only [size] at heq
    refine ⟨?_, ih h.2 fun k hge hlt => heq k (by omega) (by omega)⟩
    rw [heq i (by omega) (by omega), h.1]
  | loop id loopIdx body rest ihb ihr =>
    simp only [size] at heq
    obtain ⟨hloop, hbody, hend, hrest⟩ := h
    refine ⟨?_, ihb hbody fun k hge hlt => heq k (by omega) (by omega), ?_,
      ihr hrest fun k hge hlt => heq k (by omega) (by omega)⟩
    · rw [heq i (by omega) (by omega), hloop]
    · rw [heq _ (by omega) (by omega), hend]

end Nest

/-! ## What the nodes leave behind -/

variable {inp : TogNode → List NodeName}

/-- The links to a node from the nodes that begin at the place `i`. -/
def linksTo (inp : TogNode → List NodeName) (r : TogReader) (j : ℕ) : ℕ → List TogNode → List ℕ
  | _, [] => []
  | i, y :: ys =>
    (if y.nodeClass = .loopEndNode then []
      else ((inp y).filter fun m => standsFor r m = some j).map fun _ => i) ++
      linksTo inp r j (i + 1) ys

theorem linksTo_append (r : TogReader) (j i : ℕ) (xs ys : List TogNode) :
    linksTo inp r j i (xs ++ ys) = linksTo inp r j i xs ++ linksTo inp r j (i + xs.length) ys := by
  induction xs generalizing i with
  | nil => simp [linksTo]
  | cons x xs ih =>
    simp only [List.cons_append, linksTo, ih, List.length_cons, List.append_assoc]
    rw [show i + 1 + xs.length = i + (xs.length + 1) by omega]

/-- The inputs of each node are outputs of nodes before it, or its own one.  Loop ends are not asked
for. -/
def InputsKnown (inp : TogNode → List NodeName) : List NodeName → List TogNode → Prop
  | _, [] => True
  | known, y :: ys =>
    (y.nodeClass ≠ .loopEndNode → ∀ m ∈ inp y, m ∈ known ++ [y.name]) ∧
      InputsKnown inp (known ++ [y.name]) ys

theorem inputsKnown_append {known : List NodeName} {xs ys : List TogNode} :
    InputsKnown inp known (xs ++ ys) ↔
      InputsKnown inp known xs ∧ InputsKnown inp (known ++ xs.map TogNode.name) ys := by
  induction xs generalizing known with
  | nil => simp [InputsKnown]
  | cons x xs ih =>
    simp only [List.cons_append, InputsKnown, ih, List.map_cons, List.append_assoc,
      List.nil_append, and_assoc]

theorem linksTo_congr {r r' : TogReader} {known : List NodeName} {ys : List TogNode}
    (hknown : InputsKnown inp known ys)
    (h : ∀ m ∈ known ++ ys.map TogNode.name, standsFor r m = standsFor r' m) (j i : ℕ) :
    linksTo inp r j i ys = linksTo inp r' j i ys := by
  induction ys generalizing known i with
  | nil => rfl
  | cons y ys ih =>
    have hrest := ih hknown.2 (by simpa using h) (i + 1)
    simp only [linksTo, hrest]
    by_cases hend : y.nodeClass = .loopEndNode
    · simp [hend]
    · have hfilter : (inp y).filter (fun m => standsFor r m = some j) =
          (inp y).filter fun m => standsFor r' m = some j := by
        refine List.filter_congr fun m hm => ?_
        have hmem := hknown.1 hend m hm
        rw [h m (by simp only [List.map_cons, List.mem_append, List.mem_cons] at hmem ⊢; tauto)]
      rw [hfilter]

/-- The state `r'` is `r` and the nodes `ys`. -/
structure Extends (inp : TogNode → List NodeName) (r r' : TogReader) (ys : List TogNode) :
    Prop where
  tileVec : r'.tileVec = r.tileVec ++ ys.map TogNode.name
  owner : ∀ k < r.tileVec.length, r'.ownerLoop k = r.ownerLoop k
  child : ∀ j, r'.child j = r.child j ++ linksTo inp r' j r.tileVec.length ys

section Extends

variable {r r₁ r₂ : TogReader} {d d' : ℕ} {xs ys : List TogNode}

theorem Extends.refl (r : TogReader) : Extends inp r r [] where
  tileVec := (List.append_nil _).symm
  owner := fun _ _ => rfl
  child := fun _ => (List.append_nil _).symm

theorem Extends.length (h : Extends inp r r₁ xs) :
    r₁.tileVec.length = r.tileVec.length + xs.length := by
  rw [h.tileVec, List.length_append, List.length_map]

/-- What a name stands for does not change. -/
theorem Extends.standsFor (h : Extends inp r r₁ xs) (hr : Reading r d) (hr₁ : Reading r₁ d')
    {m : NodeName} (hm : m ∈ r.tileVec) : standsFor r₁ m = standsFor r m := by
  obtain ⟨k, hlt, hk⟩ := List.getElem_of_mem hm
  have hget : r.tileVec[k]? = some m := by rw [List.getElem?_eq_getElem hlt, hk]
  have hget₁ : r₁.tileVec[k]? = some m := by
    rw [h.tileVec, List.getElem?_append_left hlt, hget]
  unfold Analysis.standsFor
  rw [(hr.output m k).mpr hget, (hr₁.output m k).mpr hget₁]
  simp only [Option.bind_some, hget, hget₁, h.owner k hlt]

theorem Extends.trans (h : Extends inp r r₁ xs) (h' : Extends inp r₁ r₂ ys) (hr₁ : Reading r₁ d)
    (hr₂ : Reading r₂ d') (hknown : InputsKnown inp r.tileVec xs) :
    Extends inp r r₂ (xs ++ ys) where
  tileVec := by rw [h'.tileVec, h.tileVec, List.map_append, List.append_assoc]
  owner := by
    intro k hk
    have hlength := h.length
    rw [h'.owner k (by omega), h.owner k hk]
  child := by
    intro j
    have hstands : ∀ m ∈ r.tileVec ++ xs.map TogNode.name,
        Analysis.standsFor r₁ m = Analysis.standsFor r₂ m := by
      intro m hm
      rw [← h.tileVec] at hm
      exact (h'.standsFor hr₁ hr₂ hm).symm
    rw [h'.child, h.child, linksTo_congr hknown hstands, linksTo_append, h.length,
      List.append_assoc]

end Extends

/-- What a nest leaves behind in the loops. -/
structure Grown (r r' : TogReader) (depth : ℕ) (o : Option ℕ) (nest : Nest) : Prop where
  below : ∀ k < r.tileVec.length,
    r'.bodyNode k = r.bodyNode k ++ if o = some k then nest.places r.tileVec.length else []
  bodies : nest.Bodies r'.bodyNode r.tileVec.length
  owners : nest.Owners r'.ownerLoop o r.tileVec.length
  levels : ∀ e, r'.loopNodes.getD e [] =
    r.loopNodes.getD e [] ++ nest.loopPlaces e depth r.tileVec.length
  length : r'.loopNodes.length = max r.loopNodes.length (depth + nest.depth)

/-! ## The steps -/

section Steps

variable {r r₁ r' : TogReader} {depth : ℕ} {o : Option ℕ} {y : TogNode} {nest : Nest}

theorem length_taken (r : TogReader) (name : NodeName) (o : Option ℕ) (input : List NodeName) :
    (taken r name o input).tileVec.length = r.tileVec.length + 1 :=
  List.length_append

theorem Inside.taken (h : Inside r depth o) (hfresh : y.name ∉ r.tileVec)
    (hend : y.nodeClass ≠ .loopEndNode) (input : List NodeName) :
    Inside (taken r y.name o input) depth o where
  toReading := h.toReading.taken hfresh h.owned (fun heq => absurd heq hend) input
  top := h.top
  owned := by
    intro l hl
    have hlt := h.owned l hl
    rw [length_taken]
    omega

variable (inp) in
theorem extends_taken (r : TogReader) (o : Option ℕ) (hend : y.nodeClass ≠ .loopEndNode) :
    Extends inp r (taken r y.name o (inp y)) [y] where
  tileVec := rfl
  owner := fun k hk => Function.update_of_ne (by omega) _ _
  child := by
    intro j
    simp only [linksTo, if_neg hend, List.append_nil]
    rfl

theorem Inside.opened (h : Inside r depth o) (hfresh : y.name ∉ r.tileVec)
    (hend : y.nodeClass ≠ .loopEndNode) (input : List NodeName) :
    Inside (opened r depth y.name o input) (depth + 1) (some r.tileVec.length) := by
  have htaken := h.taken hfresh hend input
  have hreading : Reading (Analysis.opened r depth y.name o input) (depth + 1) := by
    refine ⟨htaken.output, htaken.ends, rfl, ?_, htaken.later⟩
    simp only [Analysis.opened, length_pushLoop]
    omega
  refine ⟨hreading, ?_, ?_⟩
  · rw [top_iff (Nat.succ_pos depth) hreading]
    refine ⟨_, rfl, ?_⟩
    simp only [Analysis.opened, Nat.succ_sub_one, getD_pushLoop, ↓reduceIte]
    exact List.getLast?_concat
  · intro l hl
    rw [← Option.mem_some.1 hl]
    change r.tileVec.length < (Analysis.taken r y.name o input).tileVec.length
    rw [length_taken]
    omega

variable (inp) in
theorem extends_opened (r : TogReader) (depth : ℕ) (o : Option ℕ)
    (hend : y.nodeClass ≠ .loopEndNode) :
    Extends inp r (opened r depth y.name o (inp y)) [y] := by
  have htaken := extends_taken inp r o hend
  exact ⟨htaken.tileVec, htaken.owner, htaken.child⟩

theorem Inside.closed {l : ℕ} (h : Inside r (depth + 1) (some l)) (hfresh : y.name ∉ r.tileVec) :
    Reading (closed r depth y.name (some l)) depth := by
  have hentered := h.toReading.entered hfresh h.owned fun _ => rfl
  have hlevels : depth + 1 ≤ r.loopNodes.length := h.levels
  refine ⟨hentered.output, hentered.ends, rfl, ?_, hentered.later⟩
  change depth ≤ r.loopNodes.length
  omega

variable (inp) in
theorem extends_closed (r : TogReader) (depth : ℕ) (o : Option ℕ)
    (hend : y.nodeClass = .loopEndNode) : Extends inp r (closed r depth y.name o) [y] where
  tileVec := rfl
  owner := fun k hk => Function.update_of_ne (by omega) _ _
  child := by
    intro j
    simp only [linksTo, if_pos hend, List.append_nil]
    rfl

/-- Inside of a loop the open loop is the same one after a nest. -/
theorem Grown.top (hg : Grown r r' depth o nest) (h : Inside r depth o) (h' : Reading r' depth)
    (hdepth : 0 < depth) : r'.getTopLoop = .ok o := by
  rw [top_iff hdepth h', hg.levels, Nest.loopPlaces_of_lt (by omega), List.append_nil]
  exact (top_iff hdepth h.toReading).mp h.top

/-- Behind a loop inside of another one. -/
theorem Inside.closedTop {l : ℕ} {input : List NodeName} {r₂ : TogReader} (h : Inside r depth o)
    (hdepth : 0 < depth)
    (hlevels : ∀ k, r₂.loopNodes.getD k [] =
      (Analysis.opened r depth y.name o input).loopNodes.getD k [] ++
        nest.loopPlaces k (depth + 1) (Analysis.opened r depth y.name o input).tileVec.length)
    {name : NodeName} (hclosed : Reading (Analysis.closed r₂ depth name (some l)) depth) :
    (Analysis.closed r₂ depth name (some l)).getTopLoop = .ok o := by
  rw [top_iff hdepth hclosed]
  obtain ⟨l', hl', hlast⟩ := (top_iff hdepth h.toReading).mp h.top
  refine ⟨l', hl', ?_⟩
  change (r₂.loopNodes.getD (depth - 1) []).getLast? = some l'
  rw [hlevels, Nest.loopPlaces_of_lt (by omega), List.append_nil]
  simp only [Analysis.opened, getD_pushLoop]
  rwa [if_neg (by omega), List.append_nil]

theorem Grown.nil (h : Reading r depth) : Grown r r depth o .nil where
  below := by
    intro k _
    simp [Nest.places]
  bodies := trivial
  owners := trivial
  levels := fun e => (List.append_nil _).symm
  length := by
    have hlevels := h.levels
    simp only [Nest.depth]
    omega

theorem Grown.leaf {id : ℤ} {kind : LeafKind} {rest : Nest} {input : List NodeName}
    (hg : Grown (taken r y.name o input) r' depth o rest)
    (howner : ∀ k < r.tileVec.length + 1, r'.ownerLoop k = (taken r y.name o input).ownerLoop k) :
    Grown r r' depth o (.leaf id kind rest) where
  below := by
    intro k hk
    rw [hg.below k (by rw [length_taken]; omega), length_taken]
    change (r.bodyNode k ++ if o = some k then _ else _) ++ _ = _
    split <;> simp [Nest.places]
  bodies := by
    have hbodies := hg.bodies
    rwa [length_taken] at hbodies
  owners := by
    have howners := hg.owners
    rw [length_taken] at howners
    refine ⟨?_, howners⟩
    rw [howner _ (Nat.lt_succ_self _)]
    exact Function.update_self _ _ _
  levels := by
    intro e
    have hlevels := hg.levels e
    rwa [length_taken] at hlevels
  length := hg.length

/-- A loop with its body and its end, and what comes behind it. -/
theorem Grown.loop {l e : TogNode} {r₂ : TogReader} {id : ℤ} {loopIdx : String} {body rest : Nest}
    {input : List NodeName} (h : Inside r depth o)
    (hbody : Grown (opened r depth l.name o input) r₂ (depth + 1) (some r.tileVec.length) body)
    (hrest : Grown (closed r₂ depth e.name (some r.tileVec.length)) r' depth o rest)
    (hlength : r₂.tileVec.length = r.tileVec.length + 1 + body.size)
    (howner₂ : ∀ k < r.tileVec.length + 1,
      r₂.ownerLoop k = (opened r depth l.name o input).ownerLoop k)
    (howner : ∀ k < r₂.tileVec.length + 1,
      r'.ownerLoop k = (closed r₂ depth e.name (some r.tileVec.length)).ownerLoop k) :
    Grown r r' depth o (.loop id loopIdx body rest) := by
  have hlength₁ : (opened r depth l.name o input).tileVec.length = r.tileVec.length + 1 :=
    length_taken r l.name o input
  have hlength₃ : (closed r₂ depth e.name (some r.tileVec.length)).tileVec.length =
      r.tileVec.length + 1 + body.size + 1 := by
    rw [← hlength]
    exact List.length_append
  have hother : ∀ k, r.tileVec.length ≤ k → o ≠ some k := by
    intro k hk heq
    have hlt := h.owned k heq
    omega
  -- the bodies after the loop, before what comes behind it
  have hclosed : ∀ k < r.tileVec.length + 1 + body.size + 1,
      r'.bodyNode k = (r₂.bodyNode k ++
        if some r.tileVec.length = some k then [r₂.tileVec.length] else []) ++
          if o = some k then rest.places (r.tileVec.length + 1 + body.size + 1) else [] := by
    intro k hk
    have hbelow := hrest.below k (by rw [hlength₃]; omega)
    rwa [hlength₃] at hbelow
  have hopened : ∀ k < r.tileVec.length + 1,
      r₂.bodyNode k = (r.bodyNode k ++ if o = some k then [r.tileVec.length] else []) ++
        if some r.tileVec.length = some k then body.places (r.tileVec.length + 1) else [] := by
    intro k hk
    have hbelow := hbody.below k (by rw [hlength₁]; omega)
    rwa [hlength₁] at hbelow
  have hbodies := hbody.bodies
  have howners := hbody.owners
  have hbodies' := hrest.bodies
  have howners' := hrest.owners
  rw [hlength₁] at hbodies howners
  rw [hlength₃] at hbodies' howners'
  constructor
  · intro k hk
    have hne : ¬ some r.tileVec.length = some k := by
      intro heq
      have hk' := Option.some.inj heq
      omega
    rw [hclosed k (by omega), hopened k (by omega), if_neg hne, if_neg hne]
    split <;> simp [Nest.places]
  · refine ⟨?_, hbodies.congr fun k hge hlt => ?_, hbodies'⟩
    · rw [hclosed _ (by omega), hopened _ (by omega), if_neg (hother _ le_rfl),
        if_neg (hother _ le_rfl), if_pos rfl, if_pos rfl, h.later _ le_rfl, hlength]
      simp
    · have hne : ¬ some r.tileVec.length = some k := by
        intro heq
        have hk' := Option.some.inj heq
        omega
      rw [hclosed k (by omega), if_neg hne, if_neg (hother k (by omega)), List.append_nil,
        List.append_nil]
  · refine ⟨?_, howners.congr fun k hge hlt => ?_, ?_, howners'⟩
    · rw [howner _ (by omega)]
      change Function.update r₂.ownerLoop _ _ _ = _
      rw [Function.update_of_ne (by omega), howner₂ _ (Nat.lt_succ_self _)]
      exact Function.update_self _ _ _
    · rw [howner k (by omega)]
      exact Function.update_of_ne (by omega) _ _
    · rw [← hlength, howner _ (Nat.lt_succ_self _)]
      exact Function.update_self _ _ _
  · intro k
    have hlevels : r₂.loopNodes.getD k [] =
        (r.loopNodes.getD k [] ++ if depth = k then [r.tileVec.length] else []) ++
          body.loopPlaces k (depth + 1) (r.tileVec.length + 1) := by
      rw [← getD_pushLoop, ← hlength₁]
      exact hbody.levels k
    have hlevels' : r'.loopNodes.getD k [] = r₂.loopNodes.getD k [] ++
        rest.loopPlaces k depth (r.tileVec.length + 1 + body.size + 1) := by
      rw [← hlength₃]
      exact hrest.levels k
    rw [hlevels', hlevels, Nest.loopPlaces]
    simp only [List.append_assoc]
  · have hlen : r₂.loopNodes.length =
        max (max r.loopNodes.length (depth + 1)) (depth + 1 + body.depth) := by
      rw [← length_pushLoop r.loopNodes depth r.tileVec.length]
      exact hbody.length
    have hlen' : r'.loopNodes.length = max r₂.loopNodes.length (depth + rest.depth) :=
      hrest.length
    rw [hlen', hlen, Nest.depth]
    omega

end Steps

/-! ## A nest -/

/-- A node with the inputs that `inp` gives it. -/
def protoOf (inp : TogNode → List NodeName) (y : TogNode) : NodeProto := ⟨y.name, inp y⟩

/-- **Reading a nest**, which is inside of a loop or has no node after a loop. -/
theorem read_nest {r : TogReader} {depth : ℕ} {o : Option ℕ} {c p : ℤ} {nest : Nest}
    (h : Inside r depth o) (hlast : 0 < depth ∨ nest.LastLoop)
    (hnodup : (r.tileVec ++ (nest.emit c p).map TogNode.name).Nodup)
    (hknown : InputsKnown inp r.tileVec (nest.emit c p)) :
    ∃ r', ((nest.emit c p).map (protoOf inp)).foldlM readNode r = .ok r' ∧ Reading r' depth ∧
      Extends inp r r' (nest.emit c p) ∧ Grown r r' depth o nest := by
  induction nest generalizing r depth o c p with
  | nil =>
    exact ⟨r, rfl, h.toReading, .refl r, Grown.nil h.toReading⟩
  | leaf id kind rest ih =>
    set y := leafNode id kind p with hy
    have hend : y.nodeClass ≠ .loopEndNode := by
      change kind.nodeClass ≠ _
      cases kind <;> decide
    rw [Nest.emit] at hnodup hknown ⊢
    obtain ⟨hinput, hknown⟩ := hknown
    have hfresh : y.name ∉ r.tileVec := by
      intro hmem
      rw [List.nodup_append] at hnodup
      exact hnodup.2.2 _ hmem _ List.mem_cons_self rfl
    have hread : readNode r (protoOf inp y) = .ok (taken r y.name o (inp y)) :=
      readNode_leaf h hfresh (show y.nodeClass = kind.nodeClass from rfl) (hinput hend)
    have hinside := h.taken hfresh hend (inp y)
    have hextends := extends_taken inp r o hend
    obtain ⟨r', hrun, hreading, hrest, hgrown⟩ := ih hinside hlast
      (by simpa [hextends.tileVec] using hnodup) (by simpa [hextends.tileVec] using hknown)
    refine ⟨r', ?_, hreading, ?_, hgrown.leaf ?_⟩
    · rw [List.map_cons, List.foldlM_cons, hread]
      exact hrun
    · exact hextends.trans hrest hinside.toReading hreading ⟨hinput, trivial⟩
    · rw [← length_taken r y.name o (inp y)]
      exact hrest.owner
  | loop id loopIdx body rest ihb ihr =>
    rw [Nest.emit] at hnodup hknown ⊢
    have hl : (loopNode id loopIdx p).nodeClass = .loopIndexNode := rfl
    have he : (endNode c loopIdx p).nodeClass = .loopEndNode := rfl
    generalize loopNode id loopIdx p = l at *
    generalize endNode c loopIdx p = e at *
    have hend : l.nodeClass ≠ .loopEndNode := by
      rw [hl]
      decide
    obtain ⟨hinput, hknown⟩ := hknown
    obtain ⟨hknown₂, hinputEnd, hknown₃⟩ := inputsKnown_append.mp hknown
    simp only [List.map_cons, List.map_append] at hnodup
    have hfresh : l.name ∉ r.tileVec := by
      intro hmem
      rw [List.nodup_append] at hnodup
      exact hnodup.2.2 _ hmem _ List.mem_cons_self rfl
    have hread : readNode r (protoOf inp l) = .ok (opened r depth l.name o (inp l)) :=
      readNode_loop h hfresh hl (hinput hend)
    have hinside := h.opened hfresh hend (inp l)
    have hextends := extends_opened inp r depth o hend
    -- the body
    obtain ⟨r₂, hrun₂, hreading₂, hextends₂, hgrown₂⟩ := ihb (c := c + 1) (p := id) hinside
      (.inl (Nat.succ_pos depth)) (by
        rw [hextends.tileVec]
        refine hnodup.sublist ?_
        simp) (by rwa [hextends.tileVec])
    have htile₂ : r₂.tileVec =
        r.tileVec ++ [l.name] ++ (body.emit (c + 1) id).map TogNode.name := by
      rw [hextends₂.tileVec, hextends.tileVec]
      rfl
    have hlength₂ : r₂.tileVec.length = r.tileVec.length + 1 + body.size := by
      rw [hextends₂.length, hextends.length, Nest.length_emit]
      rfl
    have hinside₂ : Inside r₂ (depth + 1) (some r.tileVec.length) := by
      refine ⟨hreading₂, hgrown₂.top hinside hreading₂ (Nat.succ_pos depth), fun l' hl' => ?_⟩
      rw [← Option.mem_some.1 hl']
      omega
    have hnodup₂ : (r₂.tileVec ++
        e.name :: (rest.emit (c + 1 + body.loops) p).map TogNode.name).Nodup := by
      rw [htile₂]
      simpa using hnodup
    have hfreshEnd : e.name ∉ r₂.tileVec := by
      intro hmem
      rw [List.nodup_append] at hnodup₂
      exact hnodup₂.2.2 _ hmem _ List.mem_cons_self rfl
    have hreadEnd : readNode r₂ (protoOf inp e) =
        .ok (closed r₂ depth e.name (some r.tileVec.length)) := readNode_end hinside₂ he
    have hreading₃ := hinside₂.closed hfreshEnd
    have htop₃ := fun hdepth => Inside.closedTop h hdepth hgrown₂.levels hreading₃
    have hextends₃ := extends_closed inp r₂ depth (some r.tileVec.length) he
    have hlength₃ := hextends₃.length
    generalize hr₃ : closed r₂ depth e.name (some r.tileVec.length) = r₃ at *
    -- what comes behind the loop
    obtain ⟨r', hrun', hreading', hextends', hgrown'⟩ : ∃ r',
        ((rest.emit (c + 1 + body.loops) p).map (protoOf inp)).foldlM readNode r₃ = .ok r' ∧
          Reading r' depth ∧ Extends inp r₃ r' (rest.emit (c + 1 + body.loops) p) ∧
            Grown r₃ r' depth o rest := by
      rcases hlast with hdepth | rfl
      · refine ihr ⟨hreading₃, htop₃ hdepth, fun l' hl' => ?_⟩ (.inl hdepth) ?_ ?_
        · have hlt := h.owned l' hl'
          omega
        · rw [hextends₃.tileVec]
          simpa using hnodup₂
        · rw [hextends₃.tileVec, htile₂]
          exact hknown₃
      · exact ⟨r₃, rfl, hreading₃, .refl r₃, Grown.nil hreading₃⟩
    refine ⟨r', ?_, hreading', ?_, ?_⟩
    · rw [List.map_cons, List.foldlM_cons, hread]
      change List.foldlM readNode _ (List.map (protoOf inp) (_ ++ e :: _)) = _
      rw [List.map_append, List.foldlM_append, hrun₂, List.map_cons]
      change List.foldlM readNode r₂ (protoOf inp e :: _) = _
      rw [List.foldlM_cons, hreadEnd]
      exact hrun'
    · have hbehind := hextends₃.trans hextends' hreading₃ hreading'
        ⟨fun hne => absurd he hne, trivial⟩
      have hinner := hextends₂.trans hbehind hreading₂ hreading' (by rwa [hextends.tileVec])
      exact hextends.trans hinner hinside.toReading hreading' ⟨hinput, trivial⟩
    · subst hr₃
      refine Grown.loop h hgrown₂ hgrown' hlength₂ ?_ ?_
      · intro k hk
        exact hextends₂.owner k (by rwa [hextends.length])
      · intro k hk
        exact hextends'.owner k (by rwa [hlength₃])

/-! ## Files that stop the parser -/

section Stops

variable {r r' : TogReader} {n : NodeProto} {i : ℕ}

theorem outputMap_foldlM_linkParent {input : List NodeName}
    (h : input.foldlM (linkParent i) r = .ok r') :
    r'.outputMap = r.outputMap ∧ r'.loopNodes = r.loopNodes ∧
      r'.loopStackPointer = r.loopStackPointer ∧ ∀ m ∈ input, (r.outputMap m).isSome := by
  induction input generalizing r with
  | nil =>
    cases h
    exact ⟨rfl, rfl, rfl, fun m hm => absurd hm List.not_mem_nil⟩
  | cons m input ih =>
    rw [List.foldlM_cons] at h
    obtain ⟨r₁, hstep, h⟩ := bind_eq_ok.mp h
    obtain ⟨houtput, hloops, hpointer, hinput⟩ := ih h
    have hsame : r₁.outputMap = r.outputMap ∧ r₁.loopNodes = r.loopNodes ∧
        r₁.loopStackPointer = r.loopStackPointer ∧ (r.outputMap m).isSome := by
      unfold linkParent at hstep
      split at hstep
      · cases hstep
      · next p hp =>
        rw [hp]
        split at hstep
        · split at hstep
          · cases hstep
          · cases hstep
            exact ⟨rfl, rfl, rfl, rfl⟩
        · cases hstep
          exact ⟨rfl, rfl, rfl, rfl⟩
        · cases hstep
          exact ⟨rfl, rfl, rfl, rfl⟩
    refine ⟨houtput.trans hsame.1, hloops.trans hsame.2.1, hpointer.trans hsame.2.2.1, ?_⟩
    intro m' hm'
    rcases List.mem_cons.1 hm' with rfl | hm'
    · exact hsame.2.2.2
    · rw [← hsame.1]
      exact hinput m' hm'

theorem registerTile_ok (h : r.registerTile n = .ok r') :
    (r.loopNodes ≠ [] → 0 < r.loopStackPointer) ∧
      r'.outputMap = Function.update r.outputMap n.name (some r.tileVec.length) ∧
      r'.loopNodes = r.loopNodes ∧ r'.loopStackPointer = r.loopStackPointer ∧
      (n.name.nodeClass ≠ .loopEndNode → ∀ m ∈ n.input, (r'.outputMap m).isSome) := by
  unfold TogReader.registerTile at h
  obtain ⟨o, htop, h⟩ := bind_eq_ok.mp h
  have hopen : r.loopNodes ≠ [] → 0 < r.loopStackPointer := by
    intro hne
    unfold TogReader.getTopLoop at htop
    rw [if_neg (by simpa using hne)] at htop
    split at htop
    · cases htop
    · omega
  refine ⟨hopen, ?_⟩
  simp only [addBody_eq] at h
  split at h
  · next hend =>
    cases h
    exact ⟨rfl, rfl, rfl, fun hne => absurd hend hne⟩
  · obtain ⟨houtput, hloops, hpointer, hinput⟩ := outputMap_foldlM_linkParent h
    refine ⟨houtput, hloops, hpointer, fun _ m hm => ?_⟩
    rw [houtput]
    exact hinput m hm

/-- What a node adds to the depth. -/
def depthStep (m : NodeName) : ℤ :=
  match m.nodeClass with
  | .loopIndexNode => 1
  | .loopEndNode => -1
  | _ => 0

/-- What a node that is read does. -/
structure ReadOk (r r' : TogReader) (n : NodeProto) : Prop where
  inLoop : r.loopNodes ≠ [] → 0 < r.loopStackPointer
  output : r'.outputMap = Function.update r.outputMap n.name (some r.tileVec.length)
  pointer : r'.loopStackPointer = r.loopStackPointer + depthStep n.name
  loops : n.name.nodeClass = .loopIndexNode ∨ r.loopNodes ≠ [] → r'.loopNodes ≠ []
  input : n.name.nodeClass ≠ .loopEndNode → ∀ m ∈ n.input, (r'.outputMap m).isSome

theorem readNode_ok (h : readNode r n = .ok r') : ReadOk r r' n := by
  unfold TogReader.readNode at h
  have hplain : n.name.nodeClass ≠ .loopIndexNode → n.name.nodeClass ≠ .loopEndNode →
      r.registerTile n = .ok r' → ReadOk r r' n := by
    intro hloop hend hregister
    obtain ⟨hopen, houtput, hloops, hpointer, hinput⟩ := registerTile_ok hregister
    have hstep : depthStep n.name = 0 := by
      unfold depthStep
      split <;> trivial
    refine ⟨hopen, houtput, by rw [hpointer, hstep, add_zero], fun hor => ?_, hinput⟩
    rw [hloops]
    exact hor.resolve_left hloop
  split at h
  · cases h
  · next hclass =>
    obtain ⟨r₁, hregister, h⟩ := bind_eq_ok.mp h
    obtain ⟨r₂, hloop, h⟩ := bind_eq_ok.mp h
    cases h
    obtain ⟨hopen, houtput, hloops, hpointer, hinput⟩ := registerTile_ok hregister
    unfold TogReader.registerLoop at hloop
    split at hloop
    · cases hloop
    · cases hloop
      refine ⟨hopen, houtput, ?_, fun _ => ?_, hinput⟩
      · simp only [hpointer, depthStep, hclass]
      · have hlength := length_pushLoop r₁.loopNodes r₁.loopStackPointer.toNat r.tileVec.length
        rw [ne_eq, ← List.length_eq_zero_iff]
        change (pushLoop r₁.loopNodes r₁.loopStackPointer.toNat r.tileVec.length).length ≠ 0
        omega
  · next hclass =>
    obtain ⟨r₁, hregister, h⟩ := bind_eq_ok.mp h
    cases h
    obtain ⟨hopen, houtput, hloops, hpointer, hinput⟩ := registerTile_ok hregister
    refine ⟨hopen, houtput, ?_, fun hor => ?_, hinput⟩
    · simp only [hpointer, depthStep, hclass]
      rfl
    · rw [hclass] at hor
      simp only [hloops]
      exact hor.resolve_left (by decide)
  · next hnode hloop hend => exact hplain hloop hend h

theorem inputsKnown_of_read {known : List NodeName} {ys : List TogNode}
    (hread : (ys.map (protoOf inp)).foldlM readNode r = .ok r')
    (hknown : ∀ m, (r.outputMap m).isSome → m ∈ known) : InputsKnown inp known ys := by
  induction ys generalizing r known with
  | nil => trivial
  | cons y ys ih =>
    rw [List.map_cons, List.foldlM_cons] at hread
    obtain ⟨r₁, hstep, hread⟩ := bind_eq_ok.mp hread
    have hok := readNode_ok hstep
    have hknown₁ : ∀ m, (r₁.outputMap m).isSome → m ∈ known ++ [y.name] := by
      intro m hm
      have houtput : r₁.outputMap =
          Function.update r.outputMap y.name (some r.tileVec.length) := hok.output
      rw [houtput] at hm
      by_cases hname : m = y.name
      · simp [hname]
      · rw [Function.update_of_ne hname] at hm
        exact List.mem_append_left _ (hknown m hm)
    exact ⟨fun hend m hm => hknown₁ m (hok.input hend m hm), ih hread hknown₁⟩

/-- A nest leaves the depth as it is. -/
theorem pointer_of_read {nest : Nest} {c p : ℤ}
    (hread : ((nest.emit c p).map (protoOf inp)).foldlM readNode r = .ok r') :
    r'.loopStackPointer = r.loopStackPointer ∧ (r.loopNodes ≠ [] → r'.loopNodes ≠ []) := by
  induction nest generalizing r r' c p with
  | nil =>
    cases hread
    exact ⟨rfl, id⟩
  | leaf id kind rest ih =>
    rw [Nest.emit, List.map_cons, List.foldlM_cons] at hread
    obtain ⟨r₁, hstep, hread⟩ := bind_eq_ok.mp hread
    have hok := readNode_ok hstep
    obtain ⟨hpointer, hloops⟩ := ih hread
    have hzero : depthStep (leafNode id kind p).name = 0 := by cases kind <;> rfl
    have hpointer₁ : r₁.loopStackPointer = r.loopStackPointer + 0 := hzero ▸ hok.pointer
    exact ⟨by omega, fun hne => hloops (hok.loops (.inr hne))⟩
  | loop id loopIdx body rest ihb ihr =>
    rw [Nest.emit, List.map_cons, List.foldlM_cons] at hread
    obtain ⟨r₁, hstep, hread⟩ := bind_eq_ok.mp hread
    rw [List.map_append, List.foldlM_append] at hread
    obtain ⟨r₂, hbody, hread⟩ := bind_eq_ok.mp hread
    rw [List.map_cons, List.foldlM_cons] at hread
    obtain ⟨r₃, hend, hread⟩ := bind_eq_ok.mp hread
    have hok := readNode_ok hstep
    have hok₃ := readNode_ok hend
    obtain ⟨hpointer₂, hloops₂⟩ := ihb hbody
    obtain ⟨hpointer, hloops⟩ := ihr hread
    have hpointer₁ : r₁.loopStackPointer = r.loopStackPointer + 1 := hok.pointer
    have hpointer₃ : r₃.loopStackPointer = r₂.loopStackPointer + -1 := hok₃.pointer
    refine ⟨by omega, fun _ => hloops (hok₃.loops (.inr (hloops₂ (hok.loops (.inl rfl)))))⟩

/-- Behind a loop at depth 0 nothing is read. -/
theorem lastLoop_of_read {nest : Nest} {c p : ℤ}
    (hread : ((nest.emit c p).map (protoOf inp)).foldlM readNode r = .ok r')
    (hpointer : r.loopStackPointer = 0) : nest.LastLoop := by
  induction nest generalizing r c p with
  | nil => trivial
  | leaf id kind rest ih =>
    rw [Nest.emit, List.map_cons, List.foldlM_cons] at hread
    obtain ⟨r₁, hstep, hread⟩ := bind_eq_ok.mp hread
    have hzero : depthStep (leafNode id kind p).name = 0 := by cases kind <;> rfl
    have hpointer₁ : r₁.loopStackPointer = r.loopStackPointer + 0 :=
      hzero ▸ (readNode_ok hstep).pointer
    exact ih hread (by omega)
  | loop id loopIdx body rest =>
    rw [Nest.emit, List.map_cons, List.foldlM_cons] at hread
    obtain ⟨r₁, hstep, hread⟩ := bind_eq_ok.mp hread
    rw [List.map_append, List.foldlM_append] at hread
    obtain ⟨r₂, hbody, hread⟩ := bind_eq_ok.mp hread
    rw [List.map_cons, List.foldlM_cons] at hread
    obtain ⟨r₃, hend, hread⟩ := bind_eq_ok.mp hread
    have hok := readNode_ok hstep
    have hok₃ := readNode_ok hend
    obtain ⟨hpointer₂, hloops₂⟩ := pointer_of_read hbody
    have hpointer₁ : r₁.loopStackPointer = r.loopStackPointer + 1 := hok.pointer
    have hpointer₃ : r₃.loopStackPointer = r₂.loopStackPointer + -1 := hok₃.pointer
    have hloops₃ := hok₃.loops (.inr (hloops₂ (hok.loops (.inl rfl))))
    -- the next node would ask for the loop at depth -1
    have hstop : ∀ {n : NodeProto} {ns : List NodeProto},
        (n :: ns).foldlM readNode r₃ ≠ .ok r' := by
      intro n ns hnext
      rw [List.foldlM_cons] at hnext
      obtain ⟨r₄, hnext, -⟩ := bind_eq_ok.mp hnext
      have hpositive := (readNode_ok hnext).inLoop hloops₃
      omega
    cases rest with
    | nil => rfl
    | leaf id' kind rest => exact absurd hread hstop
    | loop id' loopIdx' body' rest => exact absurd hread hstop

end Stops

/-! ## A whole file -/

theorem Inside.init : Inside {} 0 none where
  output := by
    intro m k
    simp
  ends := by
    intro k m hk
    simp at hk
  pointer := rfl
  levels := le_rfl
  later := fun _ _ => rfl
  top := rfl
  owned := nofun

/-- **The files of nests that are read**: the inputs are known, and no node comes after a loop that
is in no other one. -/
theorem read_iff {c p : ℤ} {nest : Nest} (hnodup : ((nest.emit c p).map TogNode.name).Nodup) :
    (∃ r, TogReader.read ((nest.emit c p).map (protoOf inp)) = .ok r) ↔
      InputsKnown inp [] (nest.emit c p) ∧ nest.LastLoop := by
  constructor
  · rintro ⟨r, hr⟩
    exact ⟨inputsKnown_of_read hr (by simp), lastLoop_of_read hr rfl⟩
  · rintro ⟨hknown, hlast⟩
    obtain ⟨r, hr, -⟩ := read_nest Inside.init (.inr hlast) hnodup hknown
    exact ⟨r, hr⟩

end PyTorchSim.Analysis
