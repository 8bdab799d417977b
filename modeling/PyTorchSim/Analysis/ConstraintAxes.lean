import PyTorchSim.Analysis.DimDividers

/-!
# The axes of the constraints

The constraint sets are paired with the axes in the order in which their keys were found, so a
constraint reaches the axis of its dimension only where the order does not matter: all constraints
are of one size, and they are on the first axes.
-/

set_option autoImplicit false

namespace PyTorchSim.Analysis

open PyTorchSim.Frontend PyTorchSim.Library

variable {implicitOps implicitOps' : List ReadOperand} {dimDividers : DimDividers}
  {T : MLIRMultiDimTile} {exprs exprs' : List ModularExpr} {dividers dividers' ranges : List ℕ}
  {base : IndexBase} {m d : ℕ}

/-! ## The least divider -/

theorem leastDivider_eq_some : leastDivider dividers = some m ↔
    m ∈ dividers ∧ m ≠ 1 ∧ ∀ d ∈ dividers, d ≠ 1 → m ≤ d := by
  unfold leastDivider
  rw [List.min?_eq_some_iff]
  simp only [List.mem_filter, decide_eq_true_eq, and_assoc, and_imp]

theorem leastDivider_eq_none : leastDivider dividers = none ↔ ∀ d ∈ dividers, d = 1 := by
  unfold leastDivider
  rw [List.min?_eq_none_iff, List.filter_eq_nil_iff]
  simp

/-- The order of the dividers does not matter, nor how often one is there. -/
theorem leastDivider_congr (h : ∀ d, d ∈ dividers ↔ d ∈ dividers') :
    leastDivider dividers = leastDivider dividers' := by
  apply Option.ext
  intro m
  rw [leastDivider_eq_some, leastDivider_eq_some]
  simp only [h]

/-- The least divider of the terms that the test selects. -/
def leastOf (exprs : List ModularExpr) (select : ModularExpr → Prop) [DecidablePred select] :
    Option ℕ :=
  leastDivider ((exprs.filter select).map ModularExpr.divisor)

section LeastOf

variable {select select' : ModularExpr → Prop} [DecidablePred select] [DecidablePred select']

theorem mem_divisors : d ∈ (exprs.filter select).map ModularExpr.divisor ↔
    ∃ expr ∈ exprs, select expr ∧ expr.divisor = d := by
  simp only [List.mem_map, List.mem_filter, decide_eq_true_eq, and_assoc]

theorem leastOf_perm (h : exprs.Perm exprs') : leastOf exprs select = leastOf exprs' select := by
  apply leastDivider_congr
  intro d
  simp only [mem_divisors, h.mem_iff]

theorem leastOf_eq_some : leastOf exprs select = some m ↔
    (∃ expr ∈ exprs, select expr ∧ expr.divisor = m) ∧ m ≠ 1 ∧
      ∀ expr ∈ exprs, select expr → expr.divisor ≠ 1 → m ≤ expr.divisor := by
  unfold leastOf
  simp only [leastDivider_eq_some, mem_divisors]
  constructor
  · rintro ⟨hmem, hne, hle⟩
    exact ⟨hmem, hne, fun expr hexpr hselect => hle _ ⟨expr, hexpr, hselect, rfl⟩⟩
  · rintro ⟨hmem, hne, hle⟩
    refine ⟨hmem, hne, ?_⟩
    rintro d ⟨expr, hexpr, hselect, rfl⟩
    exact hle expr hexpr hselect

theorem leastOf_eq_none : leastOf exprs select = none ↔
    ∀ expr ∈ exprs, select expr → expr.divisor = 1 := by
  unfold leastOf
  simp only [leastDivider_eq_none, mem_divisors]
  constructor
  · intro h expr hexpr hselect
    exact h _ ⟨expr, hexpr, hselect, rfl⟩
  · rintro h d ⟨expr, hexpr, hselect, rfl⟩
    exact h expr hexpr hselect

end LeastOf

/-- The least divider other than one of the terms that divide the expression. -/
abbrev leastAt (exprs : List ModularExpr) (base : IndexBase) : Option ℕ :=
  leastOf exprs fun expr => expr.base = base

/-- The least divider other than one of the terms on the index of the dimension. -/
abbrev neededDivider (implicitOps : List ReadOperand) (d : ℕ) : Option ℕ :=
  leastOf (discovered implicitOps) fun expr => expr.base.dim = d

/-- The constraint set of a key has the divider of the terms that divide the key. -/
theorem Collected.leastDivider_eq (h : Collected exprs dimDividers)
    {item : IndexBase × List ModularExpr}
    (hitem : item ∈ dimDividers) :
    leastDivider (item.2.map ModularExpr.divisor) = leastAt exprs item.1 := by
  apply leastDivider_congr
  intro d
  rw [mem_divisors, List.mem_map]
  simp only [h.mem_set item hitem, and_assoc]

/-! ## Other orders of the terms -/

/-- The operands in another order, each with its terms in another order. -/
def Reordered (implicitOps implicitOps' : List ReadOperand) : Prop :=
  ∃ mid : List ReadOperand, implicitOps.Perm mid ∧
    List.Forall₂ (fun operand operand' => operand.args.Perm operand'.args ∧
      operand'.ranges = operand.ranges) mid implicitOps'

theorem Reordered.refl (implicitOps : List ReadOperand) : Reordered implicitOps implicitOps := by
  refine ⟨implicitOps, List.Perm.refl _, ?_⟩
  rw [List.forall₂_same]
  intro operand _
  exact ⟨List.Perm.refl _, rfl⟩

theorem Reordered.discovered_perm (h : Reordered implicitOps implicitOps') :
    (discovered implicitOps).Perm (discovered implicitOps') := by
  obtain ⟨mid, hperm, hmid⟩ := h
  apply (hperm.flatMap_right _).trans
  clear hperm
  induction hmid with
  | nil => exact List.Perm.refl _
  | cons hoperand _ ih =>
    rw [List.flatMap_cons, PyTorchSim.Analysis.discovered, List.flatMap_cons, hoperand.2]
    exact (hoperand.1.filterMap _).append ih

theorem Reordered.extractable (h : Reordered implicitOps implicitOps')
    (hops : Extractable implicitOps) : Extractable implicitOps' := by
  obtain ⟨mid, hperm, hmid⟩ := h
  have hmids : Extractable mid := fun operand hoperand => hops operand (hperm.mem_iff.2 hoperand)
  clear hperm
  induction hmid with
  | nil => exact hmids
  | cons hoperand _ ih =>
    intro operand hmem arg harg
    rcases List.mem_cons.1 hmem with rfl | hrest
    · rw [hoperand.2]
      exact hmids _ List.mem_cons_self arg (hoperand.1.mem_iff.2 harg)
    · exact ih
        (fun other hother => hmids other (List.mem_cons_of_mem _ hother)) operand hrest arg harg

/-- The expressions that are divided, in the order of the dictionary. -/
def dividedKeys (implicitOps : List ReadOperand) : List IndexBase :=
  ((discovered implicitOps).foldl addDivider []).map Prod.fst

/-- The constraint sets, in the order of the dictionary. -/
def constraintSets (implicitOps : List ReadOperand) : List (List ℕ) :=
  ((discovered implicitOps).foldl addDivider []).map fun item => item.2.map ModularExpr.divisor

/-- The number of the expressions that are divided. -/
def numDivided (implicitOps : List ReadOperand) : ℕ :=
  ((discovered implicitOps).map ModularExpr.base).dedup.length

theorem mem_dividedKeys : base ∈ dividedKeys implicitOps ↔
    base ∈ (discovered implicitOps).map ModularExpr.base :=
  (collected_discovered _).mem_keys base

theorem length_dividedKeys (implicitOps : List ReadOperand) :
    (dividedKeys implicitOps).length = numDivided implicitOps := by
  unfold dividedKeys numDivided
  rw [List.length_map, (collected_discovered _).length_eq]

theorem map_leastDivider_constraintSets (implicitOps : List ReadOperand) :
    (constraintSets implicitOps).map leastDivider =
      (dividedKeys implicitOps).map (leastAt (discovered implicitOps)) := by
  unfold constraintSets dividedKeys
  rw [List.map_map, List.map_map]
  apply List.map_congr_left
  intro item hitem
  exact (collected_discovered _).leastDivider_eq hitem

theorem bind_getElem? {α β : Type*} (f : α → Option β) (xs : List α) (i : ℕ) :
    xs[i]?.bind f = (xs.map f)[i]?.join := by
  rw [List.getElem?_map]
  cases xs[i]? with
  | none => rfl
  | some x => rfl

theorem applyImplicitDims_eq (hops : Extractable implicitOps) :
    applyImplicitDims T implicitOps ranges =
      .ok (T.applyConstraints (constraintSets implicitOps) ranges) := by
  rw [applyImplicitDims, extractDividers_eq hops]
  rfl

/-! ## When the constraints reach their axes -/

/-- A tile with an axis for every range and no fixed axis. -/
structure FreeTile (T : MLIRMultiDimTile) (ranges : List ℕ) : Prop where
  constrained : Constrained T T.tileSize.length
  ranges_le : ranges.length ≤ T.tileSize.length
  free : ∀ axis, (constraintAt T axis).fixed = false

/-- Whatever the order of the operands and of their terms, each axis gets the least divider other
than one of the terms on its index, and keeps its size without such a term. -/
def ConstraintsReachAxes (implicitOps : List ReadOperand) (ranges : List ℕ) : Prop :=
  ∀ T, FreeTile T ranges → ∃ T',
    (∀ implicitOps', Reordered implicitOps implicitOps' →
      applyImplicitDims T implicitOps' ranges = .ok T') ∧
    ∀ d < ranges.length,
      entry T'.tileSize d = (neededDivider implicitOps d).getD (entry T.tileSize d) ∧
        ((neededDivider implicitOps d).isSome → (constraintAt T' d).fixed = true)

/-- The expressions that are divided all have the same least divider, and where it is not one, the
axes with a divided index are the first ones, as many as there are divided expressions. -/
def SameConstraints (implicitOps : List ReadOperand) (nr : ℕ) : Prop :=
  nr = 0 ∨ ∃ least : Option ℕ,
    (∀ expr ∈ discovered implicitOps, leastAt (discovered implicitOps) expr.base = least) ∧
      (least.isSome → ∀ d < nr,
        (∃ expr ∈ discovered implicitOps, expr.base.dim = d) ↔ d < numDivided implicitOps)

section Alike

variable {least : Option ℕ}
  (hleast : ∀ expr ∈ discovered implicitOps, leastAt (discovered implicitOps) expr.base = least)
include hleast

theorem map_leastDivider_of_alike :
    (constraintSets implicitOps).map leastDivider = List.replicate
    (numDivided implicitOps) least := by
  rw [map_leastDivider_constraintSets, List.eq_replicate_iff]
  constructor
  · rw [List.length_map, length_dividedKeys]
  · intro value hvalue
    obtain ⟨base, hbase, rfl⟩ := List.mem_map.1 hvalue
    obtain ⟨expr, hexpr, rfl⟩ := List.mem_map.1 (mem_dividedKeys.1 hbase)
    exact hleast expr hexpr

theorem Reordered.alike (h : Reordered implicitOps implicitOps') :
    ∀ expr ∈ discovered implicitOps',
      leastAt (discovered implicitOps') expr.base = least := by
  intro expr hexpr
  rw [leastAt, ← leastOf_perm h.discovered_perm]
  exact hleast expr (h.discovered_perm.mem_iff.2 hexpr)

theorem neededDivider_of_alike (d : ℕ) : neededDivider implicitOps d =
    if ∃ expr ∈ discovered implicitOps, expr.base.dim = d then least else none := by
  split
  · rename_i hdim
    obtain ⟨expr, hexpr, hdim⟩ := hdim
    cases hcase : least with
    | none =>
      rw [leastOf_eq_none]
      intro other hother _
      have hnone := (hleast other hother).trans hcase
      exact leastOf_eq_none.1 hnone other hother rfl
    | some m =>
      have hsome := leastOf_eq_some.1 ((hleast expr hexpr).trans hcase)
      obtain ⟨⟨found, hfound, hbase, hdivisor⟩, hne, _⟩ := hsome
      rw [leastOf_eq_some]
      refine ⟨⟨found, hfound, by rw [hbase, hdim], hdivisor⟩, hne, ?_⟩
      intro other hother _ hother_ne
      have hother_least := leastOf_eq_some.1 ((hleast other hother).trans hcase)
      exact hother_least.2.2 other hother rfl hother_ne
  · rename_i hdim
    rw [leastOf_eq_none]
    intro expr hexpr hselect
    exact absurd ⟨expr, hexpr, hselect⟩ hdim

end Alike

theorem pairedLeast_congr {constraints constraints' : List (List ℕ)}
    (h : constraints.map leastDivider = constraints'.map leastDivider) :
    pairedLeast constraints ranges = pairedLeast constraints' ranges := by
  have hlen := congrArg List.length h
  rw [List.length_map, List.length_map] at hlen
  rw [pairedLeast, pairedLeast, h, hlen]

theorem pairedLeast_nil (constraints : List (List ℕ)) : pairedLeast constraints [] = [] := by
  simp [pairedLeast]

/-- Where the constraints are alike, they reach their axes. -/
theorem SameConstraints.reach (hops : Extractable implicitOps)
    (h : SameConstraints implicitOps ranges.length) : ConstraintsReachAxes implicitOps ranges := by
  intro T hT
  refine ⟨T.applyConstraints (constraintSets implicitOps) ranges, ?_, ?_⟩
  · intro implicitOps' horder
    rw [applyImplicitDims_eq (horder.extractable hops),
      applyConstraints_eq hT.constrained hT.ranges_le,
      applyConstraints_eq hT.constrained hT.ranges_le]
    have hpairs : pairedLeast (constraintSets implicitOps') ranges =
        pairedLeast (constraintSets implicitOps) ranges := by
      rcases h with hzero | ⟨least, hleast, _⟩
      · rw [List.length_eq_zero_iff.1 hzero, pairedLeast_nil, pairedLeast_nil]
      · have hnum : numDivided implicitOps' = numDivided implicitOps :=
          ((horder.discovered_perm.map ModularExpr.base).dedup).length_eq.symm
        apply pairedLeast_congr
        rw [map_leastDivider_of_alike hleast, map_leastDivider_of_alike (horder.alike hleast), hnum]
    rw [hpairs]
  · intro d hd
    obtain ⟨hsize, hfixed⟩ := entry_applyConstraints (constraintSets implicitOps)
      hT.constrained hT.ranges_le (hT.free d) hd
    rcases h with hzero | ⟨least, hleast, haxes⟩
    · exact absurd hd (by omega)
    · have hgets :
        (constraintSets implicitOps)[d]?.bind leastDivider = neededDivider implicitOps d := by
        rw [bind_getElem?, map_leastDivider_of_alike hleast, neededDivider_of_alike hleast,
          List.getElem?_replicate]
        cases least with
        | none => split <;> split <;> rfl
        | some m =>
          by_cases hnum : d < numDivided implicitOps
          · rw [if_pos hnum, if_pos ((haxes rfl d hd).2 hnum)]
            rfl
          · rw [if_neg hnum, if_neg fun hdim => hnum ((haxes rfl d hd).1 hdim)]
            rfl
      rw [hsize, hfixed, hgets]
      exact ⟨rfl, fun hsome => hsome⟩

/-! ## Tiles that show each constraint -/

end PyTorchSim.Analysis
