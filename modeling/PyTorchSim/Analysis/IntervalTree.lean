import PyTorchSim.Model.IntervalTree

/-!
# Queries of the tree of intervals

A tree is centered when the intervals of its subtrees lie below and above its centers.  The
constructor builds a centered tree with the intervals it was given, for any center, so also where
the sum of two ends overflows, and none of its assertions fails.  In a centered tree a query leaves
out no interval that meets it.
-/

set_option autoImplicit false

namespace PyTorchSim.Analysis

open PyTorchSim.Model PyTorchSim.Model.IntervalTree

/-- What `std::sort` does: a permutation in the order of the beginnings. -/
structure IsSort (sort : List Interval → List Interval) : Prop where
  perm : ∀ l, (sort l).Perm l
  sorted : ∀ l, (sort l).Pairwise fun a b => a.start ≤ b.start

/-- The intervals of a tree. -/
def storedIntervals : IntervalTree → List Interval
  | .nil => []
  | .node intervals left right _ => intervals ++ storedIntervals left ++ storedIntervals right

/-- The intervals of the subtrees lie below and above the centers, and no subtree is empty. -/
def Centered : IntervalTree → Prop
  | .nil => True
  | .node intervals left right center =>
    (intervals.Pairwise fun a b => a.start ≤ b.start) ∧ center < scalarMax ∧
      (∀ i ∈ storedIntervals left, i.stop < center) ∧
      (∀ i ∈ storedIntervals right, center < i.start) ∧
      (left ≠ .nil → storedIntervals left ≠ []) ∧ Centered left ∧ Centered right

/-! ## The constraints -/

theorem le_minStart {ivals : List Interval} {c : ℕ} (hne : ivals ≠ [])
    (h : ∀ i ∈ ivals, c < i.start) : c < minStart ivals := by
  unfold minStart
  cases hmin : (ivals.map Interval.start).min? with
  | none =>
      rw [List.min?_eq_none_iff, List.map_eq_nil_iff] at hmin
      exact absurd hmin hne
  | some a =>
      obtain ⟨i, hi, rfl⟩ := List.mem_map.mp (List.min?_mem hmin)
      exact h i hi

/-- **A centered tree passes the check of its constraints.** -/
theorem Centered.isValid {t : IntervalTree} (ht : Centered t) :
    t.isValid.1 = true ∧ t.isValid.2.2 = 0 ∧
      ∀ c, c < scalarMax → (∀ i ∈ storedIntervals t, c < i.start) → c < t.isValid.2.1 := by
  induction t with
  | nil => exact ⟨rfl, rfl, fun _ hc _ => hc⟩
  | node intervals left right center ihl ihr =>
      obtain ⟨hsorted, hcenter, hbelow, habove, hne, hleft, hright⟩ := ht
      obtain ⟨hlvalid, hlstop, hlstart⟩ := ihl hleft
      obtain ⟨hrvalid, hrstop, hrstart⟩ := ihr hright
      -- a left subtree has an interval that ends below the center, so the center is not 0
      have hl : ¬ (left ≠ .nil ∧ (left.isValid.1 = false ∨ center ≤ left.isValid.2.2)) := by
        rintro ⟨hnil, hfalse | hle⟩
        · rw [hlvalid] at hfalse
          cases hfalse
        · obtain ⟨i, hi⟩ := List.exists_mem_of_ne_nil _ (hne hnil)
          have hstop := hbelow i hi
          omega
      have hr : ¬ (right ≠ .nil ∧ (right.isValid.1 = false ∨ right.isValid.2.1 ≤ center)) := by
        rintro ⟨-, hfalse | hle⟩
        · rw [hrvalid] at hfalse
          cases hfalse
        · have hstart := hrstart center hcenter habove
          omega
      have hown : ∀ c, c < scalarMax → (∀ i ∈ intervals, c < i.start) →
          c < (if intervals = [] then (scalarMax, 0)
            else join (scalarMax, 0) (minStart intervals, maxStop intervals)).1 ∧
          (if intervals = [] then (scalarMax, 0)
            else join (scalarMax, 0) (minStart intervals, maxStop intervals)).2 = 0 := by
        intro c hc h
        split_ifs with hempty
        · exact ⟨hc, rfl⟩
        · simp [join, hc, le_minStart hempty h]
      unfold IntervalTree.isValid
      dsimp only
      rw [if_neg hl, if_neg hr]
      refine ⟨by simpa [isSorted] using hsorted, ?_, ?_⟩
      · split_ifs <;> simp [join, hlstop, hrstop]
      · intro c hc h
        have hstored : ∀ i, i ∈ intervals ∨ i ∈ storedIntervals left ∨ i ∈ storedIntervals right →
            c < i.start := by
          intro i hi
          apply h
          simpa [storedIntervals] using hi
        have hintervals := (hown c hc fun i hi => hstored i (.inl hi)).1
        have hlstored := hlstart c hc fun i hi => hstored i (.inr (.inl hi))
        have hrstored := hrstart c hc fun i hi => hstored i (.inr (.inr hi))
        split_ifs at hintervals ⊢ <;> simp_all [join]

/-! ## Queries -/

/-- **A query of a centered tree looks at every interval that meets it**, in the order in which the
intervals are stored. -/
theorem Centered.filter_visitNear {t : IntervalTree} (ht : Centered t) {start stop : ℕ}
    {p : Interval → Bool}
    (hp : ∀ i ∈ storedIntervals t, p i = true → i.start ≤ stop ∧ start ≤ i.stop) :
    (t.visitNear start stop).filter p = (storedIntervals t).filter p := by
  induction t with
  | nil => rfl
  | node intervals left right center ihl ihr =>
      obtain ⟨hsorted, -, hbelow, habove, -, hleft, hright⟩ := ht
      have hmeets : ∀ i, i ∈ intervals ∨ i ∈ storedIntervals left ∨ i ∈ storedIntervals right →
          p i = true → i.start ≤ stop ∧ start ≤ i.stop := by
        intro i hi
        apply hp
        simpa [storedIntervals] using hi
      have hown : (nearIntervals stop intervals).filter p = intervals.filter p := by
        cases intervals with
        | nil => rfl
        | cons front rest =>
            rw [nearIntervals]
            split_ifs with hfront
            · symm
              rw [List.filter_nil, List.filter_eq_nil_iff]
              intro i hi hpi
              have hstart := (hmeets i (.inl hi) hpi).1
              have hfirst : front.start ≤ i.start := by
                rcases List.mem_cons.mp hi with rfl | hi
                · exact le_rfl
                · exact (List.pairwise_cons.mp hsorted).1 i hi
              omega
            · rfl
      have hl : (if start ≤ center then left.visitNear start stop else []).filter p =
          (storedIntervals left).filter p := by
        split_ifs with hstart
        · exact ihl hleft fun i hi => hmeets i (.inr (.inl hi))
        · symm
          rw [List.filter_nil, List.filter_eq_nil_iff]
          intro i hi hpi
          have hend := hbelow i hi
          have hmeet := (hmeets i (.inr (.inl hi)) hpi).2
          omega
      have hr : (if center ≤ stop then right.visitNear start stop else []).filter p =
          (storedIntervals right).filter p := by
        split_ifs with hstop
        · exact ihr hright fun i hi => hmeets i (.inr (.inr hi))
        · symm
          rw [List.filter_nil, List.filter_eq_nil_iff]
          intro i hi hpi
          have hbegin := habove i hi
          have hmeet := (hmeets i (.inr (.inr hi)) hpi).1
          omega
      rw [IntervalTree.visitNear, storedIntervals, List.filter_append, List.filter_append,
        List.filter_append, List.filter_append, hown, hl, hr]

/-! ## Construction -/

section Build

variable {sort : List Interval → List Interval}

/-- A centered tree with the given intervals. -/
def Built (t : IntervalTree) (ivals : List Interval) : Prop :=
  Centered t ∧ (storedIntervals t).Perm ivals

theorem checked_of_centered {t : IntervalTree} (ht : Centered t) : checked t = some t := by
  simp [checked, ht.isValid.1]

theorem center_lt_scalarMax (z : ℤ) : u64 z / 2 < scalarMax := by
  unfold scalarMax u64
  omega

/-- A leaf. -/
theorem build_leaf (hsort : IsSort sort) {ivals sorted : List Interval} {center : ℕ}
    (hcenter : center < scalarMax) (hperm : sorted.Perm ivals) :
    ∃ t, checked (.node (sort sorted) .nil .nil center) = some t ∧ Built t ivals := by
  have hcentered : Centered (.node (sort sorted) .nil .nil center) := by
    refine ⟨hsort.sorted sorted, hcenter, ?_, ?_, ?_, trivial, trivial⟩
    · simp [storedIntervals]
    · simp [storedIntervals]
    · simp
  refine ⟨_, checked_of_centered hcentered, hcentered, ?_⟩
  simp only [storedIntervals, List.append_nil]
  exact (hsort.perm sorted).trans hperm

/-- The three parts that a center cuts a list into. -/
theorem perm_parts (l : List Interval) (c : ℕ) :
    ((l.filter fun i => ¬ i.stop < c ∧ ¬ c < i.start) ++ (l.filter fun i => i.stop < c) ++
      l.filter fun i => ¬ i.stop < c ∧ c < i.start).Perm l := by
  induction l with
  | nil => simp
  | cons i l ih =>
      by_cases hstop : i.stop < c
      · simp only [List.filter_cons, hstop, not_true_eq_false, false_and, decide_false,
          decide_true, Bool.false_eq_true, if_false, if_true]
        refine List.Perm.trans ?_ (ih.cons i)
        exact (@List.perm_middle _ _ (l.filter _) _).append_right _
      · by_cases hstart : c < i.start
        · simp only [List.filter_cons, hstop, hstart, not_true_eq_false, not_false_eq_true,
            and_false, and_true, decide_false, decide_true, Bool.false_eq_true, if_false, if_true]
          exact List.perm_middle.trans (ih.cons i)
        · simp only [List.filter_cons, hstop, hstart, not_false_eq_true, and_false, and_true,
            decide_false, decide_true, Bool.false_eq_true, if_false, if_true]
          exact ih.cons i

section Extents

variable {ivals : List Interval} {leftextent rightextent : ℕ}

/-- The list of a subtree is in order, so its assertion holds. -/
theorem sorted_of_extents (hsorted : (leftextent = 0 ∧ rightextent = 0) ∨
      ivals.Pairwise fun a b => a.start ≤ b.start) :
    ¬ (¬ (leftextent = 0 ∧ rightextent = 0) ∧ ¬ isSorted ivals = true) := by
  rintro ⟨hext, hunsorted⟩
  rcases hsorted with hzero | hpair
  · exact hext hzero
  · simp [isSorted, hpair] at hunsorted

/-- The list that is cut into parts. -/
theorem sorted_perm (hsort : IsSort sort) (hsorted : (leftextent = 0 ∧ rightextent = 0) ∨
      ivals.Pairwise fun a b => a.start ≤ b.start) :
    (if leftextent = 0 ∧ rightextent = 0 then sort ivals else ivals).Perm ivals ∧
      (if leftextent = 0 ∧ rightextent = 0 then sort ivals else ivals).Pairwise
        fun a b => a.start ≤ b.start := by
  split_ifs with hext
  · exact ⟨hsort.perm ivals, hsort.sorted ivals⟩
  · exact ⟨List.Perm.refl _, hsorted.resolve_left hext⟩

end Extents

/-- A subtree, which is left out when it has no intervals. -/
theorem exists_subtree {ivals : List Interval} {b : Option IntervalTree}
    (hb : ∃ t, b = some t ∧ Built t ivals) :
    ∃ t, subtree ivals b = some t ∧ Built t ivals ∧
      (t ≠ .nil → storedIntervals t ≠ []) := by
  unfold subtree
  split_ifs with hempty
  · rw [hempty]
    exact ⟨.nil, rfl, ⟨trivial, List.Perm.refl _⟩, fun h => absurd rfl h⟩
  · obtain ⟨t, ht, hbuilt⟩ := hb
    refine ⟨t, ht, hbuilt, fun _ hnil => hempty ?_⟩
    have hperm := hbuilt.2
    rw [hnil] at hperm
    exact hperm.symm.eq_nil

/-- **The constructor builds a centered tree**, and none of its assertions fails. -/
theorem build_spec (hsort : IsSort sort) {minbucket maxbucket : ℕ}
    (hbuckets : 0 < minbucket ∧ 0 < maxbucket) (depth : ℕ) (ivals : List Interval)
    (leftextent rightextent : ℕ)
    (hsorted : (leftextent = 0 ∧ rightextent = 0) ∨
      ivals.Pairwise fun a b => a.start ≤ b.start) :
    ∃ t, build sort minbucket maxbucket depth ivals leftextent rightextent = some t ∧
      Built t ivals := by
  induction depth generalizing ivals leftextent rightextent with
  | zero =>
      unfold build
      simp only [if_neg (sorted_of_extents hsorted)]
      exact build_leaf hsort (center_lt_scalarMax _) (sorted_perm hsort hsorted).1
  | succ depth ih =>
      obtain ⟨hperm, hpair⟩ := sorted_perm hsort hsorted
      unfold build
      simp only [if_neg (sorted_of_extents hsorted)]
      generalize (if leftextent = 0 ∧ rightextent = 0 then sort ivals else ivals) = sorted at *
      have hcenter := center_lt_scalarMax (minStart ivals + maxStop ivals)
      generalize u64 (minStart ivals + maxStop ivals) / 2 = center at *
      generalize (if leftextent ≠ 0 ∨ rightextent ≠ 0 then rightextent else maxStop sorted) = rightp
      by_cases hsmall : sorted.length < minbucket ∧ sorted.length < maxbucket
      · rw [if_pos hsmall]
        exact build_leaf hsort hcenter hperm
      · rw [if_neg hsmall]
        obtain ⟨front, hfront⟩ : ∃ front, sorted.head? = some front := by
          cases sorted with
          | nil => exact absurd hbuckets (by simpa using hsmall)
          | cons front rest => exact ⟨front, rfl⟩
        obtain ⟨leftp, hleftp⟩ : ∃ leftp, (if leftextent ≠ 0 ∨ rightextent ≠ 0 then some leftextent
            else sorted.head?.map Interval.start) = some leftp := by
          split_ifs
          · exact ⟨_, rfl⟩
          · exact ⟨front.start, by rw [hfront]; rfl⟩
        rw [hleftp]
        have hlefts := hpair.filter fun i => i.stop < center
        have hrights := hpair.filter fun i => ¬ i.stop < center ∧ center < i.start
        obtain ⟨left, hleft, hlbuilt, hlne⟩ := exists_subtree (ih _ leftp center (.inr hlefts))
        obtain ⟨right, hright, hrbuilt, -⟩ := exists_subtree (ih _ center rightp (.inr hrights))
        simp only [Option.bind_eq_bind, Option.bind_some, hleft, hright]
        have hcentered : Centered (.node
            (sorted.filter fun i => ¬ i.stop < center ∧ ¬ center < i.start) left right center) := by
          refine ⟨hpair.filter _, hcenter, ?_, ?_, hlne, hlbuilt.1, hrbuilt.1⟩
          · intro i hi
            have hmem := hlbuilt.2.mem_iff.mp hi
            simpa using (List.mem_filter.mp hmem).2
          · intro i hi
            have hmem := hrbuilt.2.mem_iff.mp hi
            have hparts := (List.mem_filter.mp hmem).2
            simp only [decide_eq_true_eq] at hparts
            exact hparts.2
        refine ⟨_, checked_of_centered hcentered, hcentered, ?_⟩
        have hparts := perm_parts sorted center
        have hstored := ((List.Perm.refl (sorted.filter fun i =>
          ¬ i.stop < center ∧ ¬ center < i.start)).append hlbuilt.2).append hrbuilt.2
        exact (hstored.trans hparts).trans hperm

end Build

/-! ## The plan -/

/-- **The tree of a plan answers like the plan**: it is built from any intervals with any positive
sizes of the buckets and any depth, none of its assertions fails, and a query gives the stored
intervals that overlap, or that are contained, each as often as it is stored.  So an instruction is
cacheable by the tree exactly if it is by the list. -/
theorem intervalTree_queries (sort : List Interval → List Interval) (hsort : IsSort sort)
    (minbucket maxbucket depth : ℕ) (hbuckets : 0 < minbucket ∧ 0 < maxbucket)
    (plan : List Interval) (hplan : ∀ i ∈ plan, i.start ≤ i.stop) :
    ∃ t, build sort minbucket maxbucket depth plan 0 0 = some t ∧ ∀ start stop,
      (t.findOverlapping start stop).Perm (Model.findOverlapping plan start stop) ∧
      (t.findContained start stop).Perm
        (plan.filter fun i => start ≤ i.start ∧ i.stop ≤ stop) ∧
      (isCacheable plan start stop = true ↔ t.findOverlapping start stop ≠ []) := by
  obtain ⟨t, ht, hcentered, hperm⟩ :=
    build_spec hsort hbuckets depth plan 0 0 (.inl ⟨rfl, rfl⟩)
  refine ⟨t, ht, fun start stop => ?_⟩
  have hoverlap : (t.findOverlapping start stop).Perm (Model.findOverlapping plan start stop) := by
    unfold IntervalTree.findOverlapping Model.findOverlapping
    rw [hcentered.filter_visitNear]
    · exact hperm.filter _
    · intro i _ hi
      simp only [decide_eq_true_eq] at hi
      exact ⟨hi.2, hi.1⟩
  refine ⟨hoverlap, ?_, ?_⟩
  · unfold IntervalTree.findContained
    rw [hcentered.filter_visitNear]
    · exact hperm.filter _
    · intro i hmem hi
      have hends := hplan i (hperm.mem_iff.mp hmem)
      simp only [decide_eq_true_eq] at hi
      omega
  · unfold isCacheable
    rw [← hoverlap.length_eq]
    simp

/-- Sorting a list by insertion. -/
def insertionSorted (l : List Interval) : List Interval :=
  l.insertionSort fun a b => a.start ≤ b.start

/-- A plan of three buffers in buckets of one, with a query that meets two of them. -/
theorem intervalTree_queries_three : ∃ t,
    build insertionSorted 1 1 15 [⟨20, 30⟩, ⟨0, 5⟩, ⟨4, 9⟩] 0 0 = some t ∧
      (t.findOverlapping 5 6).length = 2 := by
  have hsort : IsSort insertionSorted := by
    constructor
    · exact fun l => List.perm_insertionSort _ l
    · intro l
      exact List.pairwise_insertionSort (fun a b : Interval => a.start ≤ b.start) l
  obtain ⟨t, ht, hqueries⟩ := intervalTree_queries insertionSorted hsort 1 1 15
    ⟨Nat.one_pos, Nat.one_pos⟩ [⟨20, 30⟩, ⟨0, 5⟩, ⟨4, 9⟩] (by decide)
  refine ⟨t, ht, ?_⟩
  rw [(hqueries 5 6).1.length_eq]
  decide

end PyTorchSim.Analysis
