import Mathlib.Data.List.Pairwise
import Mathlib.Data.List.Perm.Subperm
import PyTorchSim.Library.Dependency
import PyTorchSim.Model.Scheduler

/-!
# What the operations on tiles and subgraphs do

`HeapInv` relates the tile and subgraph objects to the tiles handed out and finished so
far: every counter is the number of unfinished parents, and the tiles of a subgraph are
those in its ready queue, those in its pending set and those handed out.  It holds of the
heap the parser leaves, handing out a tile from a ready queue keeps it, and so does
finishing a tile that was handed out, which cannot fail.
-/

set_option autoImplicit false

/-! ## Plans -/

namespace PyTorchSim.Model.TilePlan

variable {τ ι : Type} {P : TilePlan τ ι} {sg sg' : SubGraphPlan τ} {t : τ}

/-- A subgraph is known by its number. -/
theorem eq_of_id_eq (P : TilePlan τ ι) (hsg : sg ∈ P.subgraphs) (hsg' : sg' ∈ P.subgraphs)
    (hid : sg.id = sg'.id) : sg = sg' :=
  List.inj_on_of_nodup_map P.ids_nodup hsg hsg' hid

/-- A tile belongs to one subgraph. -/
theorem eq_of_mem_tiles (P : TilePlan τ ι) (hsg : sg ∈ P.subgraphs) (hsg' : sg' ∈ P.subgraphs)
    (ht : t ∈ sg.tiles) (ht' : t ∈ sg'.tiles) : sg = sg' := by
  by_contra hne
  have hpair := (List.nodup_flatMap.mp P.tiles_nodup).2
  have hsymm : Std.Symm (Function.onFun List.Disjoint (@SubGraphPlan.tiles τ)) :=
    ⟨fun _ _ h => h.symm⟩
  exact hpair.forall hsg hsg' hne ht ht'

theorem nodup_tiles (P : TilePlan τ ι) (hsg : sg ∈ P.subgraphs) : sg.tiles.Nodup :=
  (List.nodup_flatMap.mp P.tiles_nodup).1 sg hsg

/-- The child of a tile is a tile of the same subgraph. -/
theorem mem_tiles_of_edge (P : TilePlan τ ι) {c : τ} (hsg : sg ∈ P.subgraphs)
    (ht : t ∈ sg.tiles) (he : (t, c) ∈ P.edges) : c ∈ sg.tiles := by
  obtain ⟨sg', hsg', hp, hc⟩ := P.edges_local (t, c) he
  have heq : sg = sg' := P.eq_of_mem_tiles hsg hsg' ht hp
  rwa [heq]

/-- A tile belongs to one graph. -/
theorem not_mem_other (P : TilePlan τ ι) {as bs : List (GraphPlan τ)} {plan : GraphPlan τ}
    (hgraphs : P.graphs = as ++ plan :: bs) (ht : t ∈ plan.tiles) :
    ∀ other ∈ as ++ bs, t ∉ other.tiles := by
  have hnodup : (P.graphs.flatMap GraphPlan.tiles).Nodup := by
    have h := P.tiles_nodup
    rwa [List.flatMap_assoc] at h
  rw [hgraphs, List.flatMap_append, List.flatMap_cons] at hnodup
  obtain ⟨-, hright, hdisj⟩ := List.nodup_append.mp hnodup
  obtain ⟨-, -, hdisj'⟩ := List.nodup_append.mp hright
  intro other hother hmem
  rcases List.mem_append.mp hother with h | h
  · exact hdisj t (List.mem_flatMap.mpr ⟨other, h, hmem⟩) t (List.mem_append_left _ ht) rfl
  · exact hdisj' t ht t (List.mem_flatMap.mpr ⟨other, h, hmem⟩) rfl

/-- The graph of a tile has one place in the list of graphs. -/
theorem earlier_eq (P : TilePlan τ ι) {as bs as' bs' : List (GraphPlan τ)}
    {plan plan' : GraphPlan τ} (hgraphs : P.graphs = as ++ plan :: bs) (ht : t ∈ plan.tiles)
    (hgraphs' : P.graphs = as' ++ plan' :: bs') (ht' : t ∈ plan'.tiles) : as = as' := by
  rcases List.append_eq_append_iff.mp (hgraphs.symm.trans hgraphs') with
    ⟨c, hc, htail⟩ | ⟨c, hc, htail⟩
  · cases c with
    | nil => simpa using hc.symm
    | cons x c =>
        rw [List.cons_append] at htail
        obtain ⟨rfl, -⟩ := List.cons.inj htail
        have hmem : plan ∈ as' ++ bs' := by simp [hc]
        exact absurd ht (P.not_mem_other hgraphs' ht' plan hmem)
  · cases c with
    | nil => simpa using hc
    | cons x c =>
        rw [List.cons_append] at htail
        obtain ⟨rfl, -⟩ := List.cons.inj htail
        have hmem : plan' ∈ as ++ bs := by simp [hc]
        exact absurd ht' (P.not_mem_other hgraphs ht plan' hmem)

end PyTorchSim.Model.TilePlan

namespace PyTorchSim.Analysis

open PyTorchSim.Model PyTorchSim.Library

variable {τ ι : Type} [DecidableEq τ]

namespace Heap

open PyTorchSim.Model.Heap

@[simp] theorem setTile_subgraph (h : Heap τ ι) (t : τ) (v : Tile τ ι) :
    (h.setTile t v).subgraph = h.subgraph := rfl

omit [DecidableEq τ] in
@[simp] theorem setSubgraph_tile (h : Heap τ ι) (g : ℕ) (v : TileSubGraph τ) :
    (h.setSubgraph g v).tile = h.tile := rfl

@[simp] theorem setTile_tile_self (h : Heap τ ι) (t : τ) (v : Tile τ ι) :
    (h.setTile t v).tile t = v := by
  simp [setTile]

theorem setTile_tile_of_ne (h : Heap τ ι) {t u : τ} (v : Tile τ ι) (hne : u ≠ t) :
    (h.setTile t v).tile u = h.tile u := by
  simp [setTile, hne]

omit [DecidableEq τ] in
@[simp] theorem setSubgraph_subgraph_self (h : Heap τ ι) (g : ℕ) (v : TileSubGraph τ) :
    (h.setSubgraph g v).subgraph g = v := by
  simp [setSubgraph]

omit [DecidableEq τ] in
theorem setSubgraph_subgraph_of_ne (h : Heap τ ι) {g k : ℕ} (v : TileSubGraph τ) (hne : k ≠ g) :
    (h.setSubgraph g v).subgraph k = h.subgraph k := by
  simp [setSubgraph, hne]

/-- One edge raises the counter of its child and extends the list of its parent. -/
theorem appendChild_tile (h : Heap τ ι) (e : τ × τ) (t : τ) :
    (h.appendChild e).tile t = { h.tile t with
      readyCounter := (h.tile t).readyCounter + (parents [e] t).length
      childTiles := (h.tile t).childTiles ++ children [e] t } := by
  obtain ⟨p, c⟩ := e
  unfold appendChild incReadyCounter parents children
  by_cases hp : t = p <;> by_cases hc : t = c
  · subst hp hc
    simp
  · subst hp
    simp [setTile, hc, Ne.symm hc]
  · subst hc
    simp [setTile, hp, Ne.symm hp]
  · simp [setTile, hp, hc, Ne.symm hp, Ne.symm hc]

/-- A list of edges raises each counter by the number of edges into the tile. -/
theorem foldl_appendChild_tile (E : List (τ × τ)) (h : Heap τ ι) (t : τ) :
    (E.foldl appendChild h).tile t = { h.tile t with
      readyCounter := (h.tile t).readyCounter + (parents E t).length
      childTiles := (h.tile t).childTiles ++ children E t } := by
  induction E generalizing h with
  | nil => simp [parents, children]
  | cons e E ih =>
      rw [List.foldl_cons, ih, appendChild_tile]
      have hpar := congrArg List.length (parents_append [e] E t)
      have hch := children_append [e] E t
      simp only [List.singleton_append, List.length_append] at hpar hch
      rw [hpar, hch]
      simp [Nat.add_assoc]

/-- Adding a tile files it under its counter and sets its owner. -/
theorem addTile_tile (h : Heap τ ι) (g : ℕ) (t u : τ) :
    (h.addTile g t).tile u =
      if u = t then { h.tile u with ownerGraph := g } else h.tile u := by
  unfold addTile
  by_cases hu : u = t
  · subst hu
    simp
  · simp [setTile_tile_of_ne _ _ hu, hu]

/-- What adding tiles to a subgraph leaves in it. -/
theorem foldl_addTile_subgraph (g : ℕ) (ts : List τ) (h : Heap τ ι) (hts : ts.Nodup)
    (hdisj : ∀ t ∈ ts, t ∉ (h.subgraph g).tileSet) :
    let h' := ts.foldl (fun h t => h.addTile g t) h
    (h'.subgraph g).readyTileQueue =
        (h.subgraph g).readyTileQueue ++ ts.filter (fun t => (h.tile t).readyCounter = 0) ∧
      (h'.subgraph g).tileSet.Perm
        ((h.subgraph g).tileSet ++ ts.filter (fun t => (h.tile t).readyCounter ≠ 0)) := by
  induction ts generalizing h with
  | nil => simp
  | cons t ts ih =>
      obtain ⟨htnot, hts⟩ := List.nodup_cons.mp hts
      have hcounter : ∀ u, ((h.addTile g t).tile u).readyCounter = (h.tile u).readyCounter := by
        intro u
        rw [addTile_tile]
        split <;> rfl
      have hnew : (h.addTile g t).subgraph g =
          if (h.tile t).readyCounter = 0 then
            { h.subgraph g with readyTileQueue := (h.subgraph g).readyTileQueue ++ [t] }
          else { h.subgraph g with tileSet := (h.subgraph g).tileSet.insert t } := by
        simp [addTile]
      have htset : t ∉ (h.subgraph g).tileSet := hdisj t List.mem_cons_self
      have hdisj' : ∀ u ∈ ts, u ∉ ((h.addTile g t).subgraph g).tileSet := by
        intro u hu
        have hold := hdisj u (List.mem_cons_of_mem t hu)
        have hne : u ≠ t := fun h => htnot (h ▸ hu)
        rw [hnew]
        split
        · exact hold
        · simpa [hne] using hold
      obtain ⟨hready, hset⟩ := ih (h.addTile g t) hts hdisj'
      simp only [hcounter] at hready hset
      simp only [List.foldl_cons]
      rw [hready]
      by_cases h0 : (h.tile t).readyCounter = 0
      · refine ⟨by simp [hnew, h0], ?_⟩
        simpa [hnew, h0] using hset
      · refine ⟨by simp [hnew, h0], hset.trans ?_⟩
        simp [hnew, h0, List.insert_of_not_mem htset, List.perm_middle.symm]

theorem foldl_addTile_tile (g : ℕ) (ts : List τ) (h : Heap τ ι) (u : τ) :
    (ts.foldl (fun h t => h.addTile g t) h).tile u =
      if u ∈ ts then { h.tile u with ownerGraph := g } else h.tile u := by
  induction ts generalizing h with
  | nil => simp
  | cons t ts ih =>
      rw [List.foldl_cons, ih, addTile_tile]
      by_cases hu : u = t <;> by_cases hts : u ∈ ts <;> simp [hu, hts]

theorem foldl_addTile_subgraph_of_ne {g k : ℕ} (hk : k ≠ g) (ts : List τ) (h : Heap τ ι) :
    (ts.foldl (fun h t => h.addTile g t) h).subgraph k = h.subgraph k := by
  induction ts generalizing h with
  | nil => rfl
  | cons t ts ih =>
      rw [List.foldl_cons, ih]
      simp [addTile, setSubgraph_subgraph_of_ne _ _ hk]

/-- The counters after the children of a finished tile are told. -/
theorem foldlM_decReadyCounter (l : List τ) (h : Heap τ ι)
    (hl : ∀ c, l.count c ≤ (h.tile c).readyCounter) :
    ∃ h', l.foldlM decReadyCounter h = .ok h' ∧ h'.subgraph = h.subgraph ∧
      ∀ c, h'.tile c =
        { h.tile c with readyCounter := (h.tile c).readyCounter - l.count c } := by
  induction l generalizing h with
  | nil => exact ⟨h, rfl, rfl, fun c => by simp⟩
  | cons t l ih =>
      have hpos : (h.tile t).readyCounter ≠ 0 := by
        have := hl t
        rw [List.count_cons_self] at this
        omega
      have hdec : h.decReadyCounter t = .ok (h.setTile t
          { h.tile t with readyCounter := (h.tile t).readyCounter - 1 }) := by
        simp [decReadyCounter, hpos]
      obtain ⟨h', hrun, hsub, htile⟩ := ih (h.setTile t
          { h.tile t with readyCounter := (h.tile t).readyCounter - 1 }) (by
        intro c
        have := hl c
        by_cases hc : c = t
        · subst hc
          rw [List.count_cons_self] at this
          simp only [setTile_tile_self]
          omega
        · rw [List.count_cons_of_ne (Ne.symm hc)] at this
          rw [setTile_tile_of_ne _ _ hc]
          exact this)
      refine ⟨h', ?_, hsub, fun c => ?_⟩
      · rw [List.foldlM_cons, hdec]
        exact hrun
      · rw [htile c]
        by_cases hc : c = t
        · subst hc
          simp [Nat.sub_sub, Nat.add_comm]
        · rw [setTile_tile_of_ne _ _ hc, List.count_cons_of_ne (Ne.symm hc)]

/-- The walk over the children moves those whose counter is 0 to the ready queue. -/
theorem queueReadyChildren_spec (g : ℕ) (cs : List τ) (h : Heap τ ι) :
    let ready := cs.filter fun c => (h.tile c).readyCounter = 0
    (h.queueReadyChildren g cs).tile = h.tile ∧
      (∀ k, k ≠ g → (h.queueReadyChildren g cs).subgraph k = h.subgraph k) ∧
      ((h.queueReadyChildren g cs).subgraph g).readyTileQueue =
        (h.subgraph g).readyTileQueue ++ ready ∧
      ((h.queueReadyChildren g cs).subgraph g).tileSet = (h.subgraph g).tileSet.diff ready := by
  induction cs generalizing h with
  | nil => simp [queueReadyChildren]
  | cons c cs ih =>
      unfold queueReadyChildren at ih ⊢
      rw [List.foldl_cons]
      by_cases h0 : (h.tile c).readyCounter = 0
      · rw [if_neg (by simpa using h0)]
        obtain ⟨htile, hne, hready, hset⟩ :=
          ih (h.setSubgraph g ((h.subgraph g).makeReady c))
        refine ⟨htile, fun k hk => ?_, ?_, ?_⟩
        · rw [hne k hk, setSubgraph_subgraph_of_ne _ _ hk]
        · rw [hready]
          simp only [setSubgraph_subgraph_self, TileSubGraph.makeReady, h0, decide_true,
            List.filter_cons_of_pos, List.append_assoc, List.singleton_append]
          rfl
        · rw [hset]
          simp only [setSubgraph_subgraph_self, TileSubGraph.makeReady, h0, decide_true,
            List.filter_cons_of_pos, List.diff_cons]
          rfl
      · rw [if_pos h0]
        simpa [h0] using ih h

end Heap

/-! ## The invariant of the heap -/

/-- The objects of the heap after the tiles `handed` were handed out and the tiles `fin`
reported finished. -/
structure HeapInv (P : TilePlan τ ι) (h : Heap τ ι) (handed fin : List τ) : Prop where
  status : ∀ t, (h.tile t).status = .initialized
  childTiles : ∀ t, (h.tile t).childTiles = children P.edges t
  readyCounter : ∀ t, (h.tile t).readyCounter = pendingParents P.edges fin t
  ownerGraph : ∀ sg ∈ P.subgraphs, ∀ t ∈ sg.tiles, (h.tile t).ownerGraph = sg.id
  placed : ∀ sg ∈ P.subgraphs,
    ((h.subgraph sg.id).readyTileQueue ++ (h.subgraph sg.id).tileSet ++
      handed.filter (· ∈ sg.tiles)).Perm sg.tiles
  ready : ∀ sg ∈ P.subgraphs, ∀ t ∈ (h.subgraph sg.id).readyTileQueue,
    pendingParents P.edges fin t = 0
  waiting : ∀ sg ∈ P.subgraphs, ∀ t ∈ (h.subgraph sg.id).tileSet,
    pendingParents P.edges fin t ≠ 0
  handed_ready : ∀ t ∈ handed, pendingParents P.edges fin t = 0
  handed_mem : ∀ t ∈ handed, ∃ sg ∈ P.subgraphs, t ∈ sg.tiles
  finished_handed : ∀ t ∈ fin, t ∈ handed

namespace HeapInv

variable {P : TilePlan τ ι} {h : Heap τ ι} {handed fin : List τ} {sg : SubGraphPlan τ} {t : τ}

/-- Ready queue, pending set and the tiles handed out have no tile twice. -/
theorem placed_nodup (hI : HeapInv P h handed fin) (hsg : sg ∈ P.subgraphs) :
    ((h.subgraph sg.id).readyTileQueue ++ (h.subgraph sg.id).tileSet ++
      handed.filter (· ∈ sg.tiles)).Nodup :=
  (hI.placed sg hsg).nodup_iff.mpr (P.nodup_tiles hsg)

/-- No tile is handed out twice. -/
theorem handed_nodup (hI : HeapInv P h handed fin) : handed.Nodup := by
  rw [List.nodup_iff_count_le_one]
  intro t
  by_cases ht : t ∈ handed
  · obtain ⟨sg, hsg, htsg⟩ := hI.handed_mem t ht
    have hnodup := (List.nodup_append.mp (hI.placed_nodup hsg)).2.1
    have hcount := List.nodup_iff_count_le_one.mp hnodup t
    rwa [List.count_filter (by simpa using htsg)] at hcount
  · simp [List.count_eq_zero_of_not_mem ht]

/-- A tile of a subgraph is in its ready queue, in its pending set, or handed out. -/
theorem mem_tiles_iff (hI : HeapInv P h handed fin) (hsg : sg ∈ P.subgraphs) :
    t ∈ sg.tiles ↔ t ∈ (h.subgraph sg.id).readyTileQueue ∨ t ∈ (h.subgraph sg.id).tileSet ∨
      (t ∈ handed ∧ t ∈ sg.tiles) := by
  have hmem := (hI.placed sg hsg).mem_iff (a := t)
  simp only [List.mem_append, List.mem_filter, decide_eq_true_eq, or_assoc] at hmem
  exact hmem.symm

/-- A subgraph is finished when all of its tiles are handed out. -/
theorem isFinished_iff (hI : HeapInv P h handed fin) (hsg : sg ∈ P.subgraphs) :
    (h.subgraph sg.id).isFinished = true ↔ ∀ t ∈ sg.tiles, t ∈ handed := by
  simp only [TileSubGraph.isFinished, Bool.and_eq_true, List.isEmpty_iff]
  constructor
  · rintro ⟨hr, hs⟩ t ht
    rcases (hI.mem_tiles_iff hsg).mp ht with h1 | h1 | h1
    · simp [hr] at h1
    · simp [hs] at h1
    · exact h1.1
  · intro hall
    have hnodup := hI.placed_nodup hsg
    have hmem : ∀ u, u ∈ (h.subgraph sg.id).readyTileQueue ++ (h.subgraph sg.id).tileSet →
        False := by
      intro u hu
      have husg : u ∈ sg.tiles := by
        rw [hI.mem_tiles_iff hsg]
        rcases List.mem_append.mp hu with h1 | h1
        · exact .inl h1
        · exact .inr (.inl h1)
      have hfilter : u ∈ handed.filter (· ∈ sg.tiles) := by simp [hall u husg, husg]
      exact (List.nodup_append.mp hnodup).2.2 u hu u hfilter rfl
    constructor
    · exact List.eq_nil_iff_forall_not_mem.mpr fun u hu => hmem u (List.mem_append_left _ hu)
    · exact List.eq_nil_iff_forall_not_mem.mpr fun u hu => hmem u (List.mem_append_right _ hu)

/-- What filling the subgraphs leaves: the tiles of a subgraph know their owner, and its
ready queue and pending set split them by their counters. -/
theorem foldl_addTiles_spec (sgs : List (SubGraphPlan τ)) (h : Heap τ ι)
    (hids : (sgs.map (·.id)).Nodup) (htiles : (sgs.flatMap (·.tiles)).Nodup) :
    let h' := sgs.foldl (fun h sg => sg.tiles.foldl (fun h t => h.addTile sg.id t)
      (h.setSubgraph sg.id { coreId := sg.coreId })) h
    (∀ g, g ∉ sgs.map (·.id) → h'.subgraph g = h.subgraph g) ∧
      (∀ t, t ∉ sgs.flatMap (·.tiles) → h'.tile t = h.tile t) ∧
      ∀ sg ∈ sgs,
        (∀ t ∈ sg.tiles, h'.tile t = { h.tile t with ownerGraph := sg.id }) ∧
        (h'.subgraph sg.id).readyTileQueue =
          sg.tiles.filter (fun t => (h.tile t).readyCounter = 0) ∧
        (h'.subgraph sg.id).tileSet.Perm
          (sg.tiles.filter fun t => (h.tile t).readyCounter ≠ 0) := by
  induction sgs generalizing h with
  | nil => simp
  | cons sg sgs ih =>
      rw [List.map_cons, List.nodup_cons] at hids
      rw [List.flatMap_cons, List.nodup_append] at htiles
      obtain ⟨hnid, hids⟩ := hids
      obtain ⟨hsgtiles, htiles, hdisj⟩ := htiles
      have hfirst := Heap.foldl_addTile_subgraph sg.id sg.tiles
        (h.setSubgraph sg.id { coreId := sg.coreId }) hsgtiles (by simp)
      have htile := Heap.foldl_addTile_tile sg.id sg.tiles
        (h.setSubgraph sg.id { coreId := sg.coreId })
      have hne := fun k hk => Heap.foldl_addTile_subgraph_of_ne (k := k) (g := sg.id) hk sg.tiles
        (h.setSubgraph sg.id { coreId := sg.coreId })
      simp only [List.foldl_cons]
      generalize sg.tiles.foldl (fun h t => h.addTile sg.id t)
        (h.setSubgraph sg.id { coreId := sg.coreId }) = h₁ at hfirst htile hne ⊢
      simp only [Heap.setSubgraph_tile, Heap.setSubgraph_subgraph_self, List.nil_append]
        at hfirst htile
      obtain ⟨hsub, hout, hin⟩ := ih h₁ hids htiles
      refine ⟨fun g hg => ?_, fun t ht => ?_, fun sg' hsg' => ?_⟩
      · rw [List.map_cons, List.mem_cons, not_or] at hg
        rw [hsub g hg.2, hne g hg.1, Heap.setSubgraph_subgraph_of_ne _ _ hg.1]
      · rw [List.flatMap_cons, List.mem_append, not_or] at ht
        rw [hout t ht.2, htile, if_neg ht.1]
      · rcases List.mem_cons.mp hsg' with rfl | hsg'
        · rw [hsub _ hnid]
          refine ⟨fun t ht => ?_, hfirst.1, hfirst.2⟩
          rw [hout t (fun h' => hdisj t ht t h' rfl), htile, if_pos ht]
        · obtain ⟨htiles', hready, hset⟩ := hin sg' hsg'
          have hkeep : ∀ t ∈ sg'.tiles, h₁.tile t = h.tile t := by
            intro t ht
            have hmem : t ∈ sgs.flatMap (·.tiles) := List.mem_flatMap.mpr ⟨sg', hsg', ht⟩
            rw [htile, if_neg fun h' => hdisj t h' t hmem rfl]
          refine ⟨fun t ht => ?_, ?_, ?_⟩
          · rw [htiles' t ht, hkeep t ht]
          · rw [hready]
            exact List.filter_congr fun t ht => by rw [hkeep t ht]
          · refine hset.trans (List.Perm.of_eq ?_)
            exact List.filter_congr fun t ht => by rw [hkeep t ht]

/-- The heap the parser leaves satisfies the invariant. -/
theorem init (P : TilePlan τ ι) : HeapInv P P.heap [] [] := by
  have hlinked : ∀ t, (P.edges.foldl Model.Heap.appendChild
      { tile := P.blank, subgraph := fun _ => {} }).tile t =
      { P.blank t with
        readyCounter := pendingParents P.edges [] t, childTiles := children P.edges t } := by
    intro t
    rw [Heap.foldl_appendChild_tile, pendingParents_nil]
    simp [P.blank_readyCounter, P.blank_childTiles]
  obtain ⟨-, hout, hin⟩ := foldl_addTiles_spec P.subgraphs
    (P.edges.foldl Model.Heap.appendChild { tile := P.blank, subgraph := fun _ => {} })
    P.ids_nodup P.tiles_nodup
  have htile : ∀ t, ∃ g, P.heap.tile t =
      { P.blank t with
        readyCounter := pendingParents P.edges [] t, childTiles := children P.edges t,
        ownerGraph := g } := by
    intro t
    by_cases ht : t ∈ P.subgraphs.flatMap (·.tiles)
    · obtain ⟨sg, hsg, htsg⟩ := List.mem_flatMap.mp ht
      refine ⟨sg.id, ?_⟩
      rw [TilePlan.heap, (hin sg hsg).1 t htsg, hlinked t]
    · refine ⟨(P.blank t).ownerGraph, ?_⟩
      rw [TilePlan.heap, hout t ht, hlinked t]
  refine ⟨fun t => ?_, fun t => ?_, fun t => ?_, fun sg hsg t ht => ?_, fun sg hsg => ?_,
    fun sg hsg t ht => ?_, fun sg hsg t ht => ?_, by simp, by simp, by simp⟩
  · obtain ⟨g, hg⟩ := htile t
    rw [hg]
    exact P.blank_status t
  · obtain ⟨g, hg⟩ := htile t
    rw [hg]
  · obtain ⟨g, hg⟩ := htile t
    rw [hg]
  · rw [TilePlan.heap, (hin sg hsg).1 t ht]
  · obtain ⟨-, hready, hset⟩ := hin sg hsg
    rw [TilePlan.heap, hready, List.filter_nil, List.append_nil]
    refine (List.Perm.append_left _ hset).trans ?_
    simpa using List.filter_append_perm _ sg.tiles
  · rw [TilePlan.heap, (hin sg hsg).2.1, List.mem_filter, hlinked t] at ht
    simpa using ht.2
  · rw [TilePlan.heap, (hin sg hsg).2.2.mem_iff, List.mem_filter, hlinked t] at ht
    simpa using ht.2

/-- Handing out a tile of a ready queue keeps the invariant. -/
theorem handOut (hI : HeapInv P h handed fin) (hsg : sg ∈ P.subgraphs)
    (ht : t ∈ (h.subgraph sg.id).readyTileQueue) :
    HeapInv P (h.setSubgraph sg.id { h.subgraph sg.id with
      readyTileQueue := (h.subgraph sg.id).readyTileQueue.erase t }) (handed ++ [t]) fin := by
  have htsg : t ∈ sg.tiles := (hI.mem_tiles_iff hsg).mpr (.inl ht)
  have hother : ∀ sg' ∈ P.subgraphs, sg' ≠ sg → sg'.id ≠ sg.id := by
    intro sg' hsg' hne hid
    exact hne (P.eq_of_id_eq hsg' hsg hid)
  refine ⟨hI.status, hI.childTiles, hI.readyCounter, hI.ownerGraph, ?_, ?_, ?_, ?_, ?_, ?_⟩
  · intro sg' hsg'
    by_cases heq : sg' = sg
    · subst heq
      simp only [Heap.setSubgraph_subgraph_self, List.filter_append]
      refine List.Perm.trans ?_ (hI.placed sg' hsg')
      rw [List.perm_iff_count]
      intro u
      have hpos : 0 < (h.subgraph sg'.id).readyTileQueue.count t := List.count_pos_iff.mpr ht
      simp only [List.count_append, List.count_erase, htsg, decide_true,
        List.filter_cons_of_pos, List.filter_nil]
      by_cases hu : u = t
      · subst hu
        simp
        omega
      · simp [Ne.symm hu]
    · rw [Heap.setSubgraph_subgraph_of_ne _ _ (hother sg' hsg' heq)]
      have hnot : t ∉ sg'.tiles := fun h' => heq (P.eq_of_mem_tiles hsg' hsg h' htsg)
      simpa [List.filter_append, hnot] using hI.placed sg' hsg'
  · intro sg' hsg' u hu
    by_cases heq : sg' = sg
    · subst heq
      rw [Heap.setSubgraph_subgraph_self] at hu
      exact hI.ready sg' hsg' u (List.mem_of_mem_erase hu)
    · rw [Heap.setSubgraph_subgraph_of_ne _ _ (hother sg' hsg' heq)] at hu
      exact hI.ready sg' hsg' u hu
  · intro sg' hsg' u hu
    by_cases heq : sg' = sg
    · subst heq
      rw [Heap.setSubgraph_subgraph_self] at hu
      exact hI.waiting sg' hsg' u hu
    · rw [Heap.setSubgraph_subgraph_of_ne _ _ (hother sg' hsg' heq)] at hu
      exact hI.waiting sg' hsg' u hu
  · intro u hu
    rcases List.mem_append.mp hu with hu | hu
    · exact hI.handed_ready u hu
    · rw [List.mem_singleton.mp hu]
      exact hI.ready sg hsg t ht
  · intro u hu
    rcases List.mem_append.mp hu with hu | hu
    · exact hI.handed_mem u hu
    · rw [List.mem_singleton.mp hu]
      exact ⟨sg, hsg, htsg⟩
  · intro u hu
    exact List.mem_append_left _ (hI.finished_handed u hu)

/-- **Finishing a tile** that was handed out does not fail and keeps the invariant. -/
theorem finish (hI : HeapInv P h handed fin) (ht : t ∈ handed) (htfin : t ∉ fin) :
    ∃ h', h.finishTile t = .ok h' ∧ HeapInv P h' handed (fin ++ [t]) := by
  have hdone : ∀ x, pendingParents P.edges (fin ++ [t]) x + (children P.edges t).count x =
      pendingParents P.edges fin x := fun x => pendingParents_finish htfin
  obtain ⟨h₁, hdec, hsub₁, htile₁⟩ := Heap.foldlM_decReadyCounter (children P.edges t) h (by
    intro c
    rw [hI.readyCounter c]
    have := hdone c
    omega)
  have hcounter₁ : ∀ c, (h₁.tile c).readyCounter = pendingParents P.edges (fin ++ [t]) c := by
    intro c
    rw [htile₁ c]
    have := hdone c
    simp only [hI.readyCounter c]
    omega
  obtain ⟨sg, hsg, htsg⟩ := hI.handed_mem t ht
  have howner : (h₁.tile t).ownerGraph = sg.id := by
    rw [htile₁ t]
    exact hI.ownerGraph sg hsg t htsg
  have hchildren : (h₁.tile t).childTiles = children P.edges t := by
    rw [htile₁ t]
    exact hI.childTiles t
  obtain ⟨htile₂, hother, hready₂, hset₂⟩ :=
    Heap.queueReadyChildren_spec sg.id (children P.edges t) h₁
  -- the children that become ready
  generalize hF : (children P.edges t).filter
    (fun c => (h₁.tile c).readyCounter = 0) = F at hready₂ hset₂
  have hmemF : ∀ c, c ∈ F ↔ (t, c) ∈ P.edges ∧ pendingParents P.edges (fin ++ [t]) c = 0 := by
    intro c
    rw [← hF, List.mem_filter, mem_children, hcounter₁ c]
    simp
  have hFset : ∀ c ∈ F, c ∈ (h.subgraph sg.id).tileSet := by
    intro c hc
    have hedge := ((hmemF c).mp hc).1
    have hpos : 0 < pendingParents P.edges fin c := pendingParents_pos hedge htfin
    rcases (hI.mem_tiles_iff hsg).mp (P.mem_tiles_of_edge hsg htsg hedge) with h1 | h1 | h1
    · have := hI.ready sg hsg c h1
      omega
    · exact h1
    · have := hI.handed_ready c h1.1
      omega
  have hFnodup : F.Nodup := by
    rw [← hF]
    exact (nodup_children P.edges_nodup).filter _
  have hsetnodup : (h.subgraph sg.id).tileSet.Nodup :=
    (List.nodup_append.mp (List.nodup_append.mp (hI.placed_nodup hsg)).1).2.1
  refine ⟨h₁.queueReadyChildren sg.id (children P.edges t), ?_, ?_⟩
  · unfold Model.Heap.finishTile Model.Heap.decChildren
    rw [hI.childTiles t, hdec]
    change Except.ok (h₁.queueReadyChildren (h₁.tile t).ownerGraph (h₁.tile t).childTiles) = _
    rw [howner, hchildren]
  have hne : ∀ sg' ∈ P.subgraphs, sg' ≠ sg →
      (h₁.queueReadyChildren sg.id (children P.edges t)).subgraph sg'.id =
        h.subgraph sg'.id := by
    intro sg' hsg' hne
    rw [hother sg'.id fun hid => hne (P.eq_of_id_eq hsg' hsg hid), hsub₁]
  rw [hsub₁] at hready₂ hset₂
  refine ⟨fun u => ?_, fun u => ?_, fun u => ?_, fun sg' hsg' u hu => ?_, fun sg' hsg' => ?_,
    fun sg' hsg' u hu => ?_, fun sg' hsg' u hu => ?_, fun u hu => ?_, hI.handed_mem,
    fun u hu => ?_⟩
  · rw [htile₂, htile₁ u]
    exact hI.status u
  · rw [htile₂, htile₁ u]
    exact hI.childTiles u
  · rw [htile₂, hcounter₁ u]
  · rw [htile₂, htile₁ u]
    exact hI.ownerGraph sg' hsg' u hu
  · by_cases heq : sg' = sg
    · subst heq
      refine List.Perm.trans ?_ (hI.placed sg' hsg')
      rw [hready₂, hset₂]
      refine List.Perm.append_right _ ?_
      rw [List.append_assoc]
      refine List.Perm.append_left _ ?_
      refine List.subperm_append_diff_self_of_count_le fun c hc => ?_
      rw [List.count_eq_one_of_mem hFnodup hc]
      exact List.count_pos_iff.mpr (hFset c hc)
    · rw [hne sg' hsg' heq]
      exact hI.placed sg' hsg'
  · by_cases heq : sg' = sg
    · subst heq
      rw [hready₂] at hu
      rcases List.mem_append.mp hu with hu | hu
      · have := hI.ready sg' hsg' u hu
        have := hdone u
        omega
      · exact ((hmemF u).mp hu).2
    · rw [hne sg' hsg' heq] at hu
      have := hI.ready sg' hsg' u hu
      have := hdone u
      omega
  · by_cases heq : sg' = sg
    · subst heq
      rw [hset₂, hsetnodup.mem_sdiff_iff] at hu
      by_cases hedge : (t, u) ∈ P.edges
      · exact fun h0 => hu.2 ((hmemF u).mpr ⟨hedge, h0⟩)
      · have hcount : (children P.edges t).count u = 0 :=
          List.count_eq_zero_of_not_mem (by simpa using hedge)
        have := hI.waiting sg' hsg' u hu.1
        have := hdone u
        omega
    · rw [hne sg' hsg' heq] at hu
      intro h0
      have hedge : (t, u) ∉ P.edges := by
        intro hedge
        have husg : u ∈ sg.tiles := P.mem_tiles_of_edge hsg htsg hedge
        have husg' : u ∈ sg'.tiles := (hI.mem_tiles_iff hsg').mpr (.inr (.inl hu))
        exact heq (P.eq_of_mem_tiles hsg' hsg husg' husg)
      have hcount : (children P.edges t).count u = 0 :=
        List.count_eq_zero_of_not_mem (by simpa using hedge)
      have := hI.waiting sg' hsg' u hu
      have := hdone u
      omega
  · have := hI.handed_ready u hu
    have := hdone u
    omega
  · rcases List.mem_append.mp hu with hu | hu
    · exact hI.finished_handed u hu
    · rwa [List.mem_singleton.mp hu]

end HeapInv

end PyTorchSim.Analysis
