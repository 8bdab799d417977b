import PyTorchSim.Analysis.TileShape

/-!
# The links between the instructions of a tile

If no node lists a child twice, the ready counter of an instruction is the number of its
parents, and these belong to the same tile.  Edges come from the nodes of a tile, when the tile
is complete, and from the last instruction before an inner loop to those that the loop moves
to the tile.
-/

set_option autoImplicit false

namespace PyTorchSim.Analysis

open PyTorchSim.Model PyTorchSim.Library

variable {T : ParserTables} {iter : LoopIter} {nodes : List TileNode} {b ret : BodyState}
  {st st' st₀ : ParserState} {child : ℕ} {last : Option ℕ} {loopType : LoopType}
  {h h' : CoreHeap ℕ ℕ} {t : ℕ}

/-- The instructions of a tile and the edges between them. -/
structure TileInsts (h : CoreHeap ℕ ℕ) (t : ℕ) : Prop where
  counted : Counted (h.tile t).instructions (fun i => (h.inst i).childInst)
    fun i => (h.inst i).readyCounter
  owner : ∀ i ∈ (h.tile t).instructions, (h.inst i).owner = t
  nrInsts : (h.tile t).nrInsts = (h.tile t).instructions.length

/-- The instructions of a body under expansion: those of the current tile that are nodes have
no children yet. -/
structure BodyInsts (b : BodyState) : Prop where
  tiles : ∀ t ∈ b.tileVec, TileInsts b.st.heap t
  unlinked : ∀ i ∈ b.linkMap.map (·.inst), (b.st.heap.inst i).childInst = []
  links_nodup : (b.linkMap.map (·.inst)).Nodup
  child_nodup : ∀ e ∈ b.linkMap, e.child.Nodup

theorem TileInsts.congr (hT : TileInsts h t)
    (hinsts : (h'.tile t).instructions = (h.tile t).instructions)
    (hnr : (h'.tile t).nrInsts = (h.tile t).nrInsts)
    (hinst : ∀ i ∈ (h.tile t).instructions, (h'.inst i).childInst = (h.inst i).childInst ∧
      (h'.inst i).readyCounter = (h.inst i).readyCounter ∧ (h'.inst i).owner = (h.inst i).owner) :
    TileInsts h' t := by
  refine ⟨?_, fun i hi => ?_, ?_⟩
  · rw [hinsts]
    exact hT.counted.congr (fun i hi => (hinst i hi).1) fun i hi => (hinst i hi).2.1
  · rw [hinsts] at hi
    rw [(hinst i hi).2.2]
    exact hT.owner i hi
  · rw [hnr, hinsts, hT.nrInsts]

/-- Nothing about the tile and its instructions changes. -/
theorem TileInsts.frame (hT : TileInsts h t) (htile : h'.tile t = h.tile t)
    (hinst : ∀ i ∈ (h.tile t).instructions, h'.inst i = h.inst i) : TileInsts h' t := by
  refine hT.congr ?_ ?_ fun i hi => ?_
  · rw [htile]
  · rw [htile]
  · rw [hinst i hi]
    exact ⟨rfl, rfl, rfl⟩

/-- A tile without instructions. -/
theorem TileInsts.empty (hinsts : (h.tile t).instructions = []) (hnr : (h.tile t).nrInsts = 0) :
    TileInsts h t := by
  refine ⟨?_, fun i hi => ?_, ?_⟩
  · rw [hinsts]
    exact .nil
  · rw [hinsts] at hi
    exact absurd hi List.not_mem_nil
  · rw [hinsts, hnr]
    rfl

/-! ## The links of a tile -/

/-- Different entries and different children give different edges. -/
theorem nodup_linkEdges {m : List LinkEntry} (hm : (m.map (·.inst)).Nodup)
    (hchild : ∀ e ∈ m, e.child.Nodup) : (linkEdges m).Nodup := by
  have hinj : ∀ c c' j, BodyState.find? m c = some j → BodyState.find? m c' = some j → c = c' := by
    intro c c' j hc hc'
    unfold BodyState.find? at hc hc'
    obtain ⟨e, he, rfl⟩ := Option.map_eq_some_iff.mp hc
    obtain ⟨e', he', hee⟩ := Option.map_eq_some_iff.mp hc'
    have heq : e' = e := List.inj_on_of_nodup_map hm (List.mem_of_find?_eq_some he')
      (List.mem_of_find?_eq_some he) hee
    subst heq
    have h₁ := List.find?_some he
    have h₂ := List.find?_some he'
    simp only [decide_eq_true_eq] at h₁ h₂
    exact h₁.symm.trans h₂
  refine List.nodup_flatMap.mpr ⟨fun e he => ?_, ?_⟩
  · refine (hchild e he).filterMap fun c c' p hp hp' => ?_
    obtain ⟨j, hj, rfl⟩ := Option.map_eq_some_iff.mp hp
    obtain ⟨j', hj', heq⟩ := Option.map_eq_some_iff.mp hp'
    obtain rfl : j' = j := (Prod.mk.inj heq).2
    exact hinj c c' _ hj hj'
  · refine (List.pairwise_map.mp hm).imp fun {e e'} hne p hp hp' => hne ?_
    obtain ⟨c, -, hc⟩ := List.mem_filterMap.mp hp
    obtain ⟨j, -, rfl⟩ := Option.map_eq_some_iff.mp hc
    obtain ⟨c', -, hc'⟩ := List.mem_filterMap.mp hp'
    obtain ⟨j', -, heq⟩ := Option.map_eq_some_iff.mp hc'
    exact (Prod.mk.inj heq).1.symm

/-- **Linking keeps the counters exact.** -/
theorem BodyInsts.link (hb : BodyInsts b) (hf : BodyFrame st₀ b) :
    ∀ t ∈ b.tileVec, TileInsts b.link.st.heap t := by
  intro t ht
  have htile : b.link.st.heap.tile = b.st.heap.tile := by
    rw [link_heap, CoreHeap.foldl_addChild_tile]
  have hE := nodup_linkEdges hb.links_nodup hb.child_nodup
  have hnew : ∀ e ∈ linkEdges b.linkMap, e.2 ∉ (b.st.heap.inst e.1).childInst := by
    intro e he
    rw [hb.unlinked e.1 (mem_linkEdges he).1]
    exact List.not_mem_nil
  have hinst := CoreHeap.foldl_addChild_inst b.st.heap hE hnew
  have hT := hb.tiles t ht
  by_cases hback : t = b.back
  · subst hback
    refine ⟨?_, fun i hi => ?_, ?_⟩
    · rw [htile, link_heap]
      refine hT.counted.addEdges hE (fun e he => ?_) hnew (fun i _ => ?_) fun i _ => ?_
      · exact ⟨hf.links _ (mem_linkEdges he).1, hf.links _ (mem_linkEdges he).2⟩
      · rw [hinst]
      · rw [hinst]
    · rw [htile] at hi
      rw [link_heap, hinst]
      exact hT.owner i hi
    · rw [htile]
      exact hT.nrInsts
  · refine hT.frame (by rw [htile]) fun i hi => ?_
    rw [link_heap, CoreHeap.foldl_addChild_inst_of_ne]
    intro e he
    have hTb := hb.tiles _ (back_mem_tileVec b)
    have hother : ∀ j, j ∈ (b.st.heap.tile b.back).instructions → i ≠ j := by
      rintro j hj rfl
      exact hback ((hT.owner i hi).symm.trans (hTb.owner i hj))
    exact ⟨hother _ (hf.links _ (mem_linkEdges he).1), hother _ (hf.links _ (mem_linkEdges he).2)⟩

/-! ## Inner loops -/

/-- The edges that a splice adds. -/
def spliceEdges (last : Option ℕ) (l : List ℕ) : List (ℕ × ℕ) :=
  match last with
  | some a => l.map (a, ·)
  | none => []

theorem mem_spliceEdges {l : List ℕ} {e : ℕ × ℕ} :
    e ∈ spliceEdges last l ↔ last = some e.1 ∧ e.2 ∈ l := by
  unfold spliceEdges
  cases last with
  | none => simp
  | some a =>
      obtain ⟨i, j⟩ := e
      simp only [List.mem_map, Prod.mk.injEq, Option.some.injEq]
      constructor
      · rintro ⟨k, hk, rfl, rfl⟩
        exact ⟨rfl, hk⟩
      · rintro ⟨rfl, hj⟩
        exact ⟨j, hj, rfl, rfl⟩

theorem nodup_spliceEdges {l : List ℕ} (hl : l.Nodup) : (spliceEdges last l).Nodup := by
  unfold spliceEdges
  cases last with
  | none => exact List.nodup_nil
  | some a => exact hl.map fun i j hij => (Prod.mk.inj hij).2

/-- What a splice does to instructions: those it moves get a new owner, and the edges from the
last instruction are added. -/
theorem splice_inst (back : ℕ) (l : List ℕ) (h : CoreHeap ℕ ℕ) (hl : l.Nodup)
    (hlast : ∀ a, last = some a → a ∉ l ∧ ∀ j ∈ l, j ∉ (h.inst a).childInst) (k : ℕ) :
    (splice back last l h).inst k = { h.inst k with
      owner := if k ∈ l then back else (h.inst k).owner
      readyCounter := (h.inst k).readyCounter + (parents (spliceEdges last l) k).length
      childInst := (h.inst k).childInst ++ children (spliceEdges last l) k } := by
  induction l generalizing h with
  | nil => cases last <;> simp [splice, spliceEdges, parents, children]
  | cons i l ih =>
      obtain ⟨hi, hl⟩ := List.nodup_cons.mp hl
      have hstep : splice back last (i :: l) h = splice back last l (spliceOne back last h i) :=
        rfl
      have hone : ∀ k, (spliceOne back last h i).inst k = { h.inst k with
          owner := if k = i then back else (h.inst k).owner
          readyCounter := (h.inst k).readyCounter + (parents (spliceEdges last [i]) k).length
          childInst := (h.inst k).childInst ++ children (spliceEdges last [i]) k } := by
        intro k
        have happend : (h.appendInstruction back i).inst k = { h.inst k with
            owner := if k = i then back else (h.inst k).owner } := by
          by_cases hk : k = i
          · subst hk
            simp
          · simp [h.appendInstruction_inst_of_ne back hk, hk]
        cases last with
        | none => simpa [spliceOne, spliceEdges, parents, children] using happend
        | some a =>
            obtain ⟨hne, hfree⟩ := hlast a rfl
            have hne' : a ≠ i := fun heq => hne (heq ▸ List.mem_cons_self)
            have hnew : i ∉ ((h.appendInstruction back i).inst a).childInst := by
              rw [h.appendInstruction_inst_of_ne back hne']
              exact hfree i List.mem_cons_self
            change ((h.appendInstruction back i).addChild a i).inst k = _
            rw [CoreHeap.addChild_inst _ hnew, happend]
            change _ = { h.inst k with
              owner := if k = i then back else (h.inst k).owner
              readyCounter := (h.inst k).readyCounter + (parents [(a, i)] k).length
              childInst := (h.inst k).childInst ++ children [(a, i)] k }
            rw [length_parents_cons, children_cons]
            simp [parents, children]
      have hrest : ∀ a, last = some a → a ∉ l ∧
          ∀ j ∈ l, j ∉ ((spliceOne back last h i).inst a).childInst := by
        intro a ha
        obtain ⟨hne, hfree⟩ := hlast a ha
        refine ⟨fun hmem => hne (List.mem_cons_of_mem _ hmem), fun j hj => ?_⟩
        rw [hone, List.mem_append, mem_children, mem_spliceEdges, not_or]
        refine ⟨hfree j (List.mem_cons_of_mem _ hj), fun hmem => hi ?_⟩
        exact List.mem_singleton.mp hmem.2 ▸ hj
      have hsplit : spliceEdges last (i :: l) = spliceEdges last [i] ++ spliceEdges last l := by
        cases last <;> rfl
      rw [hstep, ih _ hl hrest, hone, hsplit, parents_append, children_append, List.length_append]
      by_cases hk : k = i
      · subst hk
        simp [hi, Nat.add_assoc]
      · simp [hk, Nat.add_assoc]

/-- The instructions of different tiles are different. -/
theorem counted_flatMap (L : List ℕ) (hL : L.Nodup) (hT : ∀ t ∈ L, TileInsts h t) :
    Counted (L.flatMap fun t => (h.tile t).instructions) (fun i => (h.inst i).childInst)
      fun i => (h.inst i).readyCounter := by
  induction L with
  | nil => exact .nil
  | cons t L ih =>
      obtain ⟨ht, hL⟩ := List.nodup_cons.mp hL
      have hrest := ih hL fun u hu => hT u (List.mem_cons_of_mem t hu)
      have hhead := hT t List.mem_cons_self
      refine Counted.append hhead.counted hrest fun i hi hi' => ?_
      obtain ⟨u, hu, hiu⟩ := List.mem_flatMap.mp hi'
      have hother := hT u (List.mem_cons_of_mem t hu)
      exact ht ((hhead.owner i hi).symm.trans (hother.owner i hiu) ▸ hu)

/-- The instructions while the iterations of a loop are added. -/
structure LoopInsts (child : ℕ) (last : Option ℕ) (b : BodyState) : Prop where
  tiles : ∀ t ∈ b.tileVec, TileInsts b.st.heap t
  child_empty : (b.st.heap.tile child).nrInsts = 0
  last_mem : ∀ a, last = some a → a ∈ (b.st.heap.tile b.back).instructions

theorem BodyInsts.enterLoop (hb : BodyInsts b) (hf : BodyFrame st₀ b) :
    LoopInsts b.st.nextTile
      (b.enterLoop.st.heap.tile b.enterLoop.back).instructions.getLast? b.enterLoop := by
  refine ⟨fun t ht => ?_, ?_, fun a ha => List.mem_of_getLast? ha⟩
  · have hmem := (mem_enterLoop b).mp ht
    have hlt := (hf.tiles t hmem).2
    refine (hb.link hf t hmem).frame ?_ fun i _ => rfl
    rw [enterLoop_tile, if_neg (by omega), link_heap, CoreHeap.foldl_addChild_tile]
  · rw [enterLoop_tile, if_pos rfl]

/-- **The instructions of an inner loop enter the tile before it.** -/
theorem LoopInsts.addInner (hJ : LoopInsts child last b) (hf : LoopFrame st₀ child last b)
    (hret : BodyFrame b.st ret) (hnodup : ret.tileVec.Nodup)
    (htiles : ∀ t ∈ ret.tileVec, TileInsts ret.st.heap t) :
    LoopInsts child last (b.addIteration .innerLoop child last ret) := by
  have hkeepT : ∀ t < b.st.nextTile, ret.st.heap.tile t = b.st.heap.tile t := hret.tile
  have hkeepI : ∀ i < b.st.nextInst, ret.st.heap.inst i = b.st.heap.inst i := hret.inst
  have hback := back_mem_tileVec b
  have hlt : ∀ t ∈ b.tileVec, t < b.st.nextTile := fun t ht => (hf.tiles t ht).2
  -- the tiles of the body, unchanged so far
  have hold : ∀ t ∈ b.tileVec, TileInsts ret.st.heap t := fun t ht =>
    (hJ.tiles t ht).frame (hkeepT t (hlt t ht)) fun i hi => hkeepI i (hf.insts t ht i hi).2
  have hinsts : ∀ t ∈ b.tileVec, ∀ i ∈ (ret.st.heap.tile t).instructions, i < b.st.nextInst := by
    intro t ht i hi
    rw [hkeepT t (hlt t ht)] at hi
    exact (hf.insts t ht i hi).2
  set l := ret.tileVec.flatMap fun t => (ret.st.heap.tile t).instructions with hl
  have hmoved : ∀ i ∈ l, b.st.nextInst ≤ i := by
    intro i hi
    obtain ⟨t, ht, hi⟩ := List.mem_flatMap.mp hi
    exact (hret.insts t ht i hi).1
  have hcounted := counted_flatMap ret.tileVec hnodup htiles
  rw [← hl] at hcounted
  have hlast : ∀ a, last = some a → a ∈ (ret.st.heap.tile b.back).instructions := by
    intro a ha
    rw [hkeepT _ (hlt _ hback)]
    exact hJ.last_mem a ha
  have hpre : ∀ a, last = some a → a ∉ l ∧ ∀ j ∈ l, j ∉ (ret.st.heap.inst a).childInst := by
    intro a ha
    refine ⟨fun hmem => ?_, fun j hj hmem => ?_⟩
    · have h₁ := hinsts _ hback a (hlast a ha)
      have h₂ := hmoved a hmem
      omega
    · have hin := (hold _ hback).counted.child_mem a (hlast a ha) j hmem
      have h₁ := hinsts _ hback j hin
      have h₂ := hmoved j hj
      omega
  have hsplice := splice_inst b.back l ret.st.heap hcounted.nodup hpre
  have htile := (splice_frame b.back last l ret.st.heap).1
  have hheap : (b.addIteration .innerLoop child last ret).st.heap =
      splice b.back last l ret.st.heap := rfl
  have hbackInsts : ((splice b.back last l ret.st.heap).tile b.back).instructions =
      (ret.st.heap.tile b.back).instructions ++ l := by
    rw [htile]
    simp
  have hother : ∀ t, t ≠ b.back →
      (splice b.back last l ret.st.heap).tile t = ret.st.heap.tile t := by
    intro t ht
    rw [htile]
    simp [ht]
  refine ⟨fun t ht => ?_, ?_, fun a ha => ?_⟩
  · have hT := hold t ht
    rw [hheap]
    by_cases hb : t = b.back
    · subst hb
      refine ⟨?_, fun i hi => ?_, ?_⟩
      · rw [hbackInsts]
        have hjoin : Counted ((ret.st.heap.tile b.back).instructions ++ l)
            (fun i => (ret.st.heap.inst i).childInst) fun i => (ret.st.heap.inst i).readyCounter := by
          refine hT.counted.append hcounted fun i hi hi' => ?_
          have h₁ := hinsts _ ht i hi
          have h₂ := hmoved i hi'
          omega
        refine hjoin.addEdges (E := spliceEdges last l) (nodup_spliceEdges hcounted.nodup)
          (fun e he => ?_) (fun e he => ?_) (fun i _ => ?_) fun i _ => ?_
        · obtain ⟨h₁, h₂⟩ := mem_spliceEdges.mp he
          exact ⟨List.mem_append_left _ (hlast _ h₁), List.mem_append_right _ h₂⟩
        · obtain ⟨h₁, h₂⟩ := mem_spliceEdges.mp he
          exact (hpre _ h₁).2 _ h₂
        · rw [hsplice]
        · rw [hsplice]
      · rw [hbackInsts, List.mem_append] at hi
        rw [hsplice]
        by_cases hmem : i ∈ l
        · simp [hmem]
        · simp [hmem, hT.owner i (hi.resolve_right hmem)]
      · rw [htile]
        simp [hT.nrInsts]
    · refine hT.congr ?_ ?_ fun i hi => ?_
      · rw [hother t hb]
      · rw [hother t hb]
      · rw [(splice_frame b.back last l ret.st.heap).2 i]
        · exact ⟨rfl, rfl, rfl⟩
        · intro hmem
          have h₁ := hinsts t ht i hi
          have h₂ := hmoved i hmem
          omega
        · intro ha
          exact hb ((hT.owner i hi).symm.trans ((hold _ hback).owner i (hlast i ha)))
  · have hne : child ≠ b.back := fun heq => hf.child_out (heq ▸ hback)
    rw [hheap, hother child hne, hkeepT child hf.child_new.2]
    exact hJ.child_empty
  · change a ∈ ((splice b.back last l ret.st.heap).tile b.back).instructions
    rw [hbackInsts]
    exact List.mem_append_left _ (hlast a ha)

/-- The tiles of another loop are kept as they are. -/
theorem LoopInsts.addOuter (hJ : LoopInsts child last b) (hf : LoopFrame st₀ child last b)
    (hret : BodyFrame b.st ret) (htiles : ∀ t ∈ ret.tileVec, TileInsts ret.st.heap t)
    (hne : loopType ≠ .innerLoop) :
    LoopInsts child last (b.addIteration loopType child last ret) := by
  have hback := back_mem_tileVec b
  have hlt : ∀ t ∈ b.tileVec, t < b.st.nextTile := fun t ht => (hf.tiles t ht).2
  have heq : b.addIteration loopType child last ret = { b with
      st := { ret.st with
        heap := (ret.st.heap.appendChildTile b.back ret.front).appendChildTile ret.back child
        iterations := ret.st.iterations ++ [⟨ret.tileVec, child⟩] }
      done := b.done ++ ret.tileVec } := if_neg hne
  have htile : ∀ t, ((b.addIteration loopType child last ret).st.heap.tile t).instructions =
        (ret.st.heap.tile t).instructions ∧
      ((b.addIteration loopType child last ret).st.heap.tile t).nrInsts =
        (ret.st.heap.tile t).nrInsts := by
    intro t
    rw [heq]
    simp only [CoreHeap.appendChildTile_tile, and_self]
  have hinst : (b.addIteration loopType child last ret).st.heap.inst = ret.st.heap.inst := by
    rw [heq]
    rfl
  refine ⟨fun t ht => ?_, ?_, fun a ha => ?_⟩
  · have hcases : t ∈ b.tileVec ∨ t ∈ ret.tileVec := by
      rw [heq] at ht
      simp only [BodyState.tileVec, List.mem_append] at ht ⊢
      tauto
    have hT : TileInsts ret.st.heap t := by
      rcases hcases with ht | ht
      · exact (hJ.tiles t ht).frame (hret.tile t (hlt t ht))
          fun i hi => hret.inst i (hf.insts t ht i hi).2
      · exact htiles t ht
    refine hT.congr (htile t).1 (htile t).2 fun i _ => ?_
    rw [hinst]
    exact ⟨rfl, rfl, rfl⟩
  · rw [(htile child).2, hret.tile child hf.child_new.2]
    exact hJ.child_empty
  · have hbk : (b.addIteration loopType child last ret).back = b.back := by rw [heq]
    rw [hbk, (htile b.back).1, hret.tile _ (hlt _ hback)]
    exact hJ.last_mem a ha

/-- **Every body keeps the counters of its instructions exact**, if no node lists a child
twice. -/
theorem bodyInsts_rule : ExpansionRule (fun _ child => child.Nodup)
    (fun st b => (BodyFrame st b ∧ BodyShape b) ∧ BodyInsts b)
    fun st _ child last b => (LoopFrame st child last b ∧ LoopShape child b) ∧
      LoopInsts child last b where
  start st := by
    refine ⟨bodyShape_rule.start st, fun t ht => ?_, ?_, ?_, ?_⟩
    · have heq : t = st.nextTile := by
        simpa [BodyState.tileVec, BodyState.start, ParserState.newTile] using ht
      subst heq
      refine TileInsts.empty ?_ ?_ <;> simp [BodyState.start, ParserState.newTile]
    · simp [BodyState.start]
    · simp [BodyState.start]
    · simp [BodyState.start]
  leaf st b b' iter id child hQ hI hstep := by
    refine ⟨bodyShape_rule.leaf st b b' iter id child trivial hI.1 hstep, ?_⟩
    obtain ⟨⟨hf, -⟩, hb⟩ := hI
    cases hstep with
    | dropped st' hsame hrecord =>
        refine ⟨fun t ht => ?_, fun i hi => ?_, hb.links_nodup, hb.child_nodup⟩
        · simp only [hsame.heap]
          exact hb.tiles t ht
        · simp only [hsame.heap]
          exact hb.unlinked i hi
    | appended st' inst hsame hrecord hnew =>
        have hnext : st'.nextInst = b.st.nextInst := hsame.nextInst
        have hfresh : ∀ t ∈ b.tileVec, ∀ i ∈ (b.st.heap.tile t).instructions,
            i ≠ b.st.nextInst := fun t ht i hi => Nat.ne_of_lt (hf.insts t ht i hi).2
        have hnewInst : ({ b with st := st' }.append id child iter inst).st.heap.inst
            b.st.nextInst = { inst with id := b.st.nextInst, owner := b.back } := by
          rw [append_inst, if_pos hnext.symm, hnext]
        have hkeep : ∀ i, i ≠ b.st.nextInst →
            ({ b with st := st' }.append id child iter inst).st.heap.inst i =
              b.st.heap.inst i := by
          intro i hi
          rw [append_inst, if_neg (by rw [hnext]; exact hi), hsame.heap]
        refine ⟨fun t ht => ?_, fun i hi => ?_, ?_, ?_⟩
        · have hT := hb.tiles t ht
          have hsameInst : ∀ i ∈ (b.st.heap.tile t).instructions,
              ({ b with st := st' }.append id child iter inst).st.heap.inst i =
                b.st.heap.inst i := fun i hi => hkeep i (hfresh t ht i hi)
          by_cases htb : t = b.back
          · subst htb
            have hinsts : (({ b with st := st' }.append id child iter inst).st.heap.tile
                b.back).instructions = (b.st.heap.tile b.back).instructions ++
                  [b.st.nextInst] := by
              rw [append_tile, hnext, hsame.heap]
              simp
            refine ⟨?_, fun i hi => ?_, ?_⟩
            · rw [hinsts]
              refine Counted.append (hT.counted.congr ?_ ?_) (Counted.single ?_ ?_) ?_
              · exact fun i hi => by rw [hsameInst i hi]
              · exact fun i hi => by rw [hsameInst i hi]
              · rw [hnewInst]
                exact hnew.childInst
              · rw [hnewInst]
                exact hnew.readyCounter
              · intro i hi hi'
                exact hfresh _ ht i hi (List.mem_singleton.mp hi')
            · rw [hinsts, List.mem_append, List.mem_singleton] at hi
              rcases hi with hi | rfl
              · rw [hsameInst i hi]
                exact hT.owner i hi
              · rw [hnewInst]
            · rw [hinsts, append_tile, hsame.heap]
              simp [hT.nrInsts]
          · refine hT.frame ?_ hsameInst
            rw [append_tile, hsame.heap]
            simp [htb]
        · change i ∈ (b.linkMap ++ [LinkEntry.mk id child st'.nextInst]).map (·.inst) at hi
          rw [List.map_append, List.mem_append] at hi
          rcases hi with hi | hi
          · rw [hkeep i (hfresh _ (back_mem_tileVec b) i (hf.links i hi))]
            exact hb.unlinked i hi
          · obtain rfl : i = st'.nextInst := by simpa using hi
            rw [hnext, hnewInst]
            exact hnew.childInst
        · change ((b.linkMap ++ [LinkEntry.mk id child st'.nextInst]).map (·.inst)).Nodup
          rw [List.map_append, List.nodup_append']
          refine ⟨hb.links_nodup, List.nodup_singleton _, fun i hi hi' => ?_⟩
          obtain rfl : i = st'.nextInst := by simpa using hi'
          exact hfresh _ (back_mem_tileVec b) _ (hf.links _ hi) hnext
        · intro e he
          rcases List.mem_append.mp he with he | he
          · exact hb.child_nodup e he
          · rw [List.mem_singleton.mp he]
            exact hQ
  enter st b loopType hI :=
    ⟨bodyShape_rule.enter st b loopType hI.1, hI.2.enterLoop hI.1.1⟩
  iterate st loopType child last b ret hJ hret := by
    refine ⟨bodyShape_rule.iterate st loopType child last b ret hJ.1 hret.1, ?_⟩
    have htiles := hret.2.link hret.1.1
    by_cases hinner : loopType = .innerLoop
    · subst hinner
      exact hJ.2.addInner hJ.1.1 hret.1.1.link hret.1.2.counted.nodup htiles
    · exact hJ.2.addOuter hJ.1.1 hret.1.1.link htiles hinner
  exit st loopType child last b hJ := by
    obtain ⟨⟨hf, hshape⟩, hJ'⟩ := hJ
    have htile : ∀ t, ((b.exitLoop child).st.heap.tile t).instructions =
          (b.st.heap.tile t).instructions ∧
        ((b.exitLoop child).st.heap.tile t).nrInsts = (b.st.heap.tile t).nrInsts := by
      intro t
      simp only [BodyState.exitLoop, CoreHeap.appendChildTile_tile, and_self]
    have hlinks : (b.exitLoop child).linkMap = [] := hf.unlinked
    refine ⟨bodyShape_rule.exit st loopType child last b ⟨hf, hshape⟩, fun t ht => ?_, ?_, ?_, ?_⟩
    · rcases List.mem_append.mp ht with ht | ht
      · exact (hJ'.tiles t (List.mem_append_left _ ht)).congr (htile t).1 (htile t).2
          fun i _ => ⟨rfl, rfl, rfl⟩
      · obtain rfl : t = child := List.mem_singleton.mp ht
        refine TileInsts.empty ?_ ?_
        · rw [(htile t).1]
          exact hf.child_free
        · rw [(htile t).2]
          exact hJ'.child_empty
    · rw [hlinks]
      simp
    · rw [hlinks]
      simp
    · rw [hlinks]
      simp

end PyTorchSim.Analysis
