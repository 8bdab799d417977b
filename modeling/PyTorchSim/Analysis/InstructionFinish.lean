import PyTorchSim.Model.Core

/-!
# What finishing an instruction does to the objects of a core

Finishing an instruction lowers the ready counter of each of its children by one, appends
the children whose counter reaches 0 to the ready queue of their tile, and sets its flag.
The other operations on the objects, `popReady` and `skipMatmuls`, are described here too.
-/

set_option autoImplicit false

namespace PyTorchSim.Model

/-- Setting the flag of one element of a list without repetition. -/
theorem countP_finish {ι : Type} [DecidableEq ι] {i : ι} {l : List ι} {f g : ι → Bool}
    (hl : l.Nodup) (hi : i ∈ l) (hf : f i = false) (hg : g i = true)
    (hother : ∀ j ∈ l, j ≠ i → g j = f j) :
    l.countP g = l.countP f + 1 := by
  induction l with
  | nil => exact absurd hi List.not_mem_nil
  | cons a l ih =>
      obtain ⟨ha, hl⟩ := List.nodup_cons.mp hl
      by_cases hai : a = i
      · subst hai
        have hrest : l.countP g = l.countP f := by
          apply List.countP_congr
          intro j hj
          have hne : j ≠ a := fun heq => ha (heq ▸ hj)
          rw [hother j (List.mem_cons_of_mem a hj) hne]
        rw [List.countP_cons_of_pos hg, List.countP_cons_of_neg (by simp [hf]), hrest]
      · have hil : i ∈ l := (List.mem_cons.mp hi).resolve_left (Ne.symm hai)
        have hrest := ih hl hil fun j hj => hother j (List.mem_cons_of_mem a hj)
        have hhead := hother a List.mem_cons_self hai
        rw [List.countP_cons, List.countP_cons, hhead, hrest]
        omega

namespace CoreHeap

variable {τ ι : Type} [DecidableEq τ] [DecidableEq ι] {h : CoreHeap τ ι} {i j : ι} {t : τ}

omit [DecidableEq τ] in
@[simp] theorem setInst_tile (h : CoreHeap τ ι) (i : ι) (v : Instruction τ ι) :
    (h.setInst i v).tile = h.tile := rfl

omit [DecidableEq ι] in
@[simp] theorem setTile_inst (h : CoreHeap τ ι) (t : τ) (v : Tile τ ι) :
    (h.setTile t v).inst = h.inst := rfl

omit [DecidableEq τ] in
@[simp] theorem setInst_inst_self (h : CoreHeap τ ι) (i : ι) (v : Instruction τ ι) :
    (h.setInst i v).inst i = v := by
  simp [setInst]

omit [DecidableEq τ] in
theorem setInst_inst_of_ne (h : CoreHeap τ ι) (v : Instruction τ ι) (hne : j ≠ i) :
    (h.setInst i v).inst j = h.inst j := by
  simp [setInst, hne]

omit [DecidableEq ι] in
@[simp] theorem setTile_tile_self (h : CoreHeap τ ι) (t : τ) (v : Tile τ ι) :
    (h.setTile t v).tile t = v := by
  simp [setTile]

omit [DecidableEq ι] in
theorem setTile_tile_of_ne (h : CoreHeap τ ι) {u : τ} (v : Tile τ ι) (hne : u ≠ t) :
    (h.setTile t v).tile u = h.tile u := by
  simp [setTile, hne]

/-- The children of a list that become ready when their counters are lowered, for one tile. -/
def readied (h : CoreHeap τ ι) (l : List ι) (t : τ) : List ι :=
  l.filter fun j => (h.inst j).decremented = 0 ∧ (h.inst j).owner = t

/-- Lowering the counters of a list of different instructions. -/
theorem foldl_decReadyCounter (l : List ι) (h : CoreHeap τ ι) (hl : l.Nodup) :
    (∀ j, (l.foldl decReadyCounter h).inst j =
      if j ∈ l then { h.inst j with readyCounter := (h.inst j).decremented } else h.inst j) ∧
    ∀ t, (l.foldl decReadyCounter h).tile t =
      { h.tile t with readyQueue := (h.tile t).readyQueue ++ h.readied l t } := by
  induction l generalizing h with
  | nil => simp [readied]
  | cons i l ih =>
      obtain ⟨hi, hl⟩ := List.nodup_cons.mp hl
      have hinst : ∀ j, (h.decReadyCounter i).inst j =
          if j = i then { h.inst i with readyCounter := (h.inst i).decremented } else h.inst j := by
        intro j
        unfold decReadyCounter enqueueReady
        by_cases h0 : (h.inst i).decremented = 0 <;> by_cases hj : j = i
        · subst hj
          simp [h0]
        · simp [h0, setInst_inst_of_ne _ _ hj, hj]
        · subst hj
          simp [h0]
        · simp [h0, setInst_inst_of_ne _ _ hj, hj]
      have htile : ∀ t, (h.decReadyCounter i).tile t =
          { h.tile t with readyQueue := (h.tile t).readyQueue ++ h.readied [i] t } := by
        intro t
        unfold decReadyCounter enqueueReady readied
        by_cases h0 : (h.inst i).decremented = 0
        · by_cases ht : t = (h.inst i).owner
          · subst ht
            simp [h0]
          · rw [if_pos h0, setTile_tile_of_ne]
            · simp [Ne.symm ht]
            · simpa using ht
        · simp [h0]
      have hkeep : ∀ j ∈ l, (h.decReadyCounter i).inst j = h.inst j := by
        intro j hj
        have hne : j ≠ i := fun heq => hi (heq ▸ hj)
        rw [hinst j, if_neg hne]
      obtain ⟨ihinst, ihtile⟩ := ih (h.decReadyCounter i) hl
      refine ⟨fun j => ?_, fun t => ?_⟩
      · rw [List.foldl_cons, ihinst j]
        by_cases hj : j ∈ l
        · rw [if_pos hj, if_pos (List.mem_cons_of_mem i hj), hkeep j hj]
        · rw [if_neg hj, hinst j]
          by_cases hji : j = i
          · subst hji
            simp
          · simp [hj, hji]
      · rw [List.foldl_cons, ihtile t, htile t]
        have hready : (h.decReadyCounter i).readied l t = h.readied l t := by
          unfold readied
          exact List.filter_congr fun j hj => by rw [hkeep j hj]
        have hcons : h.readied (i :: l) t = h.readied [i] t ++ h.readied l t := by
          unfold readied
          rw [← List.filter_append]
          rfl
        rw [hready, hcons]
        simp

/-- Lowering the counters of any list of instructions changes ready counters and ready queues. -/
theorem foldl_decReadyCounter_frame (l : List ι) (h : CoreHeap τ ι) :
    (∀ j, ∃ n, (l.foldl decReadyCounter h).inst j = { h.inst j with readyCounter := n }) ∧
    ∀ t, ∃ q, (l.foldl decReadyCounter h).tile t = { h.tile t with readyQueue := q } := by
  induction l generalizing h with
  | nil => exact ⟨fun j => ⟨_, rfl⟩, fun t => ⟨_, rfl⟩⟩
  | cons i l ih =>
      obtain ⟨ihinst, ihtile⟩ := ih (h.decReadyCounter i)
      have hinst : ∀ j, ∃ n, (h.decReadyCounter i).inst j = { h.inst j with readyCounter := n } := by
        intro j
        refine ⟨if j = i then (h.inst i).decremented else (h.inst j).readyCounter, ?_⟩
        unfold decReadyCounter enqueueReady
        by_cases hj : j = i
        · subst hj
          by_cases h0 : (h.inst j).decremented = 0 <;> simp [h0]
        · by_cases h0 : (h.inst i).decremented = 0 <;> simp [h0, setInst_inst_of_ne _ _ hj, hj]
      have htile : ∀ t, ∃ q, (h.decReadyCounter i).tile t = { h.tile t with readyQueue := q } := by
        intro t
        unfold decReadyCounter enqueueReady
        by_cases h0 : (h.inst i).decremented = 0
        · by_cases ht : t = (h.inst i).owner
          · subst ht
            exact ⟨(h.tile (h.inst i).owner).readyQueue ++ [i], by simp [h0]⟩
          · exact ⟨_, by rw [if_pos h0, setTile_tile_of_ne _ _ (by simpa using ht)]; rfl⟩
        · exact ⟨_, by rw [if_neg h0]; rfl⟩
      refine ⟨fun j => ?_, fun t => ?_⟩
      · obtain ⟨m, hm⟩ := hinst j
        obtain ⟨n, hn⟩ := ihinst j
        exact ⟨n, by rw [List.foldl_cons, hn, hm]⟩
      · obtain ⟨p, hp⟩ := htile t
        obtain ⟨q, hq⟩ := ihtile t
        exact ⟨q, by rw [List.foldl_cons, hq, hp]⟩

/-- Finishing an instruction sets its flag and counts it for its tile; besides that it changes
ready counters and ready queues only. -/
theorem finish_frame (h : CoreHeap τ ι) (i : ι) :
    (∀ j, ∃ n, (h.finish i).inst j =
      { h.inst j with readyCounter := n, finished := decide (j = i) || (h.inst j).finished }) ∧
    ∀ t, ∃ q, (h.finish i).tile t = { h.tile t with
      readyQueue := q
      nrFinishedInsts := (h.tile t).nrFinishedInsts + if t = (h.inst i).owner then 1 else 0 } := by
  obtain ⟨hinst, htile⟩ := foldl_decReadyCounter_frame (h.inst i).childInst h
  have howner : (((h.inst i).childInst.foldl decReadyCounter h).inst i).owner = (h.inst i).owner := by
    obtain ⟨n, hn⟩ := hinst i
    rw [hn]
  unfold finish finishInstruction
  refine ⟨fun j => ?_, fun t => ?_⟩
  · rw [setTile_inst]
    obtain ⟨n, hn⟩ := hinst j
    by_cases hj : j = i
    · subst hj
      exact ⟨n, by rw [setInst_inst_self, hn]; simp⟩
    · exact ⟨n, by rw [setInst_inst_of_ne _ _ hj, hn]; simp [hj]⟩
  · obtain ⟨q, hq⟩ := htile t
    simp only [setInst_inst_self, setInst_tile, howner]
    by_cases ht : t = (h.inst i).owner
    · subst ht
      exact ⟨q, by rw [setTile_tile_self, hq]; simp [Tile.incFinishedInst]⟩
    · exact ⟨q, by rw [setTile_tile_of_ne _ _ ht, setInst_tile, hq]; simp [ht]⟩

/-- The instructions after one is finished. -/
theorem finish_inst (hc : (h.inst i).childInst.Nodup) (hi : i ∉ (h.inst i).childInst) (j : ι) :
    (h.finish i).inst j =
      if j = i then { h.inst i with finished := true }
      else if j ∈ (h.inst i).childInst then
        { h.inst j with readyCounter := (h.inst j).decremented }
      else h.inst j := by
  obtain ⟨hinst, -⟩ := foldl_decReadyCounter (h.inst i).childInst h hc
  have hself := hinst i
  rw [if_neg hi] at hself
  unfold finish finishInstruction
  rw [setTile_inst]
  by_cases hj : j = i
  · subst hj
    rw [setInst_inst_self, hself, if_pos rfl]
  · rw [setInst_inst_of_ne _ _ hj, hinst j, if_neg hj]

/-- The tiles after an instruction is finished. -/
theorem finish_tile (hc : (h.inst i).childInst.Nodup) (hi : i ∉ (h.inst i).childInst) (t : τ) :
    (h.finish i).tile t = { h.tile t with
      readyQueue := (h.tile t).readyQueue ++ h.readied (h.inst i).childInst t
      nrFinishedInsts := (h.tile t).nrFinishedInsts +
        if t = (h.inst i).owner then 1 else 0 } := by
  obtain ⟨hinst, htile⟩ := foldl_decReadyCounter (h.inst i).childInst h hc
  have hself := hinst i
  rw [if_neg hi] at hself
  unfold finish finishInstruction
  simp only [setInst_inst_self, setInst_tile, hself]
  by_cases ht : t = (h.inst i).owner
  · subst ht
    rw [setTile_tile_self, htile]
    simp [Tile.incFinishedInst]
  · rw [setTile_tile_of_ne _ _ ht, setInst_tile, htile]
    simp [ht]

omit [DecidableEq ι] in
@[simp] theorem popReady_inst (h : CoreHeap τ ι) (t : τ) : (h.popReady t).inst = h.inst := rfl

omit [DecidableEq ι] in
theorem popReady_tile (h : CoreHeap τ ι) (t u : τ) :
    (h.popReady t).tile u = { h.tile u with
      readyQueue := if u = t then (h.tile u).readyQueue.tail else (h.tile u).readyQueue } := by
  unfold popReady
  by_cases hu : u = t
  · subst hu
    simp
  · simp [setTile_tile_of_ne _ _ hu, hu]

/-- Finishing appends to ready queues, so the front may leave before or after it. -/
theorem popReady_finish (hc : (h.inst i).childInst.Nodup) (hi : i ∉ (h.inst i).childInst)
    (hq : (h.tile t).readyQueue ≠ []) : (h.finish i).popReady t = (h.popReady t).finish i := by
  have hinst : ((h.finish i).popReady t).inst = ((h.popReady t).finish i).inst := by
    funext j
    rw [popReady_inst, finish_inst hc hi, finish_inst (h := h.popReady t) hc hi]
    rfl
  have htile : ((h.finish i).popReady t).tile = ((h.popReady t).finish i).tile := by
    funext u
    rw [popReady_tile, finish_tile hc hi, finish_tile (h := h.popReady t) hc hi, popReady_tile]
    have hreadied : (h.popReady t).readied = h.readied := rfl
    by_cases hu : u = t
    · subst hu
      simp only [hreadied, popReady_inst, if_true, List.tail_append_of_ne_nil hq]
      rfl
    · simp only [hreadied, popReady_inst, if_neg hu]
      rfl
  have heta : ∀ a b : CoreHeap τ ι, a.inst = b.inst → a.tile = b.tile → a = b := by
    rintro ⟨a, b⟩ ⟨c, d⟩ h1 h2
    exact congrArg₂ CoreHeap.mk h2 h1
  exact heta _ _ hinst htile

omit [DecidableEq ι] in
/-- The ready instructions of a list enter the ready queue of a tile. -/
theorem foldl_enqueueReady (l : List ι) (h : CoreHeap τ ι) (t : τ) :
    let h' := l.foldl (fun h i => if (h.inst i).isReady then h.enqueueReady t i else h) h
    h'.inst = h.inst ∧ ∀ u, h'.tile u = { h.tile u with
      readyQueue := (h.tile u).readyQueue ++
        if u = t then l.filter (fun i => (h.inst i).isReady) else [] } := by
  induction l generalizing h with
  | nil => simp
  | cons i l ih =>
      simp only [List.foldl_cons]
      by_cases hi : (h.inst i).isReady
      · rw [if_pos hi]
        obtain ⟨hinst, htile⟩ := ih (h.enqueueReady t i)
        have hsame : (h.enqueueReady t i).inst = h.inst := rfl
        refine ⟨hinst, fun u => ?_⟩
        rw [htile u, hsame]
        have hcons : (i :: l).filter (fun i => (h.inst i).isReady) =
            i :: l.filter (fun i => (h.inst i).isReady) := by simp [hi]
        rw [hcons]
        unfold enqueueReady
        by_cases hu : u = t
        · subst hu
          simp
        · simp [setTile_tile_of_ne _ _ hu, hu]
      · have hcons : (i :: l).filter (fun i => (h.inst i).isReady) =
            l.filter (fun i => (h.inst i).isReady) := by simp [hi]
        rw [if_neg hi, hcons]
        exact ih h

omit [DecidableEq τ] in
/-- Clearing the compute cycles of matrix multiplications changes nothing else. -/
theorem skipMatmuls_spec (l : List ι) (h : CoreHeap τ ι) :
    (Core.skipMatmuls h l).tile = h.tile ∧
      ∀ j, ∃ n, (Core.skipMatmuls h l).inst j = { h.inst j with computeCycle := n } := by
  induction l generalizing h with
  | nil => exact ⟨rfl, fun j => ⟨(h.inst j).computeCycle, rfl⟩⟩
  | cons i l ih =>
      unfold Core.skipMatmuls at ih ⊢
      rw [List.foldl_cons]
      by_cases hm : (h.inst i).opcode = .comp ∧ (h.inst i).computeType = MATMUL
      · rw [if_pos hm]
        obtain ⟨htile, hinst⟩ := ih (h.setInst i { h.inst i with computeCycle := 0 })
        refine ⟨htile, fun j => ?_⟩
        obtain ⟨n, hn⟩ := hinst j
        refine ⟨n, hn.trans ?_⟩
        by_cases hj : j = i
        · subst hj
          simp
        · rw [setInst_inst_of_ne _ _ hj]
      · rw [if_neg hm]
        exact ih h

end CoreHeap

end PyTorchSim.Model
