import PyTorchSim.Analysis.TagHistory

/-!
# The tag table over whole runs

Each step of a core keeps `TagInv` if the tags are used in order.  A step of the DMA engine
touches the table only when the data of an asynchronous load arrives; the issue switch reads
it, registers a tag or appends a waiter.
-/

set_option autoImplicit false

namespace PyTorchSim.Analysis

open PyTorchSim.Model PyTorchSim.Library

variable {τ ι : Type} [DecidableEq τ] [DecidableEq ι] {P : TileProgram τ ι} {cfg : CoreConfig}
  {c c' : Core τ ι} {s : CoreSystem τ ι} {i j : ι} {t : τ}

omit [DecidableEq τ] [DecidableEq ι] in
theorem mem_transit : j ∈ c.transit ↔ j ∈ c.ldInstQueue ∨ j ∈ c.stInstQueue ∨
    c.dma.currentInst = some j ∨ j ∈ c.dmaWaitingQueue ∨ j ∈ c.dmaFinishedQueue := by
  unfold Core.transit
  simp only [List.mem_append, Option.mem_toList]
  tauto

omit [DecidableEq τ] in
/-- A step that leaves the table alone. -/
theorem TagInv.keep {l : List (CoreEvent τ ι)} (hT : TagInv P c) (hev : c'.events = c.events ++ l)
    (hl : ∀ e ∈ l, Harmless P c e) (htable : c'.dma.tagTable = c.dma.tagTable)
    (hwaiters : c'.dma.waiters = c.dma.waiters)
    (hin : ∀ i ∈ c'.transit, (kindOf P i).opcode = .movin → i ∈ c.transit)
    (hout : ∀ i ∈ c.transit, InstKind.isAsyncLoad (kindOf P i) = true → i ∈ c'.transit) :
    TagInv P c' := by
  refine hT.frame hev hl (fun g key => .inl ?_) hwaiters hin hout
  unfold DMA.tag
  rw [htable]

omit [DecidableEq τ] in
/-- A step that leaves the table alone and keeps the loads in transit. -/
theorem TagInv.still {l : List (CoreEvent τ ι)} (hT : TagInv P c) (hev : c'.events = c.events ++ l)
    (hl : ∀ e ∈ l, Harmless P c e) (htable : c'.dma.tagTable = c.dma.tagTable)
    (hwaiters : c'.dma.waiters = c.dma.waiters)
    (htransit : ∀ i, i ∈ c'.transit ↔ i ∈ c.transit) : TagInv P c' :=
  hT.keep hev hl htable hwaiters (fun i hi _ => (htransit i).mp hi)
    fun i hi _ => (htransit i).mpr hi

omit [DecidableEq τ] in
theorem CoreInv.not_load_of_write (hI : CoreInv P c) (hw : (c.heap.inst i).isDmaWrite = true) :
    InstKind.isAsyncLoad (kindOf P i) = false := by
  have hop := (hI.isWrite i).mp hw
  simp [InstKind.isAsyncLoad, hop]

omit [DecidableEq τ] in
theorem CoreInv.not_load_of_not_read (hI : CoreInv P c) (hr : (c.heap.inst i).isDmaRead = false) :
    InstKind.isAsyncLoad (kindOf P i) = false := by
  have hop : (kindOf P i).opcode ≠ .movin := by
    intro hop
    rw [(hI.isRead i).mpr hop] at hr
    cases hr
  simp [InstKind.isAsyncLoad, hop]

omit [DecidableEq τ] in
theorem CoreInv.not_load_of_sync (hI : CoreInv P c) (ha : (c.heap.inst i).isAsyncDma = false) :
    InstKind.isAsyncLoad (kindOf P i) = false := by
  rw [hI.isAsync] at ha
  simp [InstKind.isAsyncLoad, ha]

omit [DecidableEq τ] in
theorem isAsyncLoad_iff : InstKind.isAsyncLoad (kindOf P i) = true ↔
    (kindOf P i).opcode = .movin ∧ (kindOf P i).isAsyncDma = true ∧
      (kindOf P i).isSparseInst = false := by
  simp [InstKind.isAsyncLoad, and_assoc]

/-! ## The arrival of data -/

theorem events_finishAll (ws : List ι) (c : Core τ ι) :
    (ws.foldl Core.finish c).events = c.events ++ ws.map .instFinished ∧
      (ws.foldl Core.finish c).dma = c.dma ∧ (ws.foldl Core.finish c).transit = c.transit := by
  induction ws generalizing c with
  | nil => exact ⟨(List.append_nil _).symm, rfl, rfl⟩
  | cons w ws ih =>
      obtain ⟨hev, hdma, htransit⟩ := ih (c.finish w)
      refine ⟨?_, hdma, htransit⟩
      rw [List.foldl_cons, hev]
      change (c.events ++ [.instFinished w]) ++ _ = _
      rw [List.append_assoc]
      rfl

omit [DecidableEq τ] in
/-- Another load in transit has another tag. -/
theorem CoreInv.tag_ne (hI : CoreInv P c) {rest : List ι} (hperm : c.transit.Perm (i :: rest))
    (hi : InstKind.isAsyncLoad (kindOf P i) = true) (hj : j ∈ rest)
    (ha : InstKind.isAsyncLoad (kindOf P j) = true) : tagOf P j ≠ tagOf P i := by
  intro heq
  have hnodup := hI.transit.unique
  have hflights : (flights P c).Perm ((i :: rest).filterMap fun i => loadTag (kindOf P i)) :=
    hperm.filterMap _
  have hcons : (i :: rest).filterMap (fun i => loadTag (kindOf P i)) =
      tagOf P i :: rest.filterMap fun i => loadTag (kindOf P i) :=
    List.filterMap_cons_some (loadTag_of_async hi)
  rw [hflights.nodup_iff, hcons, List.nodup_cons] at hnodup
  apply hnodup.1
  rw [List.mem_filterMap]
  exact ⟨j, hj, by rw [loadTag_of_async ha, heq]⟩

omit [DecidableEq τ] in
/-- The data of an asynchronous load arrives and its waiters are finished. -/
theorem TagInv.arrive (hI : CoreInv P c) (hT : TagInv P c) {rest ws : List ι}
    (hq : c.dmaFinishedQueue = i :: rest) (ha : InstKind.isAsyncLoad (kindOf P i) = true)
    (hws : c.dma.waiters (tagOf P i).1 (tagOf P i).2 = ws)
    (hev : c'.events = c.events ++ (.dataReturned i :: ws.map .instFinished))
    (htag : ∀ g key, c'.dma.tag g key = if g = (tagOf P i).1 ∧ key = (tagOf P i).2 then
      some ((1 + ws.length) % 2 ^ 32) else c.dma.tag g key)
    (hwaiters : c'.dma.waiters = c.dma.waiters)
    (htransit : c.transit.Perm (i :: c'.transit)) : TagInv P c' := by
  have hmem : i ∈ c.transit := htransit.symm.subset List.mem_cons_self
  have hsub : ∀ j ∈ c'.transit, j ∈ c.transit :=
    fun j hj => htransit.symm.subset (List.mem_cons_of_mem i hj)
  have hfew := hT.short (tagOf P i).1 (tagOf P i).2
  rw [hws] at hfew
  have hword : (1 + ws.length) % 2 ^ 32 = 1 + ws.length := Nat.mod_eq_of_lt (by omega)
  have hother : ∀ j ∈ c'.transit, InstKind.isAsyncLoad (kindOf P j) = true →
      c'.dma.tag (tagOf P j).1 (tagOf P j).2 = c.dma.tag (tagOf P j).1 (tagOf P j).2 := by
    intro j hj haj
    have hne := hI.tag_ne htransit ha hj haj
    rw [htag, if_neg fun h => hne (Prod.ext h.1 h.2)]
  have hissued : ∀ j, .instIssued j ∈ c'.events ↔ .instIssued j ∈ c.events := by
    intro j
    rw [hev]
    simp
  have hsilent : issuedInsts (.dataReturned i :: ws.map .instFinished : List (CoreEvent τ ι)) =
      [] := by
    rw [List.eq_nil_iff_forall_not_mem]
    intro j hj
    rw [mem_issuedInsts] at hj
    simp at hj
  have hloads : ∀ k, loadsOf P c'.events k = loadsOf P c.events k := by
    intro k
    rw [hev, loadsOf_append]
    unfold loadsOf
    rw [hsilent, List.filter_nil, List.append_nil]
  refine ⟨fun g key v hv => ?_, fun j hj => hT.dense j (hsub j hj), fun j hj haj hret => ?_,
    fun j hj haj => ?_, fun j hj haj => ?_, fun g key => ?_, fun j hj hop => ?_,
    fun g key hv => ?_, fun g key v hv h0 hne => ?_, fun j o hj haj => ?_, fun j hj => ?_, ?_⟩
  · rw [htag] at hv
    split at hv
    · cases hv
      omega
    · exact hT.word g key v hv
  · rw [hev] at hret
    rcases List.mem_append.mp hret with h | h
    · exact hT.unreturned j (hsub j hj) haj h
    · have hji : j = i := by simpa using h
      subst hji
      exact hI.tag_ne htransit ha hj haj rfl
  · rw [hother j hj haj, hloads]
    exact hT.flying j (hsub j hj) haj
  · rw [hwaiters, hev]
    exact (hT.few j (hsub j hj) haj).trans (usersOf_le _ _)
  · rw [hwaiters]
    exact hT.short g key
  · rw [htag]
    split
    · rfl
    · exact hT.known j ((hissued j).mp hj) hop
  · rw [htag] at hv
    split at hv
    · have hzero : (1 + ws.length) % 2 ^ 32 = 0 := Option.some.inj hv
      omega
    · rename_i hne
      rcases hT.unready g key hv with ⟨j, hj, haj, hk⟩ | ⟨hnil, j, hlast, hsync⟩
      · rcases List.mem_cons.mp (htransit.subset hj) with rfl | hj
        · rw [hk] at hne
          exact absurd ⟨rfl, rfl⟩ hne
        · exact .inl ⟨j, hj, haj, hk⟩
      · refine .inr ⟨by rw [hwaiters]; exact hnil, j, ?_, hsync⟩
        unfold lastTaker at hlast ⊢
        rw [hloads]
        exact hlast
  · rw [htag] at hv
    rw [hwaiters] at hne ⊢
    split at hv
    · rename_i hk
      refine ⟨i, ha, Prod.ext hk.1.symm hk.2.symm, ?_⟩
      rw [hk.1, hk.2, hws, hev]
      exact (List.suffix_append _ _).isInfix
    · obtain ⟨j, haj, hk, hseq⟩ := hT.woken g key v hv h0 hne
      refine ⟨j, haj, hk, ?_⟩
      rw [hev]
      exact hseq.trans (List.prefix_append _ _).isInfix
  · have hj' : .tagRegistered j o ∈ c.events := by
      rw [hev] at hj
      simpa using hj
    rw [hev]
    rcases hT.registered j o hj' haj with h | h
    · rcases List.mem_cons.mp (htransit.subset h) with rfl | h
      · exact .inr (by simp)
      · exact .inl h
    · exact .inr (List.mem_append_left _ h)
  · have hji : j = i ∨ .dataReturned j ∈ c.events := by
      rw [hev] at hj
      simpa [or_comm] using hj
    rw [hissued]
    rcases hji with rfl | h
    · obtain ⟨-, hhead⟩ := hT.flying j hmem ha
      obtain ⟨hiss, hop, -⟩ := mem_loadsOf.mp (List.mem_of_mem_head? hhead)
      exact ⟨hiss, hop⟩
    · exact hT.returned j h
  · rw [hev]
    exact replaces_append hT.replaces fun e he j o heq => by subst heq; simp at he

/-- **A step of a unit keeps the table in order.** -/
theorem UnitStep.tagInv (h : UnitStep cfg c c') (hI : CoreInv P c) (hT : TagInv P c) :
    TagInv P c' := by
  have hsilent : ∀ j e, e ∈ [CoreEvent.instFinished j] → Harmless P c e := by
    intro j e he
    rw [List.mem_singleton.mp he]
    trivial
  have hnone : ∀ e ∈ ([] : List (CoreEvent τ ι)), Harmless P c e := by simp
  cases h with
  | stats f => exact hT.still (List.append_nil _).symm hnone rfl rfl fun _ => .rfl
  | clock n => exact hT.still (List.append_nil _).symm hnone rfl rfl fun _ => .rfl
  | arrayTurn n => exact hT.still (List.append_nil _).symm hnone rfl rfl fun _ => .rfl
  | compute p i rest hp =>
      cases p <;> exact hT.still rfl (hsilent i) rfl rfl fun _ => .rfl
  | ssdNone hssd hcur =>
      refine hT.still (List.append_nil _).symm hnone rfl rfl fun j => ?_
      simp [mem_transit, DMA.endSsd, hcur]
  | ssdWrite i hssd hcur hw =>
      refine hT.keep rfl (hsilent i) rfl rfl (fun j hj _ => ?_) fun j hj ha => ?_
      · simp only [mem_transit, Core.finish, Core.log, DMA.endSsd] at hj ⊢
        tauto
      · have hne : j ≠ i := by
          rintro rfl
          rw [hI.not_load_of_write hw] at ha
          cases ha
        simp only [mem_transit, Core.finish, Core.log, DMA.endSsd, hcur] at hj ⊢
        simp only [Option.some.injEq, hne.symm] at hj
        tauto
  | ssdAsync i hssd hcur hr ha =>
      refine hT.still rfl (hsilent i) rfl rfl fun j => ?_
      simp only [mem_transit, Core.finish, Core.log, DMA.endSsd, hcur, List.mem_append,
        List.mem_singleton, Option.some.injEq, eq_comm]
      tauto
  | ssdSync i hssd hcur hr ha =>
      refine hT.still (List.append_nil _).symm hnone rfl rfl fun j => ?_
      simp only [mem_transit, DMA.endSsd, hcur, List.mem_append, List.mem_singleton,
        Option.some.injEq, eq_comm]
      tauto
  | drainWrite i rest hq hr =>
      refine hT.keep (List.append_nil _).symm hnone rfl rfl (fun j hj _ => ?_) fun j hj ha => ?_
      · simp only [mem_transit, hq, List.mem_cons] at hj ⊢
        tauto
      · have hne : j ≠ i := by
          rintro rfl
          rw [hI.not_load_of_not_read hr] at ha
          cases ha
        simp only [mem_transit, hq, List.mem_cons, hne, false_or] at hj ⊢
        exact hj
  | drainSync i rest hq hr ha =>
      refine hT.keep rfl (hsilent i) rfl rfl (fun j hj _ => ?_) fun j hj haj => ?_
      · simp only [mem_transit, Core.finish, Core.log, hq, List.mem_cons] at hj ⊢
        tauto
      · have hne : j ≠ i := by
          rintro rfl
          rw [hI.not_load_of_sync ha] at haj
          cases haj
        simp only [mem_transit, Core.finish, Core.log, hq, List.mem_cons, hne, false_or] at hj ⊢
        exact hj
  | drainAsync i rest ws hq hr ha hws hlt =>
      have hkind := hI.kind i
      have hsub : (c.heap.inst i).subgraphId = (tagOf P i).1 := congrArg InstKind.subgraphId hkind
      have hkey : (c.heap.inst i).tagKey = (tagOf P i).2 := congrArg InstKind.tagKey hkind
      have hmem : i ∈ c.transit := mem_transit.mpr (by simp [hq])
      have hop := (hI.isRead i).mp hr
      have hload : InstKind.isAsyncLoad (kindOf P i) = true :=
        isAsyncLoad_iff.mpr ⟨hop, by rw [← hI.isAsync]; exact ha, hT.dense i hmem hop⟩
      rw [hsub, hkey] at hws ⊢
      obtain ⟨hev, hdma, htransit⟩ := events_finishAll ws
        ({ c.setTag (tagOf P i).1 (tagOf P i).2 ((1 + ws.length) % 2 ^ 32) with
          dmaFinishedQueue := rest }.log (.dataReturned i))
      refine hT.arrive hI hq hload hws ?_ (fun g key => ?_) (by rw [hdma]; rfl) ?_
      · rw [hev]
        change (c.events ++ [.dataReturned i]) ++ _ = _
        rw [List.append_assoc]
        rfl
      · rw [hdma]
        exact DMA.tag_storeTag _ _ _ _ _ _
      · rw [htransit]
        change (_ ++ c.dmaFinishedQueue).Perm (i :: (c.ldInstQueue ++ c.stInstQueue ++
          c.dma.currentInst.toList ++ c.dmaWaitingQueue ++ rest))
        rw [hq]
        exact List.perm_middle
  | retireWrite i hfin hcur hw =>
      refine hT.still rfl (hsilent i) rfl rfl fun j => ?_
      simp only [mem_transit, Core.finish, Core.log, hcur, List.mem_insert_iff, Option.some.injEq,
        eq_comm]
      tauto
  | retireAsync i hfin hcur hr ha =>
      refine hT.still rfl (hsilent i) rfl rfl fun j => ?_
      simp only [mem_transit, Core.finish, Core.log, hcur, List.mem_insert_iff, Option.some.injEq,
        eq_comm]
      tauto
  | retireSync i hfin hcur hr ha =>
      refine hT.still (List.append_nil _).symm hnone rfl rfl fun j => ?_
      simp only [mem_transit, hcur, List.mem_insert_iff, Option.some.injEq, eq_comm]
      tauto
  | startLoad i rest hfin hcur hq =>
      refine hT.still (List.append_nil _).symm hnone rfl rfl fun j => ?_
      simp only [mem_transit, hcur, hq, List.mem_cons, Option.some.injEq, eq_comm]
      tauto
  | startStore i rest hfin hcur hq =>
      refine hT.still (List.append_nil _).symm hnone rfl rfl fun j => ?_
      simp only [mem_transit, hcur, hq, List.mem_cons, Option.some.injEq, eq_comm]
      tauto
  | oracle i n hcur hgen _ => exact hT.still (List.append_nil _).symm hnone rfl rfl fun _ => .rfl
  | generate i env hcur hgen hssd hfin =>
      exact hT.still (List.append_nil _).symm hnone rfl rfl fun _ => .rfl
  | inject n hgen hssd => exact hT.still (List.append_nil _).symm hnone rfl rfl fun _ => .rfl
  | report t ht hdone =>
      refine hT.still rfl (fun e he => ?_) rfl rfl fun _ => .rfl
      rw [List.mem_singleton.mp he]
      trivial

/-! ## The issue switch -/

omit [DecidableEq τ] in
/-- The tag of an asynchronous load in transit is outstanding. -/
theorem TagInv.outstanding (hT : TagInv P c) (hj : j ∈ c.transit)
    (ha : InstKind.isAsyncLoad (kindOf P j) = true) : Outstanding P c.events (tagOf P j) :=
  ⟨j, (hT.flying j hj ha).2, ha, hT.unreturned j hj ha⟩

omit [DecidableEq τ] in
/-- An instruction waits for a tag: its asynchronous load is in transit. -/
theorem TagInv.wait (hT : TagInv P c) (hQ : TagOrderly P c.events (.instIssued i))
    (hawaits : InstKind.awaitsTag (kindOf P i) = true)
    (htag : c.dma.tag (tagOf P i).1 (tagOf P i).2 = some 0)
    (hev : c'.events = c.events ++ [.instIssued i]) (htable : c'.dma.tagTable = c.dma.tagTable)
    (hwaiters : ∀ g key, c'.dma.waiters g key = if g = (tagOf P i).1 ∧ key = (tagOf P i).2 then
      c.dma.waiters g key ++ [i] else c.dma.waiters g key)
    (htransit : ∀ j, j ∈ c'.transit ↔ j ∈ c.transit) : TagInv P c' := by
  have htags : ∀ g key, c'.dma.tag g key = c.dma.tag g key := by
    intro g key
    unfold DMA.tag
    rw [htable]
  have hop : (kindOf P i).opcode = .movin ∨ (kindOf P i).opcode = .bar := by
    simp only [InstKind.awaitsTag, InstKind.isAsyncLoad, Bool.or_eq_true, Bool.and_eq_true,
      decide_eq_true_eq] at hawaits
    tauto
  have hkeep : InstKind.takesTag (kindOf P i) = false := by
    simp only [InstKind.awaitsTag, InstKind.isAsyncLoad, Bool.or_eq_true, Bool.and_eq_true,
      decide_eq_true_eq, Bool.not_eq_true'] at hawaits
    rcases hawaits with h | ⟨⟨-, h⟩, h'⟩
    · simp [InstKind.takesTag, h]
    · simp [InstKind.takesTag, h, h']
  have hlast : ∀ k, lastTaker P c'.events k = lastTaker P c.events k := by
    intro k
    rw [hev, lastTaker_append]
    intro j hj htakes
    have hji : j = i := by simpa using hj
    rw [hji, hkeep] at htakes
    cases htakes
  obtain ⟨load, hload, ha, hk⟩ : ∃ j ∈ c.transit, InstKind.isAsyncLoad (kindOf P j) = true ∧
      tagOf P j = tagOf P i := by
    rcases hT.unready _ _ htag with h | ⟨-, j, hj, hsync⟩
    · exact h
    · rw [(hQ.2 hawaits).1 j hj] at hsync
      cases hsync
  have hcount : (usersOf P c.events (tagOf P i)).length < 2 ^ 32 - 1 :=
    (hQ.2 hawaits).2 (hk ▸ hT.outstanding hload ha)
  have husers : (usersOf P c'.events (tagOf P i)).length =
      (usersOf P c.events (tagOf P i)).length + 1 := by
    have hone : usersOf P [CoreEvent.instIssued (τ := τ) i] (tagOf P i) = [i] := by
      unfold usersOf issuedInsts
      rcases hop with h | h <;> simp [h]
    rw [hev, usersOf_append, hone, List.length_append, List.length_singleton]
  have hnew : ∀ e, e ∈ c'.events ↔ e ∈ c.events ∨ e = .instIssued i := by
    intro e
    rw [hev, List.mem_append, List.mem_singleton]
  refine ⟨fun g key v hv => hT.word g key v ((htags g key).symm.trans hv),
    fun j hj => hT.dense j ((htransit j).mp hj), fun j hj haj hret => ?_, fun j hj haj => ?_,
    fun j hj haj => ?_, fun g key => ?_, fun j hj hopj => ?_, fun g key hv => ?_,
    fun g key v hv h0 hne => ?_, fun j o hj haj => ?_, fun j hj => ?_, ?_⟩
  · have hret' : .dataReturned j ∈ c.events := by simpa using (hnew _).mp hret
    exact hT.unreturned j ((htransit j).mp hj) haj hret'
  · obtain ⟨h0, hhead⟩ := hT.flying j ((htransit j).mp hj) haj
    rw [htags, hev]
    exact ⟨h0, loadsOf_head_append hhead⟩
  · have hle := hT.few j ((htransit j).mp hj) haj
    rw [hwaiters]
    split
    · rename_i heq
      have hkj : tagOf P j = tagOf P i := Prod.ext heq.1 heq.2
      rw [hkj] at hle ⊢
      rw [husers, List.length_append, List.length_singleton]
      omega
    · rw [hev]
      exact hle.trans (usersOf_le _ _)
  · rw [hwaiters]
    split
    · rename_i heq
      have hle := hT.few load hload ha
      rw [hk] at hle
      rw [heq.1, heq.2, List.length_append, List.length_singleton]
      omega
    · exact hT.short g key
  · rw [htags]
    rcases (hnew _).mp hj with h | h
    · exact hT.known j h hopj
    · cases h
      rw [htag]
      rfl
  · rw [htags] at hv
    rw [hwaiters, hlast]
    split
    · rename_i heq
      exact .inl ⟨load, (htransit load).mpr hload, ha, hk.trans (Prod.ext heq.1.symm heq.2.symm)⟩
    · rcases hT.unready g key hv with ⟨j, hj, haj, hkj⟩ | h
      · exact .inl ⟨j, (htransit j).mpr hj, haj, hkj⟩
      · exact .inr h
  · rw [htags] at hv
    rw [hwaiters] at hne ⊢
    split at hne
    · rename_i heq
      rw [heq.1, heq.2, htag] at hv
      cases hv
      exact absurd rfl h0
    · rename_i heq
      obtain ⟨j, haj, hkj, hseq⟩ := hT.woken g key v hv h0 hne
      refine ⟨j, haj, hkj, ?_⟩
      rw [if_neg heq, hev]
      exact hseq.trans (List.prefix_append _ _).isInfix
  · have hj' : .tagRegistered j o ∈ c.events := by simpa using (hnew _).mp hj
    rcases hT.registered j o hj' haj with h | h
    · exact .inl ((htransit j).mpr h)
    · exact .inr ((hnew _).mpr (.inl h))
  · have hj' : .dataReturned j ∈ c.events := by simpa using (hnew _).mp hj
    exact ⟨(hnew _).mpr (.inl (hT.returned j hj').1), (hT.returned j hj').2⟩
  · rw [hev]
    exact replaces_append hT.replaces fun e he j o heq => by subst heq; simp at he

omit [DecidableEq τ] in
/-- A load registers its tag: no asynchronous load of it is in transit. -/
theorem TagInv.register {l : List (CoreEvent τ ι)} (hT : TagInv P c)
    (hQ : TagOrderly P c.events (.instIssued i)) (hop : (kindOf P i).opcode = .movin)
    (hnew : InstKind.isAsyncLoad (kindOf P i) = true →
      c.dma.tag (tagOf P i).1 (tagOf P i).2 = none)
    (hev : c'.events = c.events ++ [.instIssued i] ++ [.tagRegistered i
      ((c.dma.tag (tagOf P i).1 (tagOf P i).2).map fun v =>
        (v, c.dma.waiters (tagOf P i).1 (tagOf P i).2))] ++ l)
    (hl : ∀ e ∈ l, e = .instFinished i)
    (htag : ∀ g key, c'.dma.tag g key = if g = (tagOf P i).1 ∧ key = (tagOf P i).2 then
      some (if (kindOf P i).isSparseInst then sparseTag else 0) else c.dma.tag g key)
    (hwaiters : ∀ g key, c'.dma.waiters g key = if g = (tagOf P i).1 ∧ key = (tagOf P i).2 then
      [] else c.dma.waiters g key)
    (htransit : ∀ j, j ∈ c'.transit ↔ j ∈ c.transit ∨ j = i ∧ (kindOf P i).isSparseInst = false) :
    TagInv P c' := by
  have hfree : ∀ j ∈ c.transit, InstKind.isAsyncLoad (kindOf P j) = true →
      tagOf P j ≠ tagOf P i := by
    intro j hj ha heq
    by_cases hi : InstKind.isAsyncLoad (kindOf P i) = true
    · have h0 := (hT.flying j hj ha).1
      rw [heq, hnew hi] at h0
      cases h0
    · refine hQ.1 ?_ (heq ▸ hT.outstanding hj ha)
      rw [isAsyncLoad_iff] at hi
      cases hs : (kindOf P i).isSparseInst with
      | true => simp [InstKind.takesTag, hop, hs]
      | false =>
          have hasync : (kindOf P i).isAsyncDma = false := by
            rw [← Bool.not_eq_true]
            exact fun h => hi ⟨hop, h, hs⟩
          simp [InstKind.takesTag, hop, hasync]
  have hfresh : c.dma.tag (tagOf P i).1 (tagOf P i).2 = none →
      ∀ j, .instIssued j ∈ c.events → (kindOf P j).opcode = .movin → tagOf P j ≠ tagOf P i := by
    intro hnone j hj hopj heq
    have hsome := hT.known j hj hopj
    rw [heq, hnone] at hsome
    cases hsome
  have hmem : ∀ e, e ∈ c'.events → e ∈ c.events ∨ e = .instIssued i ∨
      (∃ o, e = .tagRegistered i o) ∨ e = .instFinished i := by
    intro e he
    rw [hev] at he
    simp only [List.mem_append, List.mem_singleton] at he
    rcases he with ((he | he) | he) | he
    · exact .inl he
    · exact .inr (.inl he)
    · exact .inr (.inr (.inl ⟨_, he⟩))
    · exact .inr (.inr (.inr (hl e he)))
  have hold : ∀ e, e ∈ c.events → e ∈ c'.events := by
    intro e he
    rw [hev]
    simp [he]
  have hissue : .instIssued i ∈ c'.events := by
    rw [hev]
    simp
  obtain ⟨m, hm, hissued⟩ : ∃ m, c'.events = c.events ++ m ∧ issuedInsts m = [i] := by
    refine ⟨_, by rw [hev, List.append_assoc, List.append_assoc], ?_⟩
    have hnone : issuedInsts l = [] := by
      rw [List.eq_nil_iff_forall_not_mem]
      intro j hj
      have hj' := hl _ (mem_issuedInsts.mp hj)
      cases hj'
    rw [issuedInsts_append, issuedInsts_append, hnone]
    rfl
  have hnotMem : ∀ j, .instIssued j ∈ m → j = i := by
    intro j hj
    rw [← mem_issuedInsts, hissued] at hj
    exact List.mem_singleton.mp hj
  refine ⟨fun g key v hv => ?_, fun j hj hopj => ?_, fun j hj haj hret => ?_, fun j hj haj => ?_,
    fun j hj haj => ?_, fun g key => ?_, fun j hj hopj => ?_, fun g key hv => ?_,
    fun g key v hv h0 hne => ?_, fun j o hj haj => ?_, fun j hj => ?_, ?_⟩
  · rw [htag] at hv
    split at hv
    · have hv := Option.some.inj hv
      split at hv
      · rw [← hv]
        decide
      · omega
    · exact hT.word g key v hv
  · rcases (htransit j).mp hj with h | ⟨rfl, hs⟩
    · exact hT.dense j h hopj
    · exact hs
  · have hret' : .dataReturned j ∈ c.events := by simpa using hmem _ hret
    rcases (htransit j).mp hj with h | ⟨rfl, hs⟩
    · exact hT.unreturned j h haj hret'
    · obtain ⟨hiss, -⟩ := hT.returned j hret'
      exact hfresh (hnew haj) j hiss hop rfl
  · rcases (htransit j).mp hj with h | ⟨rfl, hs⟩
    · obtain ⟨h0, hhead⟩ := hT.flying j h haj
      rw [htag, if_neg fun h' => hfree j h haj (Prod.ext h'.1 h'.2), hm]
      exact ⟨h0, loadsOf_head_append hhead⟩
    · rw [htag, if_pos ⟨rfl, rfl⟩, hs]
      refine ⟨rfl, ?_⟩
      have hempty : loadsOf P c.events (tagOf P j) = [] := by
        rw [List.eq_nil_iff_forall_not_mem]
        intro k hk
        obtain ⟨hiss, hopk, hkj⟩ := mem_loadsOf.mp hk
        exact hfresh (hnew haj) k hiss hopk hkj
      have hone : loadsOf P m (tagOf P j) = [j] := by
        unfold loadsOf
        rw [hissued]
        simp [hop]
      rw [hm, loadsOf_append, hempty, hone]
      rfl
  · rw [hwaiters]
    rcases (htransit j).mp hj with h | ⟨rfl, hs⟩
    · rw [if_neg fun h' => hfree j h haj (Prod.ext h'.1 h'.2), hm]
      exact (hT.few j h haj).trans (usersOf_le _ _)
    · rw [if_pos ⟨rfl, rfl⟩, hm, usersOf_append]
      have hone : usersOf P m (tagOf P j) = [j] := by
        unfold usersOf
        rw [hissued]
        simp [hop]
      rw [hone, List.length_append, List.length_singleton, List.length_nil]
      omega
  · rw [hwaiters]
    split
    · exact Nat.zero_lt_succ _
    · exact hT.short g key
  · rw [htag]
    split
    · rfl
    · rename_i hne
      rcases hmem _ hj with h | h | ⟨o, h⟩ | h
      · exact hT.known j h hopj
      · cases h
        exact absurd ⟨rfl, rfl⟩ hne
      · cases h
      · cases h
  · rw [htag] at hv
    rw [hwaiters]
    split at hv
    · rename_i heq
      have hk : tagOf P i = (g, key) := Prod.ext heq.1.symm heq.2.symm
      have hs : (kindOf P i).isSparseInst = false := by
        rw [← Bool.not_eq_true]
        intro hs
        rw [hs] at hv
        cases hv
      by_cases ha : InstKind.isAsyncLoad (kindOf P i) = true
      · exact .inl ⟨i, (htransit i).mpr (.inr ⟨rfl, hs⟩), ha, hk⟩
      · have hasync : (kindOf P i).isAsyncDma = false := by
          rw [← Bool.not_eq_true]
          exact fun h => ha (isAsyncLoad_iff.mpr ⟨hop, h, hs⟩)
        refine .inr ⟨if_pos heq, i, ?_, by simp [InstKind.isSyncLoad, hop, hasync, hs]⟩
        rw [← hk, hm]
        exact lastTaker_concat hop (by simp [InstKind.takesTag, hop, hasync]) hissued
    · rename_i hne
      rw [if_neg hne]
      rcases hT.unready g key hv with ⟨j, hj, haj, hkj⟩ | ⟨hnil, j, hlast, hsync⟩
      · exact .inl ⟨j, (htransit j).mpr (.inl hj), haj, hkj⟩
      · refine .inr ⟨hnil, j, ?_, hsync⟩
        rw [hm, lastTaker_append, hlast]
        intro j' hj' _ hk
        rw [hnotMem j' hj'] at hk
        exact hne ⟨congrArg Prod.fst hk.symm, congrArg Prod.snd hk.symm⟩
  · rw [htag] at hv
    rw [hwaiters] at hne ⊢
    split at hne
    · exact absurd rfl hne
    · rename_i heq
      rw [if_neg heq] at hv
      obtain ⟨j, haj, hkj, hseq⟩ := hT.woken g key v hv h0 hne
      refine ⟨j, haj, hkj, ?_⟩
      rw [if_neg heq, hm]
      exact hseq.trans (List.prefix_append _ _).isInfix
  · rcases hmem _ hj with h | h | ⟨o', h⟩ | h
    · rcases hT.registered j o h haj with h | h
      · exact .inl ((htransit j).mpr (.inl h))
      · exact .inr (hold _ h)
    · cases h
    · cases h
      exact .inl ((htransit i).mpr (.inr ⟨rfl, (isAsyncLoad_iff.mp haj).2.2⟩))
    · cases h
  · have hj' : .dataReturned j ∈ c.events := by simpa using hmem _ hj
    exact ⟨hold _ (hT.returned j hj').1, (hT.returned j hj').2⟩
  · rw [hev]
    refine AtEach.append (atEach_concat.mpr ⟨atEach_concat.mpr ⟨hT.replaces, trivial⟩, ?_⟩) ?_
    · cases htab : c.dma.tag (tagOf P i).1 (tagOf P i).2 with
      | none => trivial
      | some v =>
          refine ⟨fun w hw => ?_, fun j o hj haj hk => ?_⟩
          · by_cases h0 : v = 0
            · subst h0
              rcases hT.unready _ _ htab with ⟨j, hj, haj, hkj⟩ | ⟨hnil, -⟩
              · exact absurd hkj (hfree j hj haj)
              · rw [hnil] at hw
                exact absurd hw List.not_mem_nil
            · obtain ⟨j, -, -, hseq⟩ := hT.woken _ _ v htab h0 (List.ne_nil_of_mem hw)
              refine List.mem_append_left _ (hseq.subset ?_)
              exact List.mem_cons_of_mem _ (List.mem_map.mpr ⟨w, hw, rfl⟩)
          · have hj' : .tagRegistered j o ∈ c.events := by simpa using hj
            rcases hT.registered j o hj' haj with h | h
            · exact absurd hk (hfree j h haj)
            · exact List.mem_append_left _ h
    · intro e he pre
      rw [hl e he]
      trivial

/-- The word of a tag that is ready is marked again. -/
theorem TagInv.mark (hT : TagInv P c) {v : ℕ}
    (htag : c.dma.tag (tagOf P i).1 (tagOf P i).2 = some v) (hv : v ≠ 0) (hs : v ≠ sparseTag)
    (hop : (kindOf P i).opcode = .bar) (t : τ) :
    TagInv P (((c.take t i).setTag (tagOf P i).1 (tagOf P i).2 ((v + 1) % 2 ^ 32)).finish i) := by
  have hlt := hT.word _ _ v htag
  have hword : (v + 1) % 2 ^ 32 = v + 1 := by
    apply Nat.mod_eq_of_lt
    unfold sparseTag at hs
    omega
  refine hT.frame (l := [.instIssued i, .instFinished i]) (by simp [Core.finish, Core.log,
    Core.setTag, Core.take, Core.pop]) (fun e he => ?_) (fun g key => ?_) rfl (fun j hj _ => hj)
    fun j hj _ => hj
  · simp only [List.mem_cons, List.not_mem_nil, or_false] at he
    rcases he with rfl | rfl
    · intro hmovin
      rw [hop] at hmovin
      cases hmovin
    · trivial
  · change (c.dma.storeTag _ _ _).tag g key = _ ∨ ∃ w w', _ ∧ _ ∧ (c.dma.storeTag _ _ _).tag g key =
      _ ∧ _
    rw [DMA.tag_storeTag, hword]
    split
    · rename_i heq
      rw [heq.1, heq.2]
      refine .inr ⟨v, v + 1, htag, hv, rfl, by omega, ?_⟩
      unfold sparseTag at hs
      omega
    · exact .inl rfl

/-- **The issue switch keeps the table in order**, if the tags are used in order. -/
theorem IssueEffect.tagInv (h : IssueEffect i (c.take t i) c') (hI : CoreInv P c)
    (hT : TagInv P c) (hQ : TagOrderly P c.events (.instIssued i)) : TagInv P c' := by
  have hkind : ((c.take t i).heap.inst i).kind = kindOf P i := hI.kind i
  have hopc : ((c.take t i).heap.inst i).opcode = (kindOf P i).opcode :=
    congrArg InstKind.opcode hkind
  have hsparse : ((c.take t i).heap.inst i).isSparseInst = (kindOf P i).isSparseInst :=
    congrArg InstKind.isSparseInst hkind
  have hasync : ((c.take t i).heap.inst i).isAsyncDma = (kindOf P i).isAsyncDma :=
    congrArg InstKind.isAsyncDma hkind
  have hsub : ((c.take t i).heap.inst i).subgraphId = (tagOf P i).1 :=
    congrArg InstKind.subgraphId hkind
  have hkey : ((c.take t i).heap.inst i).tagKey = (tagOf P i).2 := congrArg InstKind.tagKey hkind
  have htake : (c.take t i).transit = c.transit := rfl
  have hev : (c.take t i).events = c.events ++ [.instIssued i] := rfl
  -- an instruction that is no load, or a load whose tag is known, is harmless
  have hharmless : ((kindOf P i).opcode = .movin → InstKind.takesTag (kindOf P i) = false ∧
      (c.dma.tag (tagOf P i).1 (tagOf P i).2).isSome = true) →
      ∀ e ∈ [CoreEvent.instIssued (τ := τ) i, .instFinished i], Harmless P c e := by
    intro hload e he
    simp only [List.mem_cons, List.not_mem_nil, or_false] at he
    rcases he with rfl | rfl
    · exact hload
    · trivial
  have hother : ∀ op, op ≠ .movin → (kindOf P i).opcode = op → (kindOf P i).opcode = .movin →
      InstKind.takesTag (kindOf P i) = false ∧
        (c.dma.tag (tagOf P i).1 (tagOf P i).2).isSome = true :=
    fun op hne hop hmovin => absurd (hop.symm.trans hmovin) hne
  have hregister : ∀ g key, ((c.take t i).registerTag i).dma.tag g key =
      if g = (tagOf P i).1 ∧ key = (tagOf P i).2 then some 0 else c.dma.tag g key := by
    intro g key
    rw [← hsub, ← hkey]
    exact DMA.tag_storeTag _ _ _ _ _ _
  have hcleared : ∀ g key, ((c.take t i).registerTag i).dma.waiters g key =
      if g = (tagOf P i).1 ∧ key = (tagOf P i).2 then [] else c.dma.waiters g key := by
    intro g key
    rw [← hsub, ← hkey]
    exact update_waiters _ _ _ _ _ _
  have hwaiting : ∀ g key, ((c.take t i).addWaiter i).dma.waiters g key =
      if g = (tagOf P i).1 ∧ key = (tagOf P i).2 then c.dma.waiters g key ++ [i]
      else c.dma.waiters g key := by
    intro g key
    rw [← hsub, ← hkey]
    refine (update_waiters _ _ _ _ _ _).trans ?_
    split
    · rename_i heq
      rw [heq.1, heq.2]
      rfl
    · rfl
  have hrecord : ((c.take t i).registerTag i).events = c.events ++ [.instIssued i] ++
      [.tagRegistered i ((c.dma.tag (tagOf P i).1 (tagOf P i).2).map fun v =>
        (v, c.dma.waiters (tagOf P i).1 (tagOf P i).2))] := by
    rw [← hsub, ← hkey]
    rfl
  cases h with
  | sparseLoad hop hs =>
      rw [hopc] at hop
      rw [hsparse] at hs
      refine hT.register (l := [.instFinished i]) hQ hop (fun ha => ?_) ?_
        (fun e he => List.mem_singleton.mp he) (fun g key => ?_) (fun g key => hcleared g key)
        fun j => ?_
      · rw [(isAsyncLoad_iff.mp ha).2.2] at hs
        cases hs
      · rw [← hrecord]
        rfl
      · rw [hsub, hkey, hs, if_pos rfl]
        change (((c.take t i).registerTag i).dma.storeTag _ _ _).tag g key = _
        rw [DMA.tag_storeTag]
        split
        · rfl
        · rename_i hne
          rw [hregister, if_neg hne]
      · change j ∈ c.transit ↔ _
        simp [hs]
  | knownLoad v hop hs ha htag hv =>
      rw [hsub, hkey] at htag
      refine hT.keep (l := [.instIssued i, .instFinished i]) (by simp [Core.finish, Core.log, hev])
        (hharmless fun _ => ⟨?_, ?_⟩) rfl rfl (fun j hj _ => hj) fun j hj _ => hj
      · rw [hsparse] at hs
        rw [hasync] at ha
        simp [InstKind.takesTag, hs, ha]
      · exact Option.isSome_iff_exists.mpr ⟨v, htag⟩
  | awaitedLoad hop hs ha htag =>
      rw [hsub, hkey] at htag
      have hload : InstKind.isAsyncLoad (kindOf P i) = true :=
        isAsyncLoad_iff.mpr ⟨hopc.symm.trans hop, hasync.symm.trans ha, hsparse.symm.trans hs⟩
      exact hT.wait hQ (by simp [InstKind.awaitsTag, hload]) htag hev rfl hwaiting fun _ => .rfl
  | load hop hs hnew =>
      rw [hopc] at hop
      rw [hsparse] at hs
      rw [hsub, hkey, hasync] at hnew
      refine hT.register (l := []) hQ hop (fun ha => hnew (isAsyncLoad_iff.mp ha).2.1) ?_
        (fun e he => absurd he List.not_mem_nil) (fun g key => ?_) (fun g key => hcleared g key)
        fun j => ?_
      · rw [List.append_nil, ← hrecord]
      · rw [hs]
        exact hregister g key
      · simp only [mem_transit, hs, and_true]
        change j ∈ c.ldInstQueue ++ [i] ∨ _ ↔ _
        rw [List.mem_append, List.mem_singleton]
        change _ ∨ j ∈ c.stInstQueue ∨ c.dma.currentInst = some j ∨ j ∈ c.dmaWaitingQueue ∨
          j ∈ c.dmaFinishedQueue ↔ _
        exact or_right_comm
  | store hop =>
      rw [hopc] at hop
      refine hT.keep (l := [.instIssued i]) hev
        (fun e he => hharmless (hother _ (by simp) hop) e (by simp_all)) rfl rfl (fun j hj hjop => ?_)
        fun j hj _ => ?_
      · rw [mem_transit] at hj ⊢
        have hne : j ≠ i := by
          rintro rfl
          rw [hop] at hjop
          cases hjop
        have hst : j ∈ c.stInstQueue ++ [i] ↔ j ∈ c.stInstQueue := by simp [hne]
        change _ ∨ j ∈ c.stInstQueue ++ [i] ∨ _ at hj
        rwa [hst] at hj
      · rw [mem_transit] at hj ⊢
        change _ ∨ j ∈ c.stInstQueue ++ [i] ∨ _
        rw [List.mem_append]
        tauto
  | comp p hop hcycle =>
      rw [hopc] at hop
      cases p <;> exact hT.keep (l := [.instIssued i]) hev
        (fun e he => hharmless (hother _ (by simp) hop) e (by simp_all)) rfl rfl (fun j hj _ => hj)
        fun j hj _ => hj
  | compZero p hop hcycle =>
      rw [hopc] at hop
      refine hT.keep (l := [.instIssued i, .instFinished i])
        (by simp [Core.finish, Core.log, Core.setTimes, hev]) (hharmless (hother _ (by simp) hop)) rfl
        rfl (fun j hj _ => hj) fun j hj _ => hj
  | barSparse hop htag =>
      rw [hopc] at hop
      refine hT.keep (l := [.instIssued i, .instFinished i])
        (by simp [Core.finish, Core.log, hev]) (hharmless (hother _ (by simp) hop)) rfl
        rfl (fun j hj _ => hj) fun j hj _ => hj
  | barReady v hop htag hv hs =>
      rw [hopc] at hop
      rw [hsub, hkey] at htag ⊢
      exact hT.mark htag hv hs hop t
  | barWait hop htag =>
      rw [hsub, hkey] at htag
      rw [hopc] at hop
      exact hT.wait hQ (by simp [InstKind.awaitsTag, hop]) htag hev rfl hwaiting fun _ => .rfl

/-! ## Runs -/

theorem IssueEffect.events_prefix (h : IssueEffect i c c') : c.events <+: c'.events := by
  cases h with
  | sparseLoad => exact (List.prefix_append _ _).trans (List.prefix_append _ _)
  | awaitedLoad | store | barWait => exact List.prefix_refl _
  | comp p => cases p <;> exact List.prefix_refl _
  | _ => exact List.prefix_append _ _

/-- A step only adds to the record of events. -/
theorem CoreStep.events_prefix (h : CoreStep cfg c c') : c.events <+: c'.events := by
  rcases h with h | ⟨t, i, -, -, h⟩ | h
  · cases h with
    | compute p i rest hp => cases p <;> exact List.prefix_append _ _
    | drainAsync i rest ws hq hr ha hws hlt =>
        rw [(events_finishAll ws _).1]
        exact (List.prefix_append _ _).trans (List.prefix_append _ _)
    | ssdWrite | ssdAsync | drainSync | retireWrite | retireAsync | report =>
        exact List.prefix_append _ _
    | _ => exact List.prefix_refl _
  · exact (List.prefix_append c.events [.instIssued i]).trans h.events_prefix
  · cases h with
    | issue t ht => exact List.prefix_append _ _
    | popFinishedTile =>
        unfold Core.popFinishedTile
        split <;> exact List.prefix_refl _
    | popMemoryRequest r rest hq => exact List.prefix_refl _
    | pushMemoryResponse r =>
        unfold Core.pushMemoryResponse
        dsimp only
        split <;> exact List.prefix_refl _

theorem OuterStep.tagInv (h : OuterStep c c') (hT : TagInv P c) : TagInv P c' := by
  have hnone : ∀ e ∈ ([] : List (CoreEvent τ ι)), Harmless P c e := by simp
  cases h with
  | issue t ht =>
      refine hT.still (l := [.tileIssued t]) rfl (fun e he => ?_) rfl rfl fun _ => .rfl
      rw [List.mem_singleton.mp he]
      trivial
  | popFinishedTile =>
      unfold Core.popFinishedTile
      split
      · exact hT
      · exact hT.still (List.append_nil _).symm hnone rfl rfl fun _ => .rfl
  | popMemoryRequest r rest hq =>
      exact hT.still (List.append_nil _).symm hnone rfl rfl fun _ => .rfl
  | pushMemoryResponse r =>
      unfold Core.pushMemoryResponse
      dsimp only
      split
      · rename_i hdone
        refine hT.still (List.append_nil _).symm hnone rfl rfl fun j => ?_
        simp only [mem_transit, List.mem_append, List.mem_singleton]
        by_cases hj : j = r.customData
        · subst hj
          simp [hdone.2]
        · rw [List.mem_erase_of_ne hj]
          tauto
      · exact hT.still (List.append_nil _).symm hnone rfl rfl fun _ => .rfl

/-- **Every step of a core keeps the table in order**, as long as the tags are used in order. -/
theorem CoreStep.tagInv (h : CoreStep cfg c c') (hI : CoreInv P c)
    (hT : AtEach (TagOrderly P) c.events → TagInv P c) (horder : AtEach (TagOrderly P) c'.events) :
    TagInv P c' := by
  have hT := hT (horder.of_prefix h.events_prefix)
  rcases h with h | ⟨t, i, ht, hq, heffect⟩ | h
  · exact h.tagInv hI hT
  · have hprefix : c.events ++ [.instIssued i] <+: c'.events := heffect.events_prefix
    exact heffect.tagInv hI hT (atEach_concat.mp (horder.of_prefix hprefix)).2
  · exact h.tagInv hT

omit [DecidableEq τ] in
theorem TagInv.init (P : TileProgram τ ι) : TagInv P ({ heap := P.heap } : Core τ ι) := by
  have htransit : ({ heap := P.heap } : Core τ ι).transit = [] := rfl
  have hshort : ∀ g key, ((({ heap := P.heap } : Core τ ι).dma.waiters g key).length <
      2 ^ 32 - 1) := fun _ _ => Nat.zero_lt_succ _
  refine ⟨nofun, ?_, ?_, ?_, ?_, hshort, nofun, nofun, nofun, nofun, nofun, atEach_nil⟩ <;>
  · rw [htransit]
    nofun

/-- A unit appends no waiter. -/
theorem UnitStep.waiters (h : UnitStep cfg c c') : c'.dma.waiters = c.dma.waiters := by
  cases h with
  | compute p i rest hp => cases p <;> rfl
  | drainAsync i rest ws hq hr ha hws hlt =>
      rw [(events_finishAll ws _).2.1]
      rfl
  | _ => rfl

/-- What the tag table of a core is for: an instruction waits only for an asynchronous load in
transit, the arrival of its data finishes each waiter, once, no entry is replaced while it is
in use, and no access to the table is rejected. -/
structure TagTableSound (cfg : CoreConfig) (P : TileProgram τ ι) (s : CoreSystem τ ι) : Prop where
  awaited : ∀ g key, s.core.dma.tag g key = some 0 → s.core.dma.waiters g key ≠ [] →
    ∃ i, (s.core.transit.filter fun j =>
      InstKind.isAsyncLoad (kindOf P j) && tagOf P j = (g, key)) = [i]
  asleep : ∀ g key, s.core.dma.tag g key = some 0 →
    (s.core.dma.waiters g key).Nodup ∧ ∀ w ∈ s.core.dma.waiters g key, w ∉ s.core.finishCalls
  woken : ∀ g key v, s.core.dma.tag g key = some v → v ≠ 0 → s.core.dma.waiters g key ≠ [] →
    (∃ i, InstKind.isAsyncLoad (kindOf P i) = true ∧ tagOf P i = (g, key) ∧
      (.dataReturned i :: (s.core.dma.waiters g key).map .instFinished) <:+: s.core.events) ∧
    ∀ w ∈ s.core.dma.waiters g key, s.core.finishCalls.count w = 1
  replaces : AtEach (ReplacesFree P) s.core.events
  accepted : ∀ a, CoreSystem.Legal s a → CoreSystem.step cfg s a ≠ .error .tagNotReady ∧
    CoreSystem.step cfg s a ≠ .error .subgraphNotInTable ∧
    CoreSystem.step cfg s a ≠ .error .noTagToWaitFor

omit [DecidableEq τ] in
/-- A tag has one asynchronous load in transit at most. -/
theorem CoreInv.load_unique (hI : CoreInv P c) {k : ℕ × List ℤ} (hi : i ∈ c.transit)
    (ha : InstKind.isAsyncLoad (kindOf P i) = true) (hk : tagOf P i = k) :
    ∃ j, (c.transit.filter fun j =>
      InstKind.isAsyncLoad (kindOf P j) && tagOf P j = k) = [j] := by
  have hle : (c.transit.filter fun j =>
      InstKind.isAsyncLoad (kindOf P j) && tagOf P j = k).length ≤ 1 := by
    calc _ = c.transit.countP (fun j => InstKind.isAsyncLoad (kindOf P j) && tagOf P j = k) :=
          List.countP_eq_length_filter.symm
      _ ≤ c.transit.countP (fun j => loadTag (kindOf P j) == some k) := by
          refine List.countP_mono_left fun j _ hj => ?_
          simp only [Bool.and_eq_true, decide_eq_true_eq] at hj
          rw [loadTag_of_async hj.1, hj.2]
          exact beq_self_eq_true _
      _ = (flights P c).count k := List.count_filterMap.symm
      _ ≤ 1 := List.nodup_iff_count_le_one.mp hI.transit.unique k
  have hmem : i ∈ c.transit.filter fun j =>
      InstKind.isAsyncLoad (kindOf P j) && tagOf P j = k :=
    List.mem_filter.mpr ⟨hi, by simp [ha, hk]⟩
  have hpos := List.length_pos_of_mem hmem
  exact List.length_eq_one_iff.mp (by omega)

/-- The tag table is sound in every state that a run reaches in which the tags are used in
order: no synchronous or sparse load takes over a tag whose asynchronous load is outstanding,
nothing that waits is issued for a tag that a synchronous load has taken over, and fewer than
`2 ^ 32 - 1` instructions wait for one tag. -/
theorem tag_table_sound
    (h : Reach (CoreSystem.step cfg) CoreSystem.Legal (CoreSystem.init P) s)
    (horder : AtEach (TagOrderly P) s.core.events) : TagTableSound cfg P s := by
  obtain ⟨hI, hT⟩ := core_run_invariant
    (I := fun c => AtEach (TagOrderly P) c.events → TagInv P c) h (fun _ => .init P)
    fun _ _ hI hT hstep horder => hstep.tagInv hI hT horder
  have hT := hT horder
  refine ⟨fun g key h0 hne => ?_, fun g key h0 => ?_, fun g key v hv h0 hne => ?_, hT.replaces,
    fun a ha => ⟨?_, step_ne_fault hI ha fun _ h => h, step_ne_fault hI ha fun _ h => h⟩⟩
  · rcases hT.unready g key h0 with ⟨i, hi, ha, hk⟩ | ⟨hnil, -⟩
    · exact hI.load_unique hi ha hk
    · exact absurd hnil hne
  · rcases hT.unready g key h0 with ⟨i, hi, ha, hk⟩ | ⟨hnil, -⟩
    · have hplace : elsewhere P s.core (.waiter g key) = s.core.dma.waiters g key := by
        refine if_pos (List.mem_filterMap.mpr ⟨i, hi, ?_⟩)
        rw [loadTag_of_async ha, hk]
      have hnodup := hI.placement.exclusive.nodup (.waiter g key)
      refine ⟨hplace ▸ hnodup, fun w hw hcall => ?_⟩
      have hmem : w ∈ elsewhere P s.core (.waiter g key) := hplace.symm ▸ hw
      have hflag := hI.placement.flag (.waiter g key) w hmem
      rw [(hI.ledger.calls w).mp hcall] at hflag
      cases hflag
    · rw [hnil]
      exact ⟨List.nodup_nil, nofun⟩
  · obtain ⟨i, ha, hk, hseq⟩ := hT.woken g key v hv h0 hne
    refine ⟨⟨i, ha, hk, hseq⟩, fun w hw => ?_⟩
    refine List.count_eq_one_of_mem hI.ledger.calls_nodup ?_
    refine List.mem_filterMap.mpr ⟨.instFinished w, hseq.subset ?_, rfl⟩
    exact List.mem_cons_of_mem _ (List.mem_map.mpr ⟨w, hw, rfl⟩)
  · cases a with
    | cycle env =>
        intro hfault
        have hcycle : s.core.cycle cfg env = .error .tagNotReady := by
          change (s.core.cycle cfg env >>= fun core => _) = _ at hfault
          cases hc : s.core.cycle cfg env with
          | error e =>
              rw [hc] at hfault
              cases hfault
              rfl
          | ok d =>
              rw [hc] at hfault
              cases hfault
        obtain ⟨d, hsteps, g, key, hlong⟩ := cycle_tagNotReady hI hcycle
        have hsame : d.dma.waiters = s.core.dma.waiters := by
          clear hlong
          induction hsteps with
          | refl => rfl
          | tail _ hstep ih => exact hstep.waiters.trans ih
        have hshort := hT.short g key
        rw [hsame] at hlong
        omega
    | popMemoryRequest =>
        dsimp only [CoreSystem.step]
        split <;> nofun
    | pushMemoryResponse n =>
        dsimp only [CoreSystem.step]
        split <;> nofun
    | issue t => nofun
    | popFinishedTile => nofun

/-- A tile in which a multiplication waits for the tag of a load. -/
def loadAndWait (isAsync : Bool) : TileProgram (Fin 1) (Fin 3) where
  heap := {
    tile := fun _ => { status := .initialized, nrInsts := 3, instructions := [0, 1, 2] }
    inst := fun
      | 0 => { id := 0, opcode := .movin, owner := Fin.last 0, childInst := [1], tileSize := [1],
               tagKey := [7], isAsyncDma := isAsync }
      | 1 => { id := 1, opcode := .bar, owner := Fin.last 0, childInst := [2], tagKey := [7],
               readyCounter := 1 }
      | 2 => { id := 2, opcode := .comp, owner := Fin.last 0, computeType := MATMUL,
               computeCycle := 3, readyCounter := 1 } }
  insts_nodup := by decide +revert
  owner := by decide +revert
  nrInsts := by decide +revert
  nrFinishedInsts := by decide +revert
  readyQueue := by decide +revert
  finished := by decide +revert
  nrWaitingRequest := by decide +revert
  child_nodup := by decide +revert
  child_mem := by decide +revert
  readyCounter := by decide +revert


/-- An asynchronous load whose data arrives after the wait for its tag was issued. -/
theorem tag_table_sound_async : ∃ s : CoreSystem (Fin 1) (Fin 3),
    s.core.dma.waiters 0 [7] = [1] ∧ TagTableSound {} (loadAndWait true) s := by
  have hstart : Reach (CoreSystem.step {}) CoreSystem.Legal (CoreSystem.init (loadAndWait true))
      { core := Core.issue { heap := (loadAndWait true).heap } 0 } :=
    .step (.issue 0) .init List.not_mem_nil rfl
  obtain ⟨s, hreach, hs⟩ := hstart.exists_of_foldlM (List.replicate 4 (.cycle {}) ++
      [.popMemoryRequest] ++ List.replicate 2 (.cycle {}) ++ [.pushMemoryResponse 0] ++
      List.replicate 3 (.cycle {}))
    (fun s => (s.core.dma.waiters 0 [7], s.core.events))
    (b := ([1], [.tileIssued 0, .instIssued 0, .tagRegistered 0 none, .instFinished 0,
      .instIssued 1, .dataReturned 0, .instFinished 1, .instIssued 2])) rfl (by
      intro s a ha
      simp only [List.mem_append, List.mem_singleton, List.mem_replicate] at ha
      rcases ha with (((⟨-, rfl⟩ | rfl) | ⟨-, rfl⟩) | rfl) | ⟨-, rfl⟩ <;> trivial)
  obtain ⟨hwaiters, hevents⟩ := Prod.mk.inj hs
  refine ⟨s, hwaiters, tag_table_sound hreach ?_⟩
  rw [hevents]
  decide

/-- The data of a synchronous load has arrived, and the wait for its tag waits for ever. -/
theorem tag_table_not_sound : ∃ s : CoreSystem (Fin 1) (Fin 3),
    Reach (CoreSystem.step {}) CoreSystem.Legal (CoreSystem.init (loadAndWait false)) s ∧
      ¬ TagTableSound {} (loadAndWait false) s := by
  have hstart : Reach (CoreSystem.step {}) CoreSystem.Legal (CoreSystem.init (loadAndWait false))
      { core := Core.issue { heap := (loadAndWait false).heap } 0 } :=
    .step (.issue 0) .init List.not_mem_nil rfl
  obtain ⟨s, hreach, hs⟩ := hstart.exists_of_foldlM
    (List.replicate 9 (.cycle { latency := some 1 }))
    (fun s => (s.core.dma.tag 0 [7], s.core.dma.waiters 0 [7], s.core.transit))
    (b := (some 0, [1], [])) rfl (by
      intro s a ha
      rw [List.eq_of_mem_replicate ha]
      trivial)
  simp only [Prod.mk.injEq] at hs
  obtain ⟨htag, hwaiters, htransit⟩ := hs
  refine ⟨s, hreach, fun hsound => ?_⟩
  obtain ⟨i, hi⟩ := hsound.awaited 0 [7] htag (by rw [hwaiters]; exact List.cons_ne_nil 1 [])
  rw [htransit] at hi
  cases hi

end PyTorchSim.Analysis
