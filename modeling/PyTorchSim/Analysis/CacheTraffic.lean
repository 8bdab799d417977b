import PyTorchSim.Analysis.CacheLines
import PyTorchSim.Model.L2Cache

/-!
# The requests of a data cache

A request that a cache has taken waits in the MSHR table, or it is on its way to the memory and
back.  A read that was sent for a block is in both places at once until its fill, and counts as
waiting.  `Tracked` is the invariant that ties the table, the ready blocks and the outstanding
fills together, and `Enters` says which requests an operation adds to those that are held.
-/

set_option autoImplicit false

namespace PyTorchSim.Analysis

open PyTorchSim.Model PyTorchSim.Library
open DataCache (WithEvents ReadRequestResult sendWriteRequest)

/-- The requests on their way to the memory and back. -/
def onWay (s : CacheSystem) : List ℕ := s.cache.missQueue ++ s.memory

/-- The requests that wait for their blocks. -/
def waiting (s : CacheSystem) : List ℕ := KeyedQueues.elements s.cache.mshrs.table

/-- How often a request is held: where it waits, and where it is on its way unless it comes back
as a fill. -/
def held (s : CacheSystem) (x : ℕ) : ℕ :=
  (waiting s).count x + if s.cache.extraMfFields x = none then (onWay s).count x else 0

theorem held_of_none {s : CacheSystem} {x : ℕ} (h : s.cache.extraMfFields x = none) :
    held s x = (waiting s).count x + (onWay s).count x := by
  rw [held, if_pos h]

theorem held_of_some {s : CacheSystem} {x : ℕ} {field : ExtraMfFields}
    (h : s.cache.extraMfFields x = some field) : held s x = (waiting s).count x := by
  rw [held, if_neg (by rw [h]; exact nofun), Nat.add_zero]

/-- The requests are where the tables say. -/
structure Tracked (s : CacheSystem) : Prop where
  keys : (KeyedQueues.keys s.cache.mshrs.table).Nodup
  ready : s.cache.mshrs.currentResponse.Nodup
  /-- A ready block has an entry. -/
  entry : ∀ b ∈ s.cache.mshrs.currentResponse, s.cache.mshrs.probe b = true
  /-- An entry is ready or has an outstanding fill. -/
  filled : ∀ b, s.cache.mshrs.probe b = true → b ∈ s.cache.mshrs.currentResponse ∨
    ∃ id field, s.cache.extraMfFields id = some field ∧ field.blockAddr = b
  /-- An outstanding fill is on its way, and its request waits in an entry that is not ready. -/
  fill : ∀ id field, s.cache.extraMfFields id = some field → id ∈ onWay s ∧
    field.blockAddr ∉ s.cache.mshrs.currentResponse ∧
    ∃ l, s.cache.mshrs.entry field.blockAddr = some l ∧ id ∈ l
  distinct : ∀ id id' field field', s.cache.extraMfFields id = some field →
    s.cache.extraMfFields id' = some field' → field.blockAddr = field'.blockAddr → id = id'
  way : (onWay s).Nodup
  added : s.cache.mshrs.added.Nodup
  popped : s.cache.mshrs.added.Perm (s.cache.mshrs.popped ++ waiting s)
  /-- A request that waits without an outstanding fill is not on its way. -/
  apart : ∀ x ∈ waiting s, s.cache.extraMfFields x = none → x ∉ onWay s
  known : ∀ x, s.cache.uniqueUid ≤ x → x ∉ onWay s ∧ x ∉ s.cache.mshrs.added

/-- A request that the cache has not taken. -/
structure Unused (s : CacheSystem) (id : ℕ) : Prop where
  known : id < s.cache.uniqueUid
  way : id ∉ onWay s
  added : id ∉ s.cache.mshrs.added

/-! ## The MSHR table -/

section

variable {cfg : CacheConfig} {t t' : MshrTable} {b b' id : ℕ} {l : List ℕ}

theorem mshrAdd_eq (h : t.add cfg b id = .ok t') :
    t' = { t with table := KeyedQueues.pushBack b id t.table, added := t.added ++ [id] } := by
  unfold MshrTable.add at h
  split at h
  · cases h
  · cases h
    rfl

theorem markReady_eq (h : t.markReady b = .ok t') :
    t.probe b = true ∧ t' = { t with currentResponse := t.currentResponse ++ [b] } := by
  unfold MshrTable.markReady at h
  split at h
  · next hprobe =>
    cases h
    exact ⟨hprobe, rfl⟩
  · cases h

/-- The first request of the first ready block is taken out. -/
theorem popNextAccess_eq (h : t.popNextAccess = .ok (id, t')) :
    ∃ b rest l, t.currentResponse = b :: rest ∧ t.entry b = some (id :: l) ∧
      t' = { t with
        table := KeyedQueues.popFront b t.table
        currentResponse := if l = [] then rest else t.currentResponse
        popped := t.popped ++ [id] } := by
  unfold MshrTable.popNextAccess at h
  split at h
  · cases h
  next b rest hready =>
  split at h
  · cases h
  · cases h
  next id' l hentry =>
  cases h
  exact ⟨b, rest, l, hready, hentry, rfl⟩

theorem probe_iff : t.probe b = true ↔ ∃ l, t.entry b = some l := Option.isSome_iff_exists

end

/-! ## What one operation does to the tables -/

section

variable {s s' : CacheSystem} {id x : ℕ}

theorem Tracked.mem_added (h : Tracked s) (hx : x ∈ waiting s) : x ∈ s.cache.mshrs.added :=
  h.popped.mem_iff.mpr (List.mem_append_right _ hx)

theorem Tracked.nodup_waiting (h : Tracked s) : (waiting s).Nodup :=
  ((h.popped.nodup_iff.mp h.added).of_append_right)

theorem Tracked.mem_waiting (h : Tracked s) {field : ExtraMfFields}
    (hx : s.cache.extraMfFields x = some field) : x ∈ waiting s := by
  obtain ⟨-, -, l, hl, hmem⟩ := h.fill x field hx
  exact KeyedQueues.mem_elements hl hmem

theorem Unused.extra (h : Unused s id) (ht : Tracked s) : s.cache.extraMfFields id = none := by
  cases hextra : s.cache.extraMfFields id with
  | none => rfl
  | some field => exact absurd (ht.fill id field hextra).1 h.way

/-- A request is held once at most. -/
theorem Tracked.held_le_one (h : Tracked s) (x : ℕ) : held s x ≤ 1 := by
  have hwait := List.nodup_iff_count_le_one.mp h.nodup_waiting x
  have hway := List.nodup_iff_count_le_one.mp h.way x
  unfold held
  split
  · next hextra =>
    by_cases hx : x ∈ waiting s
    · rw [List.count_eq_zero_of_not_mem (h.apart x hx hextra)]
      exact hwait
    · rw [List.count_eq_zero_of_not_mem hx, Nat.zero_add]
      exact hway
  · exact hwait

/-- A request that does not exist is not held. -/
theorem Tracked.held_eq_zero (h : Tracked s) (hx : s.cache.uniqueUid ≤ x) : held s x = 0 := by
  obtain ⟨hway, hadded⟩ := h.known x hx
  rw [held, List.count_eq_zero_of_not_mem fun hmem => hadded (h.mem_added hmem),
    List.count_eq_zero_of_not_mem hway, ite_self]

/-- A request that is held nowhere is not on its way. -/
theorem Tracked.not_mem_onWay (h : Tracked s) (hx : held s x = 0) : x ∉ onWay s := by
  intro hmem
  rw [held, Nat.add_eq_zero_iff] at hx
  cases hextra : s.cache.extraMfFields x with
  | none =>
    rw [if_pos hextra] at hx
    exact List.count_eq_zero.mp hx.2 hmem
  | some field => exact List.count_eq_zero.mp hx.1 (h.mem_waiting hextra)

/-- Requests come on the way that were not there. -/
theorem Tracked.enqueue (h : Tracked s) {ids : List ℕ} (hmshrs : s'.cache.mshrs = s.cache.mshrs)
    (hextra : s'.cache.extraMfFields = s.cache.extraMfFields)
    (hway : (onWay s').Perm (onWay s ++ ids)) (huid : s.cache.uniqueUid ≤ s'.cache.uniqueUid)
    (hids : ids.Nodup) (hknown : ∀ x ∈ ids, x < s'.cache.uniqueUid)
    (hnew : ∀ x ∈ ids, x ∉ onWay s ∧ x ∉ s.cache.mshrs.added) : Tracked s' := by
  have hwaiting : waiting s' = waiting s := by rw [waiting, waiting, hmshrs]
  constructor
  · rw [hmshrs]; exact h.keys
  · rw [hmshrs]; exact h.ready
  · rw [hmshrs]; exact h.entry
  · rw [hmshrs, hextra]; exact h.filled
  · rw [hmshrs, hextra]
    intro x field hx
    obtain ⟨hmem, hrest⟩ := h.fill x field hx
    exact ⟨hway.mem_iff.mpr (List.mem_append_left _ hmem), hrest⟩
  · rw [hextra]; exact h.distinct
  · apply hway.nodup_iff.mpr
    exact h.way.append hids fun x hx hx' => (hnew x hx').1 hx
  · rw [hmshrs]; exact h.added
  · rw [hmshrs, hwaiting]; exact h.popped
  · rw [hwaiting, hextra]
    intro x hx hnone hmem
    rcases List.mem_append.mp (hway.mem_iff.mp hmem) with hmem | hmem
    · exact h.apart x hx hnone hmem
    · exact (hnew x hmem).2 (h.mem_added hx)
  · rw [hmshrs]
    intro x hx
    obtain ⟨hno, hadded⟩ := h.known x (huid.trans hx)
    refine ⟨fun hmem => ?_, hadded⟩
    rcases List.mem_append.mp (hway.mem_iff.mp hmem) with hmem | hmem
    · exact hno hmem
    · exact absurd (hknown x hmem) (Nat.not_lt.mpr hx)

/-- Only the order on the way, the lines and the requests themselves change. -/
theorem Tracked.congr (h : Tracked s) (hmshrs : s'.cache.mshrs = s.cache.mshrs)
    (hextra : s'.cache.extraMfFields = s.cache.extraMfFields)
    (hway : (onWay s').Perm (onWay s)) (huid : s.cache.uniqueUid ≤ s'.cache.uniqueUid) :
    Tracked s' := by
  have hway' : (onWay s').Perm (onWay s ++ []) := by rwa [List.append_nil]
  exact h.enqueue hmshrs hextra hway' huid List.nodup_nil nofun nofun

/-- A request that waits for no fill comes back. -/
theorem Tracked.leave (h : Tracked s) (hnone : s.cache.extraMfFields id = none)
    (hmshrs : s'.cache.mshrs = s.cache.mshrs)
    (hextra : s'.cache.extraMfFields = s.cache.extraMfFields)
    (hway : (onWay s).Perm (id :: onWay s')) (huid : s'.cache.uniqueUid = s.cache.uniqueUid) :
    Tracked s' := by
  have hsub {x : ℕ} (hx : x ∈ onWay s') : x ∈ onWay s :=
    hway.mem_iff.mpr (List.mem_cons_of_mem _ hx)
  constructor
  · rw [hmshrs]; exact h.keys
  · rw [hmshrs]; exact h.ready
  · rw [hmshrs]; exact h.entry
  · rw [hmshrs, hextra]; exact h.filled
  · rw [hmshrs, hextra]
    intro x field hx
    obtain ⟨hmem, hrest⟩ := h.fill x field hx
    refine ⟨(List.mem_cons.mp (hway.mem_iff.mp hmem)).resolve_left ?_, hrest⟩
    rintro rfl
    rw [hnone] at hx
    cases hx
  · rw [hextra]; exact h.distinct
  · exact (List.nodup_cons.mp (hway.nodup_iff.mp h.way)).2
  · rw [hmshrs]; exact h.added
  · rw [hmshrs, waiting, hmshrs]; exact h.popped
  · rw [waiting, hmshrs, hextra]
    exact fun x hx hx' hmem => h.apart x hx hx' (hsub hmem)
  · rw [hmshrs, huid]
    exact fun x hx => ⟨fun hmem => (h.known x hx).1 (hsub hmem), (h.known x hx).2⟩

variable {cfg : CacheConfig} {b : ℕ} {mshrs : MshrTable}

/-- The table after one more request. -/
theorem entry_add (hadd : s.cache.mshrs.add cfg b id = .ok mshrs) (b' : ℕ) :
    mshrs.entry b' = if b' = b then some ((s.cache.mshrs.entry b).getD [] ++ [id])
      else s.cache.mshrs.entry b' := by
  rw [mshrAdd_eq hadd]
  exact KeyedQueues.lookup_pushBack

theorem mem_added_add (hadd : s.cache.mshrs.add cfg b id = .ok mshrs) (hx : x ∈ mshrs.added) :
    x ∈ s.cache.mshrs.added ∨ x ∈ [id] := by
  rw [mshrAdd_eq hadd] at hx
  exact List.mem_append.mp hx

/-- A request waits for a block that is on its way or ready. -/
theorem Tracked.merge (h : Tracked s) (hid : Unused s id)
    (hadd : s.cache.mshrs.add cfg b id = .ok mshrs) (hhit : s.cache.mshrs.probe b = true)
    (hmshrs : s'.cache.mshrs = mshrs) (hextra : s'.cache.extraMfFields = s.cache.extraMfFields)
    (hway : onWay s' = onWay s) (huid : s'.cache.uniqueUid = s.cache.uniqueUid) :
    Tracked s' ∧ (waiting s').Perm (waiting s ++ [id]) := by
  have hentry := entry_add hadd
  have hready : mshrs.currentResponse = s.cache.mshrs.currentResponse := by
    rw [mshrAdd_eq hadd]
  have hwaiting : (waiting s').Perm (waiting s ++ [id]) := by
    rw [waiting, hmshrs, mshrAdd_eq hadd]
    exact KeyedQueues.elements_pushBack
  have hprobe (b' : ℕ) : mshrs.probe b' = true ↔ s.cache.mshrs.probe b' = true := by
    simp only [probe_iff, hentry]
    by_cases hb : b' = b
    · simpa [hb] using probe_iff.mp hhit
    · simp [hb]
  refine ⟨?_, hwaiting⟩
  constructor
  · rw [hmshrs, mshrAdd_eq hadd]
    exact KeyedQueues.nodup_keys_pushBack h.keys
  · rw [hmshrs, hready]; exact h.ready
  · rw [hmshrs, hready]
    exact fun b' hb' => (hprobe b').mpr (h.entry b' hb')
  · rw [hmshrs, hready, hextra]
    exact fun b' hb' => h.filled b' ((hprobe b').mp hb')
  · rw [hmshrs, hready, hextra, hway]
    intro x field hx
    obtain ⟨hmem, hno, l, hl, hxl⟩ := h.fill x field hx
    refine ⟨hmem, hno, ?_⟩
    rw [hentry]
    by_cases hb : field.blockAddr = b
    · rw [if_pos hb]
      refine ⟨_, rfl, List.mem_append_left _ ?_⟩
      rw [← hb, hl]
      exact hxl
    · rw [if_neg hb]
      exact ⟨l, hl, hxl⟩
  · rw [hextra]; exact h.distinct
  · rw [hway]; exact h.way
  · rw [hmshrs, mshrAdd_eq hadd]
    apply h.added.append (List.nodup_singleton id)
    intro x hx hx'
    rw [List.mem_singleton.mp hx'] at hx
    exact hid.added hx
  · have hpopped : mshrs.popped = s.cache.mshrs.popped := by rw [mshrAdd_eq hadd]
    have hadded : mshrs.added = s.cache.mshrs.added ++ [id] := by rw [mshrAdd_eq hadd]
    rw [hmshrs, hpopped, hadded]
    apply (h.popped.append_right [id]).trans
    rw [List.append_assoc]
    exact hwaiting.symm.append_left _
  · rw [hextra, hway]
    intro x hx hnone
    rcases List.mem_append.mp (hwaiting.mem_iff.mp hx) with hx | hx
    · exact h.apart x hx hnone
    · rw [List.mem_singleton.mp hx]
      exact hid.way
  · have hadded : mshrs.added = s.cache.mshrs.added ++ [id] := by rw [mshrAdd_eq hadd]
    rw [hmshrs, hadded, hway, huid]
    intro x hx
    obtain ⟨hno, hno'⟩ := h.known x hx
    refine ⟨hno, fun hmem => ?_⟩
    rcases List.mem_append.mp hmem with hmem | hmem
    · exact hno' hmem
    · rw [List.mem_singleton.mp hmem] at hx
      exact absurd hid.known (Nat.not_lt.mpr hx)

/-- A request for a block that has no entry is sent, and waits for its fill. -/
theorem Tracked.ask (h : Tracked s) (hid : Unused s id) {field : ExtraMfFields}
    (hadd : s.cache.mshrs.add cfg field.blockAddr id = .ok mshrs)
    (hmiss : s.cache.mshrs.probe field.blockAddr = false) (hmshrs : s'.cache.mshrs = mshrs)
    (hextra : s'.cache.extraMfFields = Function.update s.cache.extraMfFields id (some field))
    (hway : (onWay s').Perm (onWay s ++ [id])) (huid : s'.cache.uniqueUid = s.cache.uniqueUid) :
    Tracked s' ∧ (waiting s').Perm (waiting s ++ [id]) := by
  have hentry := entry_add hadd
  have hready : mshrs.currentResponse = s.cache.mshrs.currentResponse := by
    rw [mshrAdd_eq hadd]
  have hadded : mshrs.added = s.cache.mshrs.added ++ [id] := by rw [mshrAdd_eq hadd]
  have hpopped : mshrs.popped = s.cache.mshrs.popped := by rw [mshrAdd_eq hadd]
  have hwaiting : (waiting s').Perm (waiting s ++ [id]) := by
    rw [waiting, hmshrs, mshrAdd_eq hadd]
    exact KeyedQueues.elements_pushBack
  have hnone : s.cache.mshrs.entry field.blockAddr = none := Option.not_isSome_iff_eq_none.mp
    (by rw [← MshrTable.probe, hmiss]; exact Bool.false_ne_true)
  have hnotReady : field.blockAddr ∉ s.cache.mshrs.currentResponse := by
    intro hmem
    exact Bool.false_ne_true (hmiss.symm.trans (h.entry _ hmem))
  -- the block of another fill is another block
  have hother {x : ℕ} {field' : ExtraMfFields} (hx : s.cache.extraMfFields x = some field') :
      field'.blockAddr ≠ field.blockAddr := by
    intro heq
    obtain ⟨-, -, l, hl, -⟩ := h.fill x field' hx
    rw [heq, hnone] at hl
    cases hl
  refine ⟨?_, hwaiting⟩
  constructor
  · rw [hmshrs, mshrAdd_eq hadd]
    exact KeyedQueues.nodup_keys_pushBack h.keys
  · rw [hmshrs, hready]; exact h.ready
  · rw [hmshrs, hready]
    intro b' hb'
    obtain ⟨l, hl⟩ := probe_iff.mp (h.entry b' hb')
    rw [probe_iff, hentry]
    by_cases hb : b' = field.blockAddr
    · exact absurd (hb ▸ hb') hnotReady
    · exact ⟨l, by rw [if_neg hb, hl]⟩
  · rw [hmshrs, hready, hextra]
    intro b' hb'
    by_cases hb : b' = field.blockAddr
    · exact .inr ⟨id, field, Function.update_self _ _ _, hb.symm⟩
    · rw [probe_iff, hentry, if_neg hb, ← probe_iff] at hb'
      rcases h.filled b' hb' with hmem | ⟨x, field', hx, hblock⟩
      · exact .inl hmem
      · right
        refine ⟨x, field', ?_, hblock⟩
        rw [Function.update_of_ne]
        · exact hx
        · rintro rfl
          rw [hid.extra h] at hx
          cases hx
  · rw [hmshrs, hready, hextra]
    intro x field' hx
    by_cases hxid : x = id
    · rw [hxid, Function.update_self] at hx
      cases hx
      refine ⟨hway.mem_iff.mpr (by simp [hxid]), hnotReady, ?_⟩
      rw [hentry, if_pos rfl]
      exact ⟨_, rfl, by simp [hxid]⟩
    · rw [Function.update_of_ne hxid] at hx
      obtain ⟨hmem, hno, l, hl, hxl⟩ := h.fill x field' hx
      refine ⟨hway.mem_iff.mpr (List.mem_append_left _ hmem), hno, l, ?_, hxl⟩
      rw [hentry, if_neg (hother hx), hl]
  · rw [hextra]
    intro x x' field' field'' hx hx' heq
    by_cases hxid : x = id <;> by_cases hxid' : x' = id
    · rw [hxid, hxid']
    · rw [hxid, Function.update_self] at hx
      rw [Function.update_of_ne hxid'] at hx'
      cases hx
      exact absurd heq.symm (hother hx')
    · rw [hxid', Function.update_self] at hx'
      rw [Function.update_of_ne hxid] at hx
      cases hx'
      exact absurd heq (hother hx)
    · rw [Function.update_of_ne hxid] at hx
      rw [Function.update_of_ne hxid'] at hx'
      exact h.distinct x x' field' field'' hx hx' heq
  · apply hway.nodup_iff.mpr
    apply h.way.append (List.nodup_singleton id)
    intro x hx hx'
    rw [List.mem_singleton.mp hx'] at hx
    exact hid.way hx
  · rw [hmshrs, hadded]
    apply h.added.append (List.nodup_singleton id)
    intro x hx hx'
    rw [List.mem_singleton.mp hx'] at hx
    exact hid.added hx
  · rw [hmshrs, hpopped, hadded]
    apply (h.popped.append_right [id]).trans
    rw [List.append_assoc]
    exact hwaiting.symm.append_left _
  · rw [hextra]
    intro x hx hnone hmem
    have hxid : x ≠ id := by
      rintro rfl
      rw [Function.update_self] at hnone
      cases hnone
    rw [Function.update_of_ne hxid] at hnone
    have hx' : x ∈ waiting s := by simpa [hxid] using hwaiting.mem_iff.mp hx
    have hmem' : x ∈ onWay s := by simpa [hxid] using hway.mem_iff.mp hmem
    exact h.apart x hx' hnone hmem'
  · rw [hmshrs, hadded, huid]
    intro x hx
    obtain ⟨hno, hno'⟩ := h.known x hx
    have hxid : x ≠ id := by
      rintro rfl
      exact absurd hid.known (Nat.not_lt.mpr hx)
    refine ⟨fun hmem => hno ?_, fun hmem => hno' ?_⟩
    · simpa [hxid] using hway.mem_iff.mp hmem
    · simpa [hxid] using hmem

/-- A fill arrives: its block is ready. -/
theorem Tracked.filledBy (h : Tracked s) {field : ExtraMfFields}
    (hfield : s.cache.extraMfFields id = some field)
    (hready : s.cache.mshrs.markReady field.blockAddr = .ok mshrs)
    (hmshrs : s'.cache.mshrs = mshrs)
    (hextra : s'.cache.extraMfFields = Function.update s.cache.extraMfFields id none)
    (hway : (onWay s).Perm (id :: onWay s')) (huid : s'.cache.uniqueUid = s.cache.uniqueUid) :
    Tracked s' := by
  obtain ⟨hprobe, hmark⟩ := markReady_eq hready
  have hwaiting : waiting s' = waiting s := by rw [waiting, waiting, hmshrs, hmark]
  have hresponse : mshrs.currentResponse = s.cache.mshrs.currentResponse ++ [field.blockAddr] := by
    rw [hmark]
  have hsame (b' : ℕ) : mshrs.entry b' = s.cache.mshrs.entry b' := by rw [hmark]; rfl
  obtain ⟨hmem, hno, -⟩ := h.fill id field hfield
  have hnodup := List.nodup_cons.mp (hway.nodup_iff.mp h.way)
  have hsub {x : ℕ} (hx : x ∈ onWay s') : x ∈ onWay s :=
    hway.mem_iff.mpr (List.mem_cons_of_mem _ hx)
  -- an outstanding fill that is left
  have hleft {x : ℕ} {field' : ExtraMfFields} (hx : s'.cache.extraMfFields x = some field') :
      x ≠ id ∧ s.cache.extraMfFields x = some field' := by
    rw [hextra] at hx
    by_cases hxid : x = id
    · rw [hxid, Function.update_self] at hx
      cases hx
    · exact ⟨hxid, by rwa [Function.update_of_ne hxid] at hx⟩
  constructor
  · rw [hmshrs, hmark]; exact h.keys
  · rw [hmshrs, hresponse]
    apply h.ready.append (List.nodup_singleton _)
    intro x hx hx'
    rw [List.mem_singleton.mp hx'] at hx
    exact hno hx
  · rw [hmshrs, hresponse]
    intro b' hb'
    rw [probe_iff, hsame, ← probe_iff]
    rcases List.mem_append.mp hb' with hb' | hb'
    · exact h.entry b' hb'
    · rw [List.mem_singleton.mp hb']
      exact hprobe
  · rw [hmshrs, hresponse]
    intro b' hb'
    rw [probe_iff, hsame, ← probe_iff] at hb'
    rcases h.filled b' hb' with hmem' | ⟨x, field', hx, hblock⟩
    · exact .inl (List.mem_append_left _ hmem')
    · by_cases hxid : x = id
      · rw [hxid, hfield] at hx
        cases hx
        exact .inl (by simp [hblock])
      · exact .inr ⟨x, field', by rw [hextra, Function.update_of_ne hxid, hx], hblock⟩
  · rw [hmshrs, hresponse]
    intro x field' hx
    obtain ⟨hxid, hx⟩ := hleft hx
    obtain ⟨hmem', hno', hl⟩ := h.fill x field' hx
    refine ⟨?_, ?_, by rw [hsame]; exact hl⟩
    · exact (List.mem_cons.mp (hway.mem_iff.mp hmem')).resolve_left hxid
    · rw [List.mem_append, List.mem_singleton, not_or]
      exact ⟨hno', fun heq => hxid (h.distinct x id field' field hx hfield heq)⟩
  · intro x x' field' field'' hx hx'
    exact h.distinct x x' field' field'' (hleft hx).2 (hleft hx').2
  · exact hnodup.2
  · rw [hmshrs, hmark]; exact h.added
  · rw [hmshrs, hmark, hwaiting]; exact h.popped
  · rw [hwaiting]
    intro x hx hnone hmem'
    by_cases hxid : x = id
    · exact hnodup.1 (hxid ▸ hmem')
    · rw [hextra, Function.update_of_ne hxid] at hnone
      exact h.apart x hx hnone (hsub hmem')
  · rw [hmshrs, hmark, huid]
    exact fun x hx => ⟨fun hmem' => (h.known x hx).1 (hsub hmem'), (h.known x hx).2⟩

/-- A fill does not change where its request is held: it waits for its turn. -/
theorem Tracked.held_filled (h : Tracked s) {field : ExtraMfFields}
    (hfield : s.cache.extraMfFields id = some field) (hwaiting : waiting s' = waiting s)
    (hextra : s'.cache.extraMfFields = Function.update s.cache.extraMfFields id none)
    (hway : (onWay s).Perm (id :: onWay s')) (x : ℕ) : held s' x = held s x := by
  by_cases hx : x = id
  · subst hx
    have hnone : s'.cache.extraMfFields x = none := by rw [hextra, Function.update_self]
    have hnot := (List.nodup_cons.mp (hway.nodup_iff.mp h.way)).1
    rw [held_of_none hnone, held_of_some hfield, hwaiting, List.count_eq_zero_of_not_mem hnot,
      Nat.add_zero]
  · have hsame : s'.cache.extraMfFields x = s.cache.extraMfFields x := by
      rw [hextra, Function.update_of_ne hx]
    have hcount : (onWay s).count x = (onWay s').count x := by
      rw [hway.count_eq, List.count_cons_of_ne (Ne.symm hx)]
    rw [held, held, hwaiting, hsame, hcount]

/-- The first request of the first ready block is taken out. -/
theorem Tracked.pop (h : Tracked s) (hpop : s.cache.mshrs.popNextAccess = .ok (id, mshrs))
    (hmshrs : s'.cache.mshrs = mshrs) (hextra : s'.cache.extraMfFields = s.cache.extraMfFields)
    (hway : onWay s' = onWay s) (huid : s'.cache.uniqueUid = s.cache.uniqueUid) :
    Tracked s' ∧ (waiting s).Perm (id :: waiting s') ∧ s.cache.extraMfFields id = none := by
  obtain ⟨b, rest, l, hresponse, hl, hafter⟩ := popNextAccess_eq hpop
  have hnodup : b ∉ rest ∧ rest.Nodup := List.nodup_cons.mp (by rw [← hresponse]; exact h.ready)
  have hready : mshrs.currentResponse = if l = [] then rest else b :: rest := by
    rw [hafter, ← hresponse]
  have hself : mshrs.entry b = if l = [] then none else some l := by
    rw [hafter]
    exact KeyedQueues.lookup_popFront_self h.keys hl
  have hother {b' : ℕ} (hb : b' ≠ b) : mshrs.entry b' = s.cache.mshrs.entry b' := by
    rw [hafter]
    exact KeyedQueues.lookup_popFront_of_ne hb
  have hwaiting : (waiting s).Perm (id :: waiting s') := by
    rw [waiting, waiting, hmshrs, hafter]
    exact (KeyedQueues.elements_popFront hl).symm
  have hnotReady {x : ℕ} {field : ExtraMfFields} (hx : s.cache.extraMfFields x = some field) :
      field.blockAddr ≠ b := by
    rintro rfl
    exact (h.fill x field hx).2.1 (by rw [hresponse]; exact List.mem_cons_self)
  have hsub {b' : ℕ} (hb' : b' ∈ mshrs.currentResponse) : b' ∈ s.cache.mshrs.currentResponse := by
    rw [hready] at hb'
    rw [hresponse]
    split at hb'
    · exact List.mem_cons_of_mem _ hb'
    · exact hb'
  refine ⟨?_, hwaiting, ?_⟩
  · constructor
    · rw [hmshrs, hafter]
      exact KeyedQueues.keys_popFront_sublist.nodup h.keys
    · rw [hmshrs, hready]
      split
      · exact hnodup.2
      · exact List.nodup_cons.mpr hnodup
    · rw [hmshrs]
      intro b' hb'
      by_cases hb : b' = b
      · rw [hready, hb] at hb'
        by_cases hlast : l = []
        · rw [if_pos hlast] at hb'
          exact absurd hb' hnodup.1
        · rw [probe_iff, hb, hself, if_neg hlast]
          exact ⟨l, rfl⟩
      · rw [probe_iff, hother hb, ← probe_iff]
        exact h.entry b' (hsub hb')
    · rw [hmshrs, hextra]
      intro b' hb'
      by_cases hb : b' = b
      · left
        rw [probe_iff, hb, hself] at hb'
        by_cases hlast : l = []
        · rw [if_pos hlast] at hb'
          obtain ⟨l', hl'⟩ := hb'
          cases hl'
        · rw [hready, if_neg hlast, hb]
          exact List.mem_cons_self
      · rw [probe_iff, hother hb, ← probe_iff] at hb'
        rcases h.filled b' hb' with hmem | hfill
        · left
          rw [hresponse] at hmem
          have hrest := (List.mem_cons.mp hmem).resolve_left hb
          rw [hready]
          split
          · exact hrest
          · exact List.mem_cons_of_mem _ hrest
        · exact .inr hfill
    · rw [hmshrs, hextra, hway]
      intro x field hx
      obtain ⟨hmem, hno, hentry⟩ := h.fill x field hx
      exact ⟨hmem, fun hin => hno (hsub hin), by rw [hother (hnotReady hx)]; exact hentry⟩
    · rw [hextra]; exact h.distinct
    · rw [hway]; exact h.way
    · rw [hmshrs, hafter]; exact h.added
    · rw [hmshrs, hafter]
      show s.cache.mshrs.added.Perm (s.cache.mshrs.popped ++ [id] ++ waiting s')
      rw [List.append_assoc, List.singleton_append]
      exact h.popped.trans (hwaiting.append_left _)
    · rw [hextra, hway]
      exact fun x hx => h.apart x (hwaiting.mem_iff.mpr (List.mem_cons_of_mem _ hx))
    · rw [hmshrs, hafter, hway, huid]
      exact h.known
  · -- the request of an outstanding fill waits in another entry
    cases hfield : s.cache.extraMfFields id with
    | none => rfl
    | some field =>
      exfalso
      obtain ⟨-, -, l', hl', hmem⟩ := h.fill id field hfield
      have hin : id ∈ waiting s' := by
        rw [waiting, hmshrs]
        exact KeyedQueues.mem_elements ((hother (hnotReady hfield)).trans hl') hmem
      exact (List.nodup_cons.mp (hwaiting.nodup_iff.mp h.nodup_waiting)).1 hin

end

/-! ## The requests that an operation adds -/

/-- An operation adds the requests `ids` to those that are held. -/
structure Enters (ids : List ℕ) (s s' : CacheSystem) : Prop where
  tracked : Tracked s'
  uid : s.cache.uniqueUid ≤ s'.cache.uniqueUid
  held : ∀ x, held s' x = held s x + ids.count x
  kept : ∀ x < s.cache.uniqueUid,
    (s'.cache.fetches x).accessType = (s.cache.fetches x).accessType ∧
    (s'.cache.fetches x).cacheable = (s.cache.fetches x).cacheable
  /-- The requests that the cache makes are its own. -/
  made : ∀ x, s.cache.uniqueUid ≤ x → x < s'.cache.uniqueUid →
    L2DataCache.isGlobal (s'.cache.fetches x) = false ∧ (s'.cache.fetches x).cacheable = true
  asks : ∀ x, s.cache.extraMfFields x = none → s'.cache.extraMfFields x ≠ none → x ∈ ids
  added : ∀ x ∈ s'.cache.mshrs.added, x ∈ s.cache.mshrs.added ∨ x ∈ ids

section

variable {s s' s'' : CacheSystem} {id : ℕ} {ids ids' : List ℕ}

theorem Enters.trans (h : Enters ids s s') (h' : Enters ids' s' s'') :
    Enters (ids ++ ids') s s'' := by
  constructor
  · exact h'.tracked
  · exact h.uid.trans h'.uid
  · intro x
    rw [h'.held, h.held, List.count_append, Nat.add_assoc]
  · intro x hx
    obtain ⟨htype, hcache⟩ := h.kept x hx
    obtain ⟨htype', hcache'⟩ := h'.kept x (hx.trans_le h.uid)
    exact ⟨htype'.trans htype, hcache'.trans hcache⟩
  · intro x hx hx'
    by_cases hmid : x < s'.cache.uniqueUid
    · obtain ⟨hglobal, hcache⟩ := h.made x hx hmid
      obtain ⟨htype', hcache'⟩ := h'.kept x hmid
      refine ⟨?_, hcache'.trans hcache⟩
      rw [L2DataCache.isGlobal, htype']
      exact hglobal
    · exact h'.made x (Nat.le_of_not_lt hmid) hx'
  · intro x hx hx'
    by_cases hmid : s'.cache.extraMfFields x = none
    · exact List.mem_append_right _ (h'.asks x hmid hx')
    · exact List.mem_append_left _ (h.asks x hx hmid)
  · intro x hx
    rcases h'.added x hx with hx | hx
    · exact (h.added x hx).imp_right (List.mem_append_left _)
    · exact .inr (List.mem_append_right _ hx)

theorem Enters.nodup (h : Enters ids s s') : ids.Nodup := by
  rw [List.nodup_iff_count_le_one]
  intro x
  have hheld := h.held x
  have hone := h.tracked.held_le_one x
  omega

theorem Enters.lt_uid (h : Enters ids s s') {x : ℕ} (hx : x ∈ ids) :
    x < s'.cache.uniqueUid := by
  by_contra hge
  have hheld := h.held x
  have hzero := h.tracked.held_eq_zero (Nat.le_of_not_lt hge)
  have hpos := List.count_pos_iff.mpr hx
  omega

/-- Requests come on the way. -/
theorem Tracked.enters_enqueue (h : Tracked s) (hmshrs : s'.cache.mshrs = s.cache.mshrs)
    (hextra : s'.cache.extraMfFields = s.cache.extraMfFields)
    (hway : (onWay s').Perm (onWay s ++ ids)) (huid : s.cache.uniqueUid ≤ s'.cache.uniqueUid)
    (hids : ids.Nodup) (hknown : ∀ x ∈ ids, x < s'.cache.uniqueUid)
    (hnew : ∀ x ∈ ids, x ∉ onWay s ∧ x ∉ s.cache.mshrs.added)
    (hkept : ∀ x < s.cache.uniqueUid,
      (s'.cache.fetches x).accessType = (s.cache.fetches x).accessType ∧
      (s'.cache.fetches x).cacheable = (s.cache.fetches x).cacheable)
    (hmade : ∀ x, s.cache.uniqueUid ≤ x → x < s'.cache.uniqueUid →
      L2DataCache.isGlobal (s'.cache.fetches x) = false ∧
      (s'.cache.fetches x).cacheable = true) : Enters ids s s' := by
  refine ⟨h.enqueue hmshrs hextra hway huid hids hknown hnew, huid, fun x => ?_, hkept, hmade, ?_,
    fun x hx => .inl (hmshrs ▸ hx)⟩
  · rw [held, held, waiting, waiting, hmshrs, hextra, hway.count_eq, List.count_append,
      Nat.add_assoc]
    congr 1
    split
    · rfl
    · next hsome =>
      rw [Nat.zero_add, eq_comm]
      apply List.count_eq_zero_of_not_mem
      intro hx
      obtain ⟨field, hfield⟩ := Option.ne_none_iff_exists'.mp hsome
      exact (hnew x hx).1 (h.fill x field hfield).1
  · intro x hnone hsome
    rw [hextra] at hsome
    exact absurd hnone hsome

/-- A cache with other lines or other contents of the requests. -/
theorem Tracked.enters_nothing (h : Tracked s) (hmshrs : s'.cache.mshrs = s.cache.mshrs)
    (hextra : s'.cache.extraMfFields = s.cache.extraMfFields)
    (hway : (onWay s').Perm (onWay s)) (huid : s'.cache.uniqueUid = s.cache.uniqueUid)
    (hkept : ∀ x < s.cache.uniqueUid,
      (s'.cache.fetches x).accessType = (s.cache.fetches x).accessType ∧
      (s'.cache.fetches x).cacheable = (s.cache.fetches x).cacheable) : Enters [] s s' :=
  h.enters_enqueue hmshrs hextra (by rwa [List.append_nil]) huid.ge List.nodup_nil nofun nofun
    hkept fun _ hx hx' => absurd hx' (by rw [huid]; exact Nat.not_lt.mpr hx)

/-- One request comes on the way. -/
theorem Unused.enters_enqueue (hid : Unused s id) (h : Tracked s)
    (hmshrs : s'.cache.mshrs = s.cache.mshrs)
    (hextra : s'.cache.extraMfFields = s.cache.extraMfFields)
    (hway : (onWay s').Perm (onWay s ++ [id])) (huid : s'.cache.uniqueUid = s.cache.uniqueUid)
    (hkept : ∀ x < s.cache.uniqueUid,
      (s'.cache.fetches x).accessType = (s.cache.fetches x).accessType ∧
      (s'.cache.fetches x).cacheable = (s.cache.fetches x).cacheable) : Enters [id] s s' := by
  apply h.enters_enqueue hmshrs hextra hway huid.ge (List.nodup_singleton id) _ _ hkept
  · exact fun _ hx hx' => absurd hx' (by rw [huid]; exact Nat.not_lt.mpr hx)
  · intro x hx
    rw [List.mem_singleton.mp hx, huid]
    exact hid.known
  · intro x hx
    rw [List.mem_singleton.mp hx]
    exact ⟨hid.way, hid.added⟩

/-- A request waits for a block that is on its way or ready. -/
theorem Unused.enters_merge (hid : Unused s id) (h : Tracked s) {cfg : CacheConfig} {b : ℕ}
    (hadd : s.cache.mshrs.add cfg b id = .ok s'.cache.mshrs)
    (hhit : s.cache.mshrs.probe b = true)
    (hextra : s'.cache.extraMfFields = s.cache.extraMfFields)
    (hway : onWay s' = onWay s) (huid : s'.cache.uniqueUid = s.cache.uniqueUid)
    (hkept : ∀ x < s.cache.uniqueUid,
      (s'.cache.fetches x).accessType = (s.cache.fetches x).accessType ∧
      (s'.cache.fetches x).cacheable = (s.cache.fetches x).cacheable) : Enters [id] s s' := by
  obtain ⟨htracked, hwaiting⟩ := h.merge hid hadd hhit rfl hextra hway huid
  refine ⟨htracked, huid.ge, fun x => ?_, hkept, ?_, ?_, fun x hx => mem_added_add hadd hx⟩
  · rw [held, held, hwaiting.count_eq, List.count_append, hextra, hway, Nat.add_right_comm]
  · exact fun _ hx hx' => absurd hx' (by rw [huid]; exact Nat.not_lt.mpr hx)
  · intro x hnone hsome
    rw [hextra] at hsome
    exact absurd hnone hsome

/-- A request for a block that has no entry is sent. -/
theorem Unused.enters_ask (hid : Unused s id) (h : Tracked s) {cfg : CacheConfig}
    {field : ExtraMfFields}
    (hextra : s'.cache.extraMfFields = Function.update s.cache.extraMfFields id (some field))
    (hadd : s.cache.mshrs.add cfg field.blockAddr id = .ok s'.cache.mshrs)
    (hmiss : s.cache.mshrs.probe field.blockAddr = false)
    (hway : (onWay s').Perm (onWay s ++ [id])) (huid : s'.cache.uniqueUid = s.cache.uniqueUid)
    (hkept : ∀ x < s.cache.uniqueUid,
      (s'.cache.fetches x).accessType = (s.cache.fetches x).accessType ∧
      (s'.cache.fetches x).cacheable = (s.cache.fetches x).cacheable) : Enters [id] s s' := by
  obtain ⟨htracked, hwaiting⟩ := h.ask hid hadd hmiss rfl hextra hway huid
  refine ⟨htracked, huid.ge, fun x => ?_, hkept, ?_, ?_, fun x hx => mem_added_add hadd hx⟩
  · rw [held, held, hwaiting.count_eq, hway.count_eq, List.count_append, List.count_append, hextra]
    by_cases hx : x = id
    · rw [hx, Function.update_self, if_neg nofun, hid.extra h, if_pos rfl,
        List.count_eq_zero_of_not_mem hid.way, Nat.add_zero, Nat.add_zero]
    · rw [Function.update_of_ne hx, List.count_singleton, if_neg (by simpa using Ne.symm hx),
        Nat.add_zero, Nat.add_zero, Nat.add_zero]
  · exact fun _ hx hx' => absurd hx' (by rw [huid]; exact Nat.not_lt.mpr hx)
  · intro x hnone hsome
    rw [hextra] at hsome
    by_cases hx : x = id
    · exact List.mem_singleton.mpr hx
    · rw [Function.update_of_ne hx] at hsome
      exact absurd hnone hsome

end

section

variable {cfg : CacheConfig} {addr blockAddr idx idx' id time : ℕ} {s s' : WithEvents}
  {memory : List ℕ} {accessStatus : CacheRequestStatus}

/-- A cache with the requests in the memory, in the middle of an access. -/
abbrev during (c : DataCache) (memory : List ℕ) : CacheSystem := { cache := c, memory }

theorem onWay_queue (c c' : DataCache) (memory ids : List ℕ)
    (h : c'.missQueue = c.missQueue ++ ids) :
    (onWay (during c' memory)).Perm (onWay (during c memory) ++ ids) := by
  rw [onWay, onWay, h, List.append_assoc, List.append_assoc]
  exact List.perm_append_comm.append_left _

/-- An accepted read request adds itself. -/
theorem ReadRequest.enters {r : ReadRequestResult}
    (h : ReadRequest cfg addr blockAddr idx id time s r) (hmiss : r.doMiss = true)
    (ht : Tracked (during s.1 memory)) (hid : Unused (during s.1 memory) id) :
    Enters [id] (during s.1 memory) (during r.state.1 memory) := by
  cases h with
  | failed => cases hmiss
  | merged a mshrs hhit htag hadd =>
    exact hid.enters_merge ht hadd hhit rfl rfl rfl fun _ _ => ⟨rfl, rfl⟩
  | sent a mshrs hprobe hqueue htag hadd =>
    refine hid.enters_ask ht rfl hadd hprobe (onWay_queue _ _ memory [id] rfl) rfl fun x _ => ?_
    dsimp only
    by_cases hx : x = id
    · rw [hx, Function.update_self]
      exact ⟨rfl, rfl⟩
    · rw [Function.update_of_ne hx]
      exact ⟨rfl, rfl⟩

/-- The write-backs of a block are new requests. -/
theorem WroteBack.enters {e : EvictedBlockInfo} {n : ℕ} (h : WroteBack cfg e n s s')
    (ht : Tracked (during s.1 memory)) :
    Enters ((List.range n).map (s.1.uniqueUid + ·)) (during s.1 memory) (during s'.1 memory) := by
  have huid : s.1.uniqueUid ≤ s'.1.uniqueUid := by rw [h.uid]; exact Nat.le_add_right _ _
  apply ht.enters_enqueue h.mshrs h.extra (onWay_queue _ _ memory _ h.queue) huid
  · exact List.Nodup.map (fun i j hij => Nat.add_left_cancel hij) List.nodup_range
  · intro x hx
    obtain ⟨k, hk, rfl⟩ := List.mem_map.mp hx
    show _ < s'.1.uniqueUid
    rw [h.uid]
    exact Nat.add_lt_add_left (List.mem_range.mp hk) _
  · intro x hx
    obtain ⟨k, -, rfl⟩ := List.mem_map.mp hx
    exact ht.known _ (Nat.le_add_right _ _)
  · intro x hx
    show (s'.1.fetches x).accessType = _ ∧ _
    rw [h.kept x fun hk => absurd hx (Nat.not_lt.mpr hk.1)]
    exact ⟨rfl, rfl⟩
  · intro x hx hx'
    obtain ⟨k, rfl⟩ := Nat.exists_eq_add_of_le hx
    have hk : k < n := by
      have hlt : s.1.uniqueUid + k < s'.1.uniqueUid := hx'
      rw [h.uid] at hlt
      exact Nat.lt_of_add_lt_add_left hlt
    show L2DataCache.isGlobal (s'.1.fetches (s.1.uniqueUid + k)) = false ∧ _
    rw [h.made k hk]
    exact ⟨rfl, rfl⟩

/-- What is written back after a miss are new requests. -/
theorem writeBackEvicted_enters {evicted : Option EvictedBlockInfo}
    (h : DataCache.writeBackEvicted cfg evicted s = .ok s') (ht : Tracked (during s.1 memory)) :
    ∃ ids, Enters ids (during s.1 memory) (during s'.1 memory) ∧
      ∀ x ∈ ids, s.1.uniqueUid ≤ x := by
  rcases writeBackEvicted_cases h with rfl | ⟨e, -, -, -, hback⟩
  · exact ⟨[], ht.enters_nothing rfl rfl (List.Perm.refl _) rfl fun _ _ => ⟨rfl, rfl⟩, nofun⟩
  · refine ⟨_, hback.enters ht, fun x hx => ?_⟩
    obtain ⟨k, -, rfl⟩ := List.mem_map.mp hx
    exact Nat.le_add_right _ _

/-- An access of the tag array for a hit changes the lines only. -/
theorem touch_eq {c c' : DataCache} (h : c.touch cfg addr idx id time = .ok (idx', c')) :
    ∃ lines, c' = { c with lines } := by
  obtain ⟨r, -, h⟩ := bind_eq_ok.mp h
  cases h
  exact ⟨r.lines, rfl⟩

/-- A request that the cache makes is not held before it is sent. -/
theorem newFetch_enters {c : DataCache} (ht : Tracked (during c memory)) {f : CacheFetch}
    (hglobal : L2DataCache.isGlobal f = false) (hcache : f.cacheable = true) :
    Enters [] (during c memory) (during (c.newFetch f).2 memory) := by
  refine ht.enters_enqueue rfl rfl ?_ (Nat.le_succ _) List.nodup_nil nofun nofun ?_ ?_
  · rw [List.append_nil]
    exact List.Perm.refl _
  · intro x hx
    dsimp only [DataCache.newFetch] at hx ⊢
    rw [Function.update_of_ne (Nat.ne_of_lt hx)]
    exact ⟨rfl, rfl⟩
  · intro x hx hx'
    have hself : x = c.uniqueUid := Nat.le_antisymm (Nat.le_of_lt_succ hx') hx
    dsimp only [DataCache.newFetch]
    rw [hself, Function.update_self]
    exact ⟨hglobal, hcache⟩

/-- What an access adds: nothing when it hits without a write or fails, and otherwise the request
and new ones. -/
inductive AccessAdds (s : WithEvents) (id : ℕ) :
    CacheRequestStatus → List CacheEvent → List ℕ → Prop
  | hit : AccessAdds s id .hit s.2 []
  | failed : AccessAdds s id .reservationFail s.2 []
  | writeSent : AccessAdds s id .hit (s.2 ++ [.writeRequestSent]) [id]
  | miss (events : List CacheEvent) (ids : List ℕ) (hnew : ∀ x ∈ ids, s.1.uniqueUid ≤ x) :
      AccessAdds s id .miss events (id :: ids)

/-- The requests that are held after an access. -/
theorem access_enters (h : DataCache.access cfg addr time id s = .ok (accessStatus, s'))
    (ht : Tracked (during s.1 memory)) (hid : Unused (during s.1 memory) id) :
    ∃ ids, Enters ids (during s.1 memory) (during s'.1 memory) ∧
      AccessAdds s id accessStatus s'.2 ids := by
  have hread {c : DataCache} (hmshrs : c.mshrs = s.1.mshrs)
      (hextra : c.extraMfFields = s.1.extraMfFields) (hqueue : c.missQueue = s.1.missQueue)
      (huid : c.uniqueUid = s.1.uniqueUid) (hfetches : c.fetches = s.1.fetches) :
      Enters [] (during s.1 memory) (during c memory) := by
    apply ht.enters_nothing hmshrs hextra _ huid
    · exact fun x _ => by dsimp only; rw [hfetches]; exact ⟨rfl, rfl⟩
    · rw [onWay, onWay, hqueue]
  have hwrite {c : DataCache} (hmshrs : c.mshrs = s.1.mshrs)
      (hextra : c.extraMfFields = s.1.extraMfFields) (hqueue : c.missQueue = s.1.missQueue ++ [id])
      (huid : c.uniqueUid = s.1.uniqueUid) (hfetches : c.fetches = s.1.fetches) :
      Enters [id] (during s.1 memory) (during c memory) := by
    apply hid.enters_enqueue ht hmshrs hextra (onWay_queue _ _ memory [id] hqueue) huid
    exact fun x _ => by dsimp only; rw [hfetches]; exact ⟨rfl, rfl⟩
  obtain ⟨status, idx, -, houtcome⟩ := access_cases h
  cases houtcome with
  | failed => exact ⟨[], hread rfl rfl rfl rfl rfl, .failed⟩
  | readHit idx' c _ _ htouch =>
    obtain ⟨lines, rfl⟩ := touch_eq htouch
    exact ⟨[], hread rfl rfl rfl rfl rfl, .hit⟩
  | writeHit idx' c _ _ _ htouch =>
    obtain ⟨lines, rfl⟩ := touch_eq htouch
    exact ⟨[], hread rfl rfl rfl rfl rfl, .hit⟩
  | writeThrough idx' c _ _ _ htouch =>
    obtain ⟨lines, rfl⟩ := touch_eq htouch
    exact ⟨[id], hwrite rfl rfl rfl rfl rfl, .writeSent⟩
  | writeEvict => exact ⟨[id], hwrite rfl rfl rfl rfl rfl, .writeSent⟩
  | writeAround => exact ⟨[id], hwrite rfl rfl rfl rfl rfl, .miss _ [] nofun⟩
  | readMiss r s' _ _ _ _ hrequest hmiss hback =>
    have hsent := hrequest.enters hmiss ht hid
    obtain ⟨ids, hwrote, hnew⟩ := writeBackEvicted_enters hback hsent.tracked
    exact ⟨[id] ++ ids, hsent.trans hwrote, .miss _ ids fun x hx => hsent.uid.trans (hnew x hx)⟩
  | writeAllocate r s' _ _ _ _ _ hrequest hmiss hback =>
    have hsent := hwrite (c := (sendWriteRequest id .writeRequestSent s).1) rfl rfl rfl rfl rfl
    have hmade := newFetch_enters hsent.tracked (f := DataCache.writeAllocFetch cfg
      (s.1.fetches id)) rfl rfl
    have hnewId : Unused (during ((sendWriteRequest id .writeRequestSent s).1.newFetch
        (DataCache.writeAllocFetch cfg (s.1.fetches id))).2 memory) s.1.uniqueUid := by
      obtain ⟨hway, hadded⟩ := hsent.tracked.known s.1.uniqueUid le_rfl
      exact ⟨Nat.lt_succ_self _, hway, hadded⟩
    have hread' := hrequest.enters hmiss hmade.tracked hnewId
    obtain ⟨ids, hwrote, hnew⟩ := writeBackEvicted_enters hback hread'.tracked
    refine ⟨[id] ++ [] ++ [s.1.uniqueUid] ++ ids,
      ((hsent.trans hmade).trans hread').trans hwrote, .miss _ (s.1.uniqueUid :: ids) ?_⟩
    intro x hx
    rcases List.mem_cons.mp hx with rfl | hx
    · exact le_rfl
    · exact ((hsent.trans hmade).trans hread').uid.trans (hnew x hx)

end

/-! ## Runs -/

section

variable {cfg : CacheConfig} {s s' : CacheSystem}

theorem tracked_initial (cfg : CacheConfig) (tags : ℕ → ℕ × ℕ) (fetches : ℕ → CacheFetch) :
    Tracked { cache := .initial cfg tags fetches } := by
  constructor
  · exact List.nodup_nil
  · exact List.nodup_nil
  · exact nofun
  · exact nofun
  · exact nofun
  · exact nofun
  · exact List.nodup_nil
  · exact List.nodup_nil
  · exact List.Perm.refl _
  · exact nofun
  · exact fun _ _ => ⟨nofun, nofun⟩

/-- The number of a new request is not used. -/
theorem Tracked.unused_newFetch {c : DataCache} {memory : List ℕ} (h : Tracked (during c memory))
    (f : CacheFetch) : Unused (during (c.newFetch f).2 memory) c.uniqueUid :=
  ⟨Nat.lt_succ_self _, (h.known _ le_rfl).1, (h.known _ le_rfl).2⟩

/-- A request that was made and has not reached the cache changes nothing. -/
theorem Tracked.newFetch {c : DataCache} {memory : List ℕ} (h : Tracked (during c memory))
    (f : CacheFetch) : Tracked (during (c.newFetch f).2 memory) :=
  h.congr rfl rfl (List.Perm.refl _) (Nat.le_succ _)

/-- A call of a data cache keeps the tables right. -/
theorem Tracked.step (h : Tracked s) {a : CacheAction} (hstep : s.step cfg a = .ok s') :
    Tracked s' := by
  cases a with
  | access f addr time =>
    obtain ⟨cache, hcache, hs⟩ := bind_eq_ok.mp hstep
    cases hs
    obtain ⟨status, events, haccess⟩ := step_access hcache
    obtain ⟨ids, henters, -⟩ := access_enters haccess (h.newFetch f) (h.unused_newFetch f)
    exact henters.tracked
  | fill id time =>
    dsimp only [CacheSystem.step] at hstep
    split at hstep
    · next hmem =>
      obtain ⟨cache, hcache, hs⟩ := bind_eq_ok.mp hstep
      cases hs
      have hway : (onWay s).Perm (id :: (s.cache.missQueue ++ s.memory.erase id)) :=
        ((List.perm_cons_erase hmem).append_left _).trans List.perm_middle
      rcases step_fill hcache with ⟨hnone, rfl⟩ | ⟨field, lines, mshrs, hfield, -, hready, rfl⟩
      · exact h.leave hnone rfl rfl hway rfl
      · exact h.filledBy hfield hready rfl rfl hway rfl
    · cases hstep
      exact h
  | popNextAccess =>
    obtain ⟨cache, hcache, hs⟩ := bind_eq_ok.mp hstep
    cases hs
    rcases step_pop hcache with rfl | ⟨id, mshrs, hpop, rfl⟩
    · exact h
    · refine (h.pop hpop ?_ ?_ ?_ ?_).1 <;> rfl
  | cycle =>
    cases hstep
    refine h.congr rfl rfl ?_ le_rfl
    show (s.cache.missQueue.tail ++ (s.memory ++ s.cache.missQueue.head?.toList)).Perm _
    cases hqueue : s.cache.missQueue with
    | nil => simp [onWay, hqueue]
    | cons id queue =>
      rw [onWay, hqueue]
      show (queue ++ (s.memory ++ [id])).Perm (id :: queue ++ s.memory)
      rw [← List.append_assoc]
      exact List.perm_append_singleton _ _

end

end PyTorchSim.Analysis
