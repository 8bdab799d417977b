import PyTorchSim.Analysis.CacheTraffic
import PyTorchSim.Library.Runs

/-!
# Replies of the L2 cache

A request that the L2 cache takes from the crossbar is in one place until it is put on the queue
back: it waits for its block, or it is on its way to the memory, or it waits for its latency.
`timesHeld` counts these places together with the replies that were sent, and every operation of
the cache moves a request from one place to another.
-/

set_option autoImplicit false

namespace PyTorchSim.Analysis

open PyTorchSim.Model PyTorchSim.Library
open L2DataCache (isGlobal)

/-- The data cache of an L2 cache, with the requests that have left it. -/
abbrev dataCache (s : L2System) : CacheSystem where
  cache := s.l2.cache
  memory := s.l2.toMemQueue ++ s.dram

/-- The requests that wait for their latency. -/
def delayed (s : L2System) : List ℕ := s.l2.fromCacheQueue.queue.map Prod.fst

/-- The number of places that a taken request is in, the replies included. -/
def timesHeld (s : L2System) (x : ℕ) : ℕ :=
  s.l2.sent.count x + (delayed s).count x + held (dataCache s) x

/-- **Every request is answered once**: the specification of an L2 cache. -/
structure RepliesOnce (s : L2System) : Prop where
  /-- A request is put on the queue toward the crossbar once at most. -/
  once : s.l2.sent.Nodup
  /-- Only requests that were taken from the crossbar reach it, and none of the cache itself. -/
  sent : ∀ id ∈ s.l2.sent, id ∈ s.l2.taken ∧ isGlobal (s.l2.fetch id) = true
  /-- A request that was taken and not answered is held in one place. -/
  held : ∀ id ∈ s.l2.taken, id ∉ s.l2.sent →
    (delayed s).count id + held (dataCache s) id = 1
  /-- A request that was put into the MSHR table is there or was taken out, once. -/
  added : s.l2.cache.mshrs.added.Nodup
  popped : s.l2.cache.mshrs.added.Perm (s.l2.cache.mshrs.popped ++ waiting (dataCache s))
  ready : s.l2.cache.mshrs.currentResponse.Nodup

/-- What holds of all requests of an L2 cache. -/
structure L2Inv (s : L2System) : Prop where
  tracked : Tracked (dataCache s)
  once : ∀ x, timesHeld s x + s.l2.fromXbarQueue.count x ≤ 1
  xbar : ∀ x ∈ s.l2.fromXbarQueue, isGlobal (s.l2.fetch x) = true ∧ x < s.l2.cache.uniqueUid ∧
    x ∉ s.l2.cache.mshrs.added
  sent : ∀ x ∈ s.l2.sent, isGlobal (s.l2.fetch x) = true
  taken : ∀ x ∈ s.l2.taken, isGlobal (s.l2.fetch x) = true ∧ timesHeld s x = 1
  took : ∀ x, isGlobal (s.l2.fetch x) = true → timesHeld s x ≠ 0 → x ∈ s.l2.taken
  known : ∀ x, s.l2.cache.uniqueUid ≤ x → timesHeld s x = 0 ∧ x ∉ s.l2.taken
  own : ∀ x < s.l2.cache.uniqueUid,
    isGlobal (s.l2.fetch x) = true ∨ (s.l2.fetch x).cacheable = true
  /-- A request that is filled was to be cached. -/
  cached : ∀ x, s.l2.cache.extraMfFields x ≠ none → (s.l2.fetch x).cacheable = true

/-- The requests `took` are taken, `gone` are dropped and `new` are made. -/
structure Moves (took gone new : List ℕ) (s s' : L2System) : Prop where
  tracked : Tracked (dataCache s')
  uid : s.l2.cache.uniqueUid ≤ s'.l2.cache.uniqueUid
  kept : ∀ x < s.l2.cache.uniqueUid,
    (s'.l2.fetch x).accessType = (s.l2.fetch x).accessType ∧
    (s'.l2.fetch x).cacheable = (s.l2.fetch x).cacheable
  made : ∀ x, s.l2.cache.uniqueUid ≤ x → x < s'.l2.cache.uniqueUid →
    isGlobal (s'.l2.fetch x) = false ∧ (s'.l2.fetch x).cacheable = true
  xbar : s.l2.fromXbarQueue = took ++ s'.l2.fromXbarQueue
  taken : s'.l2.taken = s.l2.taken ++ took
  timesHeld : ∀ x, timesHeld s' x + gone.count x = timesHeld s x + took.count x + new.count x
  dropped : ∀ x ∈ gone, isGlobal (s.l2.fetch x) = false
  fresh : ∀ x ∈ new, s.l2.cache.uniqueUid ≤ x ∧ x < s'.l2.cache.uniqueUid
  nodup : new.Nodup
  sent : ∀ x ∈ s'.l2.sent, x ∈ s.l2.sent ∨
    (x < s.l2.cache.uniqueUid ∧ isGlobal (s.l2.fetch x) = true)
  asks : ∀ x, s.l2.cache.extraMfFields x = none → s'.l2.cache.extraMfFields x ≠ none →
    x ∈ new ∨ (x ∈ took ∧ (s.l2.fetch x).cacheable = true)
  added : ∀ x ∈ s'.l2.cache.mshrs.added, x ∈ s.l2.cache.mshrs.added ∨ x ∈ took ∨ x ∈ new

section

variable {s s' : L2System} {took gone new : List ℕ} {x : ℕ}

theorem L2Inv.repliesOnce (h : L2Inv s) : RepliesOnce s := by
  constructor
  · rw [List.nodup_iff_count_le_one]
    intro x
    have honce := h.once x
    unfold timesHeld at honce
    omega
  · intro x hx
    have hglobal := h.sent x hx
    refine ⟨h.took x hglobal ?_, hglobal⟩
    have hpos := List.count_pos_iff.mpr hx
    unfold timesHeld
    omega
  · intro x hx hsent
    have hone := (h.taken x hx).2
    rw [timesHeld, List.count_eq_zero_of_not_mem hsent, Nat.zero_add] at hone
    exact hone
  · exact h.tracked.added
  · exact h.tracked.popped
  · exact h.tracked.ready

theorem isGlobal_congr {f g : CacheFetch} (h : f.accessType = g.accessType) :
    isGlobal f = isGlobal g := by
  rw [L2DataCache.isGlobal, L2DataCache.isGlobal, h]

/-- A request that is in a place exists. -/
theorem L2Inv.lt_uid (h : L2Inv s) (hx : timesHeld s x ≠ 0) : x < s.l2.cache.uniqueUid := by
  by_contra hge
  exact hx (h.known x (Nat.le_of_not_lt hge)).1

/-- The moves of an operation keep the invariant. -/
theorem L2Inv.moves (h : L2Inv s) (hm : Moves took gone new s s') : L2Inv s' := by
  have htook {x : ℕ} (hx : x ∈ took) : x ∈ s.l2.fromXbarQueue := by
    rw [hm.xbar]
    exact List.mem_append_left _ hx
  have hxbar (x : ℕ) : s.l2.fromXbarQueue.count x =
      took.count x + s'.l2.fromXbarQueue.count x := by
    rw [hm.xbar, List.count_append]
  have hglobal {x : ℕ} (hx : x < s.l2.cache.uniqueUid) :
      isGlobal (s'.l2.fetch x) = isGlobal (s.l2.fetch x) := isGlobal_congr (hm.kept x hx).1
  have hgone {x : ℕ} (hx : isGlobal (s.l2.fetch x) = true) : gone.count x = 0 := by
    apply List.count_eq_zero_of_not_mem
    intro hmem
    rw [hm.dropped x hmem] at hx
    cases hx
  have hnew {x : ℕ} (hx : x < s.l2.cache.uniqueUid) : new.count x = 0 :=
    List.count_eq_zero_of_not_mem fun hmem => absurd (hm.fresh x hmem).1 (Nat.not_le.mpr hx)
  have hnotTook {x : ℕ} (hx : s.l2.cache.uniqueUid ≤ x) : took.count x = 0 :=
    List.count_eq_zero_of_not_mem fun hmem =>
      absurd (h.xbar x (htook hmem)).2.1 (Nat.not_lt.mpr hx)
  constructor
  · exact hm.tracked
  · intro x
    have honce := h.once x
    have htimes := hm.timesHeld x
    have hcount := hxbar x
    by_cases hx : x < s.l2.cache.uniqueUid
    · have := hnew hx
      omega
    · have hzero := (h.known x (Nat.le_of_not_lt hx)).1
      have htook' := hnotTook (Nat.le_of_not_lt hx)
      have hnone : s.l2.fromXbarQueue.count x = 0 :=
        List.count_eq_zero_of_not_mem fun hmem => hx (h.xbar x hmem).2.1
      have hone := List.nodup_iff_count_le_one.mp hm.nodup x
      omega
  · intro x hx
    have hmem : x ∈ s.l2.fromXbarQueue := by
      rw [hm.xbar]
      exact List.mem_append_right _ hx
    obtain ⟨hx', hlt, hadded⟩ := h.xbar x hmem
    refine ⟨(hglobal hlt).trans hx', hlt.trans_le hm.uid, fun hin => ?_⟩
    rcases hm.added x hin with hin | hin | hin
    · exact hadded hin
    · have honce := h.once x
      have hcount := hxbar x
      have := List.count_pos_iff.mpr hin
      have := List.count_pos_iff.mpr hx
      omega
    · exact absurd (hm.fresh x hin).1 (Nat.not_le.mpr hlt)
  · intro x hx
    rcases hm.sent x hx with hx | ⟨hlt, hx⟩
    · have hpos := List.count_pos_iff.mpr hx
      have hne : timesHeld s x ≠ 0 := by unfold timesHeld; omega
      exact (hglobal (h.lt_uid hne)).trans (h.sent x hx)
    · exact (hglobal hlt).trans hx
  · intro x hx
    have htimes := hm.timesHeld x
    have honce := h.once x
    have hcount := hxbar x
    rw [hm.taken] at hx
    rcases List.mem_append.mp hx with hx | hx
    · obtain ⟨hx', hone⟩ := h.taken x hx
      have hlt : x < s.l2.cache.uniqueUid := h.lt_uid (by omega)
      have := hgone hx'
      have := hnew hlt
      exact ⟨(hglobal hlt).trans hx', by omega⟩
    · obtain ⟨hx', hlt, -⟩ := h.xbar x (htook hx)
      have hpos := List.count_pos_iff.mpr hx
      have := hgone hx'
      have := hnew hlt
      exact ⟨(hglobal hlt).trans hx', by omega⟩
  · intro x hx hne
    have htimes := hm.timesHeld x
    rw [hm.taken, List.mem_append]
    by_cases hlt : x < s.l2.cache.uniqueUid
    · rw [hglobal hlt] at hx
      have := hnew hlt
      by_cases hin : x ∈ took
      · exact .inr hin
      · have hzero := List.count_eq_zero_of_not_mem hin
        exact .inl (h.took x hx (by omega))
    · exfalso
      have hzero := (h.known x (Nat.le_of_not_lt hlt)).1
      have htook' := hnotTook (Nat.le_of_not_lt hlt)
      have hin : x ∈ new := List.count_pos_iff.mp (by omega)
      rw [(hm.made x (hm.fresh x hin).1 (hm.fresh x hin).2).1] at hx
      cases hx
  · intro x hx
    have hge := hm.uid.trans hx
    obtain ⟨hzero, hno⟩ := h.known x hge
    have htimes := hm.timesHeld x
    have htook' := hnotTook hge
    have hnone : new.count x = 0 :=
      List.count_eq_zero_of_not_mem fun hin => absurd (hm.fresh x hin).2 (Nat.not_lt.mpr hx)
    refine ⟨by omega, ?_⟩
    rw [hm.taken, List.mem_append, not_or]
    exact ⟨hno, List.count_eq_zero.mp htook'⟩
  · intro x hx
    by_cases hlt : x < s.l2.cache.uniqueUid
    · rw [hglobal hlt, (hm.kept x hlt).2]
      exact h.own x hlt
    · exact .inr (hm.made x (Nat.le_of_not_lt hlt) hx).2
  · intro x hx
    have hcacheable (hlt : x < s.l2.cache.uniqueUid) (hx : (s.l2.fetch x).cacheable = true) :
        (s'.l2.fetch x).cacheable = true := (hm.kept x hlt).2.trans hx
    cases hold : s.l2.cache.extraMfFields x with
    | some field =>
      have hsome : s.l2.cache.extraMfFields x ≠ none := by rw [hold]; exact nofun
      have hmem : x ∈ onWay (dataCache s) := (h.tracked.fill x field hold).1
      refine hcacheable ?_ (h.cached x hsome)
      by_contra hge
      exact (h.tracked.known x (Nat.le_of_not_lt hge)).1 hmem
    | none =>
      rcases hm.asks x hold hx with hin | ⟨hin, hx'⟩
      · exact (hm.made x (hm.fresh x hin).1 (hm.fresh x hin).2).2
      · exact hcacheable (h.xbar x (htook hin)).2.1 hx'

/-- A request at the queue from the crossbar is not held. -/
theorem L2Inv.unused (h : L2Inv s) (hx : x ∈ s.l2.fromXbarQueue) : Unused (dataCache s) x := by
  obtain ⟨-, hlt, hadded⟩ := h.xbar x hx
  have honce := h.once x
  have hpos := List.count_pos_iff.mpr hx
  refine ⟨hlt, h.tracked.not_mem_onWay ?_, hadded⟩
  unfold timesHeld at honce
  omega

/-! ## The kinds of moves -/

/-- Requests change their places, and none is taken or answered. -/
theorem L2Inv.shift (h : L2Inv s) (htracked : Tracked (dataCache s'))
    (huid : s'.l2.cache.uniqueUid = s.l2.cache.uniqueUid)
    (hkept : ∀ x < s.l2.cache.uniqueUid,
      (s'.l2.fetch x).accessType = (s.l2.fetch x).accessType ∧
      (s'.l2.fetch x).cacheable = (s.l2.fetch x).cacheable)
    (hxbar : s'.l2.fromXbarQueue = s.l2.fromXbarQueue) (htaken : s'.l2.taken = s.l2.taken)
    (hsent : s'.l2.sent = s.l2.sent)
    (htimes : ∀ x, (delayed s').count x + held (dataCache s') x =
      (delayed s).count x + held (dataCache s) x)
    (hextra : ∀ x, s.l2.cache.extraMfFields x = none → s'.l2.cache.extraMfFields x = none)
    (hadded : ∀ x ∈ s'.l2.cache.mshrs.added, x ∈ s.l2.cache.mshrs.added) : L2Inv s' := by
  suffices hmoves : Moves [] [] [] s s' from h.moves hmoves
  constructor
  · exact htracked
  · exact huid.ge
  · exact hkept
  · exact fun x hx hx' => absurd hx' (by rw [huid]; exact Nat.not_lt.mpr hx)
  · exact hxbar.symm
  · rw [htaken, List.append_nil]
  · intro x
    have hplace := htimes x
    rw [timesHeld, timesHeld, hsent]
    simp only [List.count_nil]
    omega
  · exact nofun
  · exact nofun
  · exact List.nodup_nil
  · exact fun x hx => .inl (hsent ▸ hx)
  · exact fun x hx hx' => absurd (hextra x hx) hx'
  · exact fun x hx => .inl (hadded x hx)

/-- The operation changes the places of no request. -/
theorem L2Inv.quiet (h : L2Inv s) (henters : Enters [] (dataCache s) (dataCache s'))
    (huid : s'.l2.cache.uniqueUid = s.l2.cache.uniqueUid)
    (hxbar : s'.l2.fromXbarQueue = s.l2.fromXbarQueue) (htaken : s'.l2.taken = s.l2.taken)
    (hsent : s'.l2.sent = s.l2.sent) (hdelayed : delayed s' = delayed s) : L2Inv s' := by
  apply h.shift henters.tracked huid henters.kept hxbar htaken hsent
  · intro x
    have hheld := henters.held x
    rw [hdelayed, hheld]
    rfl
  · intro x hx
    by_contra hsome
    exact List.not_mem_nil (henters.asks x hx hsome)
  · exact fun x hx => (henters.added x hx).resolve_right List.not_mem_nil

variable {id : ℕ}

/-- The front of the queue from the crossbar goes into the data cache or past it. -/
theorem L2Inv.take (h : L2Inv s) (hxbar : s.l2.fromXbarQueue = id :: s'.l2.fromXbarQueue)
    (htaken : s'.l2.taken = s.l2.taken ++ [id]) (hsent : s'.l2.sent = s.l2.sent)
    (hdelayed : delayed s' = delayed s) (henters : Enters (id :: new) (dataCache s) (dataCache s'))
    (hnew : ∀ x ∈ new, s.l2.cache.uniqueUid ≤ x)
    (hcached : (s.l2.fetch id).cacheable = true ∨
      s'.l2.cache.extraMfFields = s.l2.cache.extraMfFields) : L2Inv s' := by
  suffices hmoves : Moves [id] [] new s s' from h.moves hmoves
  constructor
  · exact henters.tracked
  · exact henters.uid
  · exact henters.kept
  · exact henters.made
  · exact hxbar
  · exact htaken
  · intro x
    have hheld := henters.held x
    rw [timesHeld, timesHeld, hsent, hdelayed, hheld, ← List.singleton_append, List.count_append]
    simp only [List.count_nil, Nat.add_zero, Nat.add_assoc]
  · exact nofun
  · exact fun x hx => ⟨hnew x hx, henters.lt_uid (List.mem_cons_of_mem _ hx)⟩
  · exact (List.nodup_cons.mp henters.nodup).2
  · exact fun x hx => .inl (hsent ▸ hx)
  · intro x hx hx'
    rcases List.mem_cons.mp (henters.asks x hx hx') with rfl | hin
    · rcases hcached with hcached | hextra
      · exact .inr ⟨List.mem_singleton_self _, hcached⟩
      · rw [hextra] at hx'
        exact absurd hx hx'
    · exact .inl hin
  · intro x hx
    rcases henters.added x hx with hin | hin
    · exact .inl hin
    · exact .inr ((List.mem_cons.mp hin).imp_left List.mem_singleton.mpr)

/-- The front of the queue from the crossbar waits for its latency. -/
theorem L2Inv.takeHit (h : L2Inv s) (hxbar : s.l2.fromXbarQueue = id :: s'.l2.fromXbarQueue)
    (htaken : s'.l2.taken = s.l2.taken ++ [id]) (hsent : s'.l2.sent = s.l2.sent)
    (hdelayed : delayed s' = delayed s ++ [id])
    (henters : Enters [] (dataCache s) (dataCache s')) : L2Inv s' := by
  suffices hmoves : Moves [id] [] [] s s' from h.moves hmoves
  constructor
  · exact henters.tracked
  · exact henters.uid
  · exact henters.kept
  · exact henters.made
  · exact hxbar
  · exact htaken
  · intro x
    have hheld := henters.held x
    rw [timesHeld, timesHeld, hsent, hdelayed, hheld, List.count_append]
    simp only [List.count_nil]
    omega
  · exact nofun
  · exact nofun
  · exact List.nodup_nil
  · exact fun x hx => .inl (hsent ▸ hx)
  · exact fun x hx hx' => absurd (henters.asks x hx hx') List.not_mem_nil
  · exact fun x hx => (henters.added x hx).imp_right fun hin => absurd hin List.not_mem_nil

/-- A request leaves its place, toward the crossbar when it is that of a core. -/
theorem L2Inv.leave (id : ℕ) (h : L2Inv s) (htracked : Tracked (dataCache s'))
    (huid : s'.l2.cache.uniqueUid = s.l2.cache.uniqueUid)
    (hkept : ∀ x, (s'.l2.fetch x).accessType = (s.l2.fetch x).accessType ∧
      (s'.l2.fetch x).cacheable = (s.l2.fetch x).cacheable)
    (hxbar : s'.l2.fromXbarQueue = s.l2.fromXbarQueue) (htaken : s'.l2.taken = s.l2.taken)
    (hsent : s'.l2.sent = s.l2.sent ++ if isGlobal (s.l2.fetch id) then [id] else [])
    (htimes : ∀ x, (delayed s').count x + held (dataCache s') x + [id].count x =
      (delayed s).count x + held (dataCache s) x)
    (hextra : s'.l2.cache.extraMfFields = s.l2.cache.extraMfFields)
    (hadded : s'.l2.cache.mshrs.added = s.l2.cache.mshrs.added) : L2Inv s' := by
  have hlt : id < s.l2.cache.uniqueUid := by
    apply h.lt_uid
    have hplace := htimes id
    rw [List.count_singleton_self] at hplace
    unfold timesHeld
    omega
  suffices hmoves : Moves [] (if isGlobal (s.l2.fetch id) then [] else [id]) [] s s' from
    h.moves hmoves
  constructor
  · exact htracked
  · exact huid.ge
  · exact fun x _ => hkept x
  · exact fun x hx hx' => absurd hx' (by rw [huid]; exact Nat.not_lt.mpr hx)
  · exact hxbar.symm
  · rw [htaken, List.append_nil]
  · intro x
    have hplace := htimes x
    rw [timesHeld, timesHeld, hsent, List.count_append]
    simp only [List.count_nil]
    split <;> simp only [List.count_nil] <;> omega
  · intro x hx
    by_cases hglobal : isGlobal (s.l2.fetch id) = true
    · rw [if_pos hglobal] at hx
      cases hx
    · rw [if_neg hglobal, List.mem_singleton] at hx
      rw [hx]
      simpa using hglobal
  · exact nofun
  · exact List.nodup_nil
  · intro x hx
    rw [hsent] at hx
    rcases List.mem_append.mp hx with hx | hx
    · exact .inl hx
    · by_cases hglobal : isGlobal (s.l2.fetch id) = true
      · rw [if_pos hglobal, List.mem_singleton] at hx
        exact .inr (hx ▸ ⟨hlt, hglobal⟩)
      · rw [if_neg hglobal] at hx
        cases hx
  · intro x hx hx'
    rw [hextra] at hx'
    exact absurd hx hx'
  · exact fun x hx => .inl (hadded ▸ hx)

end

/-! ## The operations -/

section

variable {cfg : L2Config} {l l' : L2DataCache} {dram : List ℕ} {id : ℕ} {s s' : L2System}

/-- A change of a request that keeps whose request it is. -/
def KeepsKind (f : CacheFetch → CacheFetch) : Prop :=
  ∀ g, (f g).accessType = g.accessType ∧ (f g).cacheable = g.cacheable

theorem keepsKind_setReply : KeepsKind CacheFetch.setReply := fun _ => ⟨rfl, rfl⟩

theorem modifyFetch_kept {f : CacheFetch → CacheFetch} (hf : KeepsKind f) (x : ℕ) :
    ((l.modifyFetch id f).fetch x).accessType = (l.fetch x).accessType ∧
      ((l.modifyFetch id f).fetch x).cacheable = (l.fetch x).cacheable := by
  dsimp only [L2DataCache.modifyFetch, L2DataCache.fetch]
  by_cases hx : x = id
  · rw [hx, Function.update_self]
    exact hf _
  · rw [Function.update_of_ne hx]
    exact ⟨rfl, rfl⟩

/-- A request is changed where it stands. -/
theorem L2Inv.modifyFetch (h : L2Inv { l2 := l, dram }) {f : CacheFetch → CacheFetch}
    (hf : KeepsKind f) : L2Inv { l2 := l.modifyFetch id f, dram } := by
  refine h.quiet ?_ rfl rfl rfl rfl rfl
  exact h.tracked.enters_nothing rfl rfl (List.Perm.refl _) rfl fun x _ => modifyFetch_kept hf x

/-- The ports change. -/
theorem portFree_eq {f : CacheFetch} {free : Bool} (hl : l.portFree cfg f = .ok (free, l')) :
    ∃ readPort writePort, l' = { l with readPort, writePort } := by
  unfold L2DataCache.portFree at hl
  split at hl
  · cases hl
  split at hl
  · cases hl
    exact ⟨_, _, rfl⟩
  · cases hl
    exact ⟨_, _, rfl⟩

/-- The sector of a request is set. -/
theorem setAccessSector_eq (hl : l.setAccessSector cfg id = .ok l') :
    ∃ f, KeepsKind f ∧ l' = l.modifyFetch id f := by
  unfold L2DataCache.setAccessSector at hl
  split at hl
  · cases hl
  dsimp only at hl
  split at hl
  · cases hl
    refine ⟨_, ?_, rfl⟩
    exact fun _ => ⟨rfl, rfl⟩
  · cases hl

/-- A request that the cache has looked up. -/
theorem L2Inv.accessed (h : L2Inv { l2 := l, dram })
    (halloc : cfg.cache.writeAllocPolicy = .noWriteAllocate ∨
      cfg.cache.writeAllocPolicy = .writeAllocate) {rest : List ℕ} {addr time : ℕ}
    (hqueue : l.fromXbarQueue = id :: rest) (hcacheable : (l.fetch id).cacheable = true)
    {status : CacheRequestStatus} {cache : DataCache} {events : List CacheEvent}
    (haccess : DataCache.access cfg.cache addr time id (l.cache, []) = .ok (status, cache, events))
    (hl : L2DataCache.accessed cfg id status events { l with cache } = .ok l') :
    L2Inv { l2 := l', dram } := by
  have hunused : Unused (dataCache { l2 := l, dram }) id :=
    h.unused (by dsimp only; rw [hqueue]; exact List.mem_cons_self)
  have hxbar : l.fromXbarQueue = id :: l.fromXbarQueue.tail := by rw [hqueue]; rfl
  have htaken : l.taken ++ l.fromXbarQueue.head?.toList = l.taken ++ [id] := by rw [hqueue]; rfl
  obtain ⟨ids, henters, hadds⟩ := access_enters haccess h.tracked hunused
  dsimp only at henters hadds
  generalize hids : ids = added at hadds
  cases hadds with
  | hit =>
    cases hl
    rw [hids] at henters
    refine h.takeHit hxbar htaken rfl List.map_append (henters.trans ?_)
    exact henters.tracked.enters_nothing rfl rfl (List.Perm.refl _) rfl
      fun x _ => modifyFetch_kept keepsKind_setReply x
  | failed =>
    have hsame := reservationFail_unchanged _ _ _ _ _ _ haccess
    cases hsame
    cases hl
    exact h
  | writeSent =>
    cases hl
    rw [hids] at henters
    exact h.take hxbar htaken rfl rfl henters nofun (.inl hcacheable)
  | miss events new hnew =>
    have hno : decide (cfg.cache.writeAllocPolicy = .fetchOnWrite ∨
        cfg.cache.writeAllocPolicy = .lazyFetchOnRead) = false := by
      rcases halloc with halloc | halloc <;> rw [halloc] <;> rfl
    dsimp only [L2DataCache.accessed] at hl
    rw [hno, Bool.and_false] at hl
    cases hl
    rw [hids] at henters
    exact h.take hxbar htaken rfl rfl henters hnew (.inl hcacheable)

theorem L2Inv.takeRequest (h : L2Inv { l2 := l, dram })
    (halloc : cfg.cache.writeAllocPolicy = .noWriteAllocate ∨
      cfg.cache.writeAllocPolicy = .writeAllocate) {skip : Bool}
    (hl : l.takeRequest cfg = .ok (skip, l')) : L2Inv { l2 := l', dram } := by
  have hsame : Enters [] (dataCache { l2 := l, dram }) (dataCache { l2 := l, dram }) :=
    h.tracked.enters_nothing rfl rfl (List.Perm.refl _) rfl fun _ _ => ⟨rfl, rfl⟩
  unfold L2DataCache.takeRequest at hl
  split at hl
  · cases hl
    exact h
  next id rest hqueue =>
  split at hl
  · next hcacheable =>
    obtain ⟨⟨free, l₁⟩, hfree, hl⟩ := bind_eq_ok.mp hl
    obtain ⟨readPort, writePort, rfl⟩ := portFree_eq hfree
    have h₁ : L2Inv { l2 := { l with readPort, writePort }, dram } :=
      h.quiet hsame rfl rfl rfl rfl rfl
    dsimp only at hl
    split at hl
    · cases hl
      exact h₁
    obtain ⟨l₂, hsector, hl⟩ := bind_eq_ok.mp hl
    obtain ⟨f, hf, rfl⟩ := setAccessSector_eq hsector
    obtain ⟨⟨status, cache, events⟩, haccess, hl⟩ := bind_eq_ok.mp hl
    obtain ⟨l₃, haccessed, hl⟩ := bind_eq_ok.mp hl
    cases hl
    refine (h₁.modifyFetch hf).accessed halloc hqueue ?_ haccess haccessed
    exact (modifyFetch_kept hf id).2.trans hcacheable
  · next hcacheable =>
    cases hl
    have hunused : Unused (dataCache { l2 := l, dram }) id :=
      h.unused (by dsimp only; rw [hqueue]; exact List.mem_cons_self)
    have hxbar : l.fromXbarQueue = id :: l.fromXbarQueue.tail := by rw [hqueue]; rfl
    have htaken : l.taken ++ l.fromXbarQueue.head?.toList = l.taken ++ [id] := by rw [hqueue]; rfl
    have hnone : ∀ x ∈ ([] : List ℕ), l.cache.uniqueUid ≤ x := nofun
    refine h.take hxbar htaken rfl rfl ?_ hnone (.inr rfl)
    refine hunused.enters_enqueue h.tracked rfl rfl ?_ rfl fun _ _ => ⟨rfl, rfl⟩
    show (l.cache.missQueue ++ (l.toMemQueue ++ [id] ++ dram)).Perm
      (l.cache.missQueue ++ (l.toMemQueue ++ dram) ++ [id])
    rw [List.append_assoc, List.append_assoc, List.append_assoc]
    exact (List.perm_append_comm.append_left _).append_left _

theorem count_cons_eq (x y : ℕ) (l : List ℕ) : (y :: l).count x = l.count x + [y].count x := by
  rw [List.count_cons, List.count_singleton]

/-- The request that is looked at is the one that is taken out. -/
theorem topNextAccess_eq {t t' : MshrTable} {top : ℕ} (htop : t.topNextAccess = .ok top)
    (hpop : t.popNextAccess = .ok (id, t')) : top = id := by
  obtain ⟨b, rest, queue, hresponse, hentry, -⟩ := popNextAccess_eq hpop
  unfold MshrTable.topNextAccess at htop
  rw [hresponse] at htop
  dsimp only at htop
  rw [hentry] at htop
  cases htop
  rfl

/-- A request whose block has come in waits for its latency. -/
theorem L2Inv.popReady (h : L2Inv { l2 := l, dram }) {mshrs : MshrTable}
    (hpop : l.cache.mshrs.popNextAccess = .ok (id, mshrs)) (delay : ℕ) :
    L2Inv { l2 := { l with
      cache := { l.cache with mshrs }
      fromCacheQueue := l.fromCacheQueue.push id delay }, dram } := by
  have hafter : Tracked { cache := { l.cache with mshrs }, memory := l.toMemQueue ++ dram } ∧
      (waiting (dataCache { l2 := l, dram })).Perm
        (id :: waiting { cache := { l.cache with mshrs }, memory := l.toMemQueue ++ dram }) ∧
      l.cache.extraMfFields id = none := h.tracked.pop hpop rfl rfl rfl rfl
  obtain ⟨htracked, hwaiting, -⟩ := hafter
  have hadded : mshrs.added = l.cache.mshrs.added := by
    obtain ⟨b, rest, queue, -, -, heq⟩ := popNextAccess_eq hpop
    rw [heq]
  refine h.shift htracked rfl (fun _ _ => ⟨rfl, rfl⟩) rfl rfl rfl ?_ (fun _ hx => hx) ?_
  · intro x
    have hdelayed : delayed { l2 := { l with
        cache := { l.cache with mshrs }
        fromCacheQueue := l.fromCacheQueue.push id delay }, dram } =
        delayed { l2 := l, dram } ++ [id] := List.map_append
    have hheld : held { cache := { l.cache with mshrs }, memory := l.toMemQueue ++ dram } x +
        [id].count x = held (dataCache { l2 := l, dram }) x := by
      rw [held, held, hwaiting.count_eq, count_cons_eq x id (waiting _), Nat.add_right_comm]
      rfl
    rw [hdelayed, List.count_append, Nat.add_assoc, Nat.add_comm ([id].count x)]
    exact congrArg _ hheld
  · intro x hx
    exact hadded ▸ hx

theorem L2Inv.takeReady (h : L2Inv { l2 := l, dram }) (hl : l.takeReady cfg = .ok l') :
    L2Inv { l2 := l', dram } := by
  unfold L2DataCache.takeReady at hl
  split at hl
  · obtain ⟨top, htop, hl⟩ := bind_eq_ok.mp hl
    obtain ⟨⟨id, cache⟩, hpop, hl⟩ := bind_eq_ok.mp hl
    cases hl
    obtain ⟨⟨id', mshrs⟩, hpop', hpop⟩ := bind_eq_ok.mp hpop
    cases hpop
    by_cases hrequest : (l.fetch top).isRequest = true
    · rw [if_pos hrequest] at hpop' ⊢
      obtain rfl := topNextAccess_eq htop hpop'
      exact (h.modifyFetch keepsKind_setReply).popReady hpop' cfg.l2dHitLatency
    · rw [if_neg hrequest] at hpop' ⊢
      obtain rfl := topNextAccess_eq htop hpop'
      exact h.popReady hpop' cfg.l2dHitLatency
  · cases hl
    exact h

/-- A reply that has arrived goes to the crossbar. -/
theorem L2Inv.takeArrived (h : L2Inv { l2 := l, dram }) :
    L2Inv { l2 := l.takeArrived, dram } := by
  unfold L2DataCache.takeArrived
  split
  swap
  · exact h
  cases htop : l.fromCacheQueue.top with
  | none => exact h
  | some id =>
    obtain ⟨⟨front, time⟩, hhead, hfront⟩ := Option.map_eq_some_iff.mp htop
    obtain ⟨rest, hqueue⟩ := List.head?_eq_some_iff.mp hhead
    obtain rfl : id = front := hfront.symm
    have hdelayed : delayed { l2 := l, dram } = id :: rest.map Prod.fst := by
      rw [delayed, hqueue]
      rfl
    have htail : l.fromCacheQueue.queue.tail.map Prod.fst = rest.map Prod.fst := by
      rw [hqueue]
      rfl
    have htimes (x : ℕ) : (l.fromCacheQueue.queue.tail.map Prod.fst).count x +
        held (dataCache { l2 := l, dram }) x + [id].count x =
        (delayed { l2 := l, dram }).count x + held (dataCache { l2 := l, dram }) x := by
      rw [hdelayed, htail, count_cons_eq x id (rest.map Prod.fst), Nat.add_right_comm]
    dsimp only
    by_cases hglobal : L2DataCache.isGlobal (l.fetch id) = true
    · rw [if_pos hglobal]
      refine h.leave id h.tracked rfl (fun _ => ⟨rfl, rfl⟩) rfl rfl ?_ htimes rfl rfl
      rw [if_pos hglobal]
      rfl
    · rw [if_neg hglobal]
      refine h.leave id h.tracked rfl (fun _ => ⟨rfl, rfl⟩) rfl rfl ?_ htimes rfl rfl
      rw [if_neg hglobal, List.append_nil]

theorem L2Inv.portIteration (h : L2Inv { l2 := l, dram })
    (halloc : cfg.cache.writeAllocPolicy = .noWriteAllocate ∨
      cfg.cache.writeAllocPolicy = .writeAllocate) {i : ℕ}
    (hl : l.portIteration cfg i = .ok l') : L2Inv { l2 := l', dram } := by
  obtain ⟨⟨skip, l₁⟩, hrequest, hl⟩ := bind_eq_ok.mp hl
  have h₁ := h.takeRequest halloc hrequest
  dsimp only at hl
  split at hl
  · cases hl
    exact h₁
  obtain ⟨l₂, hready, hl⟩ := bind_eq_ok.mp hl
  cases hl
  exact (h₁.takeReady hready).takeArrived

/-- The front of the miss queue goes on. -/
theorem L2Inv.beginCycle (h : L2Inv { l2 := l, dram }) : L2Inv { l2 := l.beginCycle, dram } := by
  refine h.quiet ?_ rfl rfl rfl rfl rfl
  refine h.tracked.enters_nothing rfl rfl ?_ rfl fun _ _ => ⟨rfl, rfl⟩
  show (l.cache.missQueue.tail ++ (l.toMemQueue ++ l.cache.missQueue.head?.toList ++ dram)).Perm
    (l.cache.missQueue ++ (l.toMemQueue ++ dram))
  cases l.cache.missQueue with
  | nil =>
    show ([] ++ (l.toMemQueue ++ [] ++ dram)).Perm ([] ++ (l.toMemQueue ++ dram))
    rw [List.append_nil]
  | cons id queue =>
    show (queue ++ (l.toMemQueue ++ [id] ++ dram)).Perm (id :: queue ++ (l.toMemQueue ++ dram))
    rw [List.append_assoc l.toMemQueue]
    exact (List.perm_middle.append_left queue).trans List.perm_middle

theorem L2Inv.cycle (h : L2Inv { l2 := l, dram })
    (halloc : cfg.cache.writeAllocPolicy = .noWriteAllocate ∨
      cfg.cache.writeAllocPolicy = .writeAllocate)
    (hl : l.cycle cfg = .ok l') : L2Inv { l2 := l', dram } :=
  foldlM_invariant (I := fun l => L2Inv { l2 := l, dram }) _ hl h.beginCycle
    fun _ _ _ _ h hl => h.portIteration halloc hl

/-! ## The memory and the crossbar -/

/-- A request that comes back is no longer on its way. -/
theorem onWay_erase (hmem : id ∈ dram) : (onWay (dataCache { l2 := l, dram })).Perm
    (id :: onWay (dataCache { l2 := l, dram := dram.erase id })) := by
  show (l.cache.missQueue ++ (l.toMemQueue ++ dram)).Perm
    (id :: (l.cache.missQueue ++ (l.toMemQueue ++ dram.erase id)))
  rw [← List.append_assoc, ← List.append_assoc]
  exact ((List.perm_cons_erase hmem).append_left _).trans List.perm_middle

/-- A request that comes back and is not a fill leaves its place. -/
theorem L2Inv.comeBack (h : L2Inv { l2 := l, dram }) (hmem : id ∈ dram)
    (hnone : l.cache.extraMfFields id = none)
    (hl : l' = if isGlobal (l.fetch id) then l.pushXbar id else l) :
    L2Inv { l2 := l', dram := dram.erase id } := by
  have hway := onWay_erase (l := l) hmem
  have htracked : Tracked (dataCache { l2 := l, dram := dram.erase id }) :=
    h.tracked.leave hnone rfl rfl hway rfl
  have hheld (x : ℕ) : held (dataCache { l2 := l, dram := dram.erase id }) x + [id].count x =
      held (dataCache { l2 := l, dram }) x := by
    rw [held, held]
    dsimp only
    by_cases hx : l.cache.extraMfFields x = none
    · rw [if_pos hx, if_pos hx, hway.count_eq, count_cons_eq x id (onWay _), Nat.add_assoc]
      rfl
    · rw [if_neg hx, if_neg hx, List.count_singleton, if_neg]
      · rfl
      · simp only [beq_iff_eq]
        rintro rfl
        exact hx hnone
  have htimes (x : ℕ) : (delayed { l2 := l, dram }).count x +
      held (dataCache { l2 := l, dram := dram.erase id }) x + [id].count x =
      (delayed { l2 := l, dram }).count x + held (dataCache { l2 := l, dram }) x := by
    rw [Nat.add_assoc, hheld]
  by_cases hglobal : isGlobal (l.fetch id) = true
  · rw [if_pos hglobal] at hl
    subst hl
    refine h.leave id htracked rfl (fun _ => ⟨rfl, rfl⟩) rfl rfl ?_ htimes rfl rfl
    rw [if_pos hglobal]
    rfl
  · rw [if_neg hglobal] at hl
    subst hl
    refine h.leave id htracked rfl (fun _ => ⟨rfl, rfl⟩) rfl rfl ?_ htimes rfl rfl
    rw [if_neg hglobal, List.append_nil]

/-- A fill waits no longer. -/
theorem L2Inv.filledBy (h : L2Inv { l2 := l, dram }) (hmem : id ∈ dram) {cache : DataCache}
    {time : ℕ} (hfill : l.cache.fill cfg.cache id time = .ok cache) :
    L2Inv { l2 := { l with cache }, dram := dram.erase id } := by
  obtain ⟨field, lines, mshrs, hfield, -, hready, rfl⟩ := fill_cases hfill
  have hway := onWay_erase (l := l) hmem
  obtain ⟨-, hmark⟩ := markReady_eq hready
  refine h.shift ?_ rfl ?_ rfl rfl rfl ?_ ?_ ?_
  · exact h.tracked.filledBy hfield hready rfl rfl hway rfl
  · intro x _
    dsimp only [L2DataCache.fetch]
    by_cases hx : x = id
    · rw [hx, Function.update_self]
      exact ⟨rfl, rfl⟩
    · rw [Function.update_of_ne hx]
      exact ⟨rfl, rfl⟩
  · intro x
    refine congrArg _ (h.tracked.held_filled hfield ?_ ?_ ?_ x)
    · rw [hmark]
      rfl
    · rfl
    · exact hway
  · intro x hx
    dsimp only
    by_cases hxid : x = id
    · rw [hxid, Function.update_self]
    · rw [Function.update_of_ne hxid]
      exact hx
  · intro x hx
    dsimp only at hx
    rw [hmark] at hx
    exact hx

/-- A reply of the memory. -/
theorem L2Inv.push (h : L2Inv { l2 := l, dram }) (hmem : id ∈ dram)
    (hl : l.push cfg id = .ok l') : L2Inv { l2 := l', dram := dram.erase id } := by
  unfold L2DataCache.push at hl
  split at hl
  · next hcacheable =>
    cases hl
    have hmem' : id ∈ onWay (dataCache { l2 := l, dram }) :=
      List.mem_append_right _ (List.mem_append_right _ hmem)
    have hlt : id < l.cache.uniqueUid := by
      by_contra hge
      exact (h.tracked.known id (Nat.le_of_not_lt hge)).1 hmem'
    have hglobal : isGlobal (l.fetch id) = true := by
      apply (h.own id hlt).resolve_right
      simpa using hcacheable
    have hnone : l.cache.extraMfFields id = none := by
      by_contra hsome
      have hcached := h.cached id hsome
      dsimp only at hcached
      rw [hcached] at hcacheable
      cases hcacheable
    apply h.comeBack hmem hnone
    rw [if_pos hglobal]
  split at hl
  · obtain ⟨cache, hfill, hl⟩ := bind_eq_ok.mp hl
    cases hl
    exact h.filledBy hmem hfill
  next hwait =>
  rw [DataCache.waitingForFill, Option.not_isSome_iff_eq_none] at hwait
  apply h.comeBack hmem hwait
  split at hl
  · next hglobal =>
    rw [if_pos hglobal]
    cases hl
    rfl
  · next hglobal =>
    rw [if_neg hglobal]
    cases hl
    rfl

/-- A request arrives. -/
theorem L2Inv.arrive (h : L2Inv s) (r : XbarRequest) (hs : s.step cfg (.arrive r) = .ok s') :
    L2Inv s' := by
  cases hs
  have hglobal : isGlobal r.toFetch = true := by
    cases hwrite : r.isWrite <;> simp [L2DataCache.isGlobal, XbarRequest.toFetch, hwrite]
  have hnew : Function.update s.l2.cache.fetches s.l2.cache.uniqueUid r.toFetch
      s.l2.cache.uniqueUid = r.toFetch := Function.update_self _ _ _
  have hold {x : ℕ} (hx : x < s.l2.cache.uniqueUid) :
      Function.update s.l2.cache.fetches s.l2.cache.uniqueUid r.toFetch x = s.l2.fetch x :=
    Function.update_of_ne (Nat.ne_of_lt hx) _ _
  constructor
  · exact Tracked.newFetch (c := s.l2.cache) h.tracked r.toFetch
  · intro x
    show timesHeld s x + (s.l2.fromXbarQueue ++ [s.l2.cache.uniqueUid]).count x ≤ 1
    have honce := h.once x
    rw [List.count_append, List.count_singleton]
    split
    · next hx =>
      have hx' : s.l2.cache.uniqueUid = x := eq_of_beq hx
      have hzero := (h.known x hx'.le).1
      have hnone : s.l2.fromXbarQueue.count x = 0 :=
        List.count_eq_zero_of_not_mem fun hmem =>
          absurd (h.xbar x hmem).2.1 (Nat.not_lt.mpr hx'.le)
      omega
    · omega
  · intro x hx
    dsimp only [L2DataCache.fetch, DataCache.newFetch]
    rcases List.mem_append.mp hx with hx | hx
    · obtain ⟨hx', hlt, hadded⟩ := h.xbar x hx
      rw [hold hlt]
      exact ⟨hx', Nat.lt_succ_of_lt hlt, hadded⟩
    · rw [List.mem_singleton.mp hx, hnew]
      exact ⟨hglobal, Nat.lt_succ_self _, (h.tracked.known _ le_rfl).2⟩
  · intro x hx
    have hne : timesHeld s x ≠ 0 := by
      have hpos : 0 < s.l2.sent.count x := List.count_pos_iff.mpr hx
      unfold timesHeld
      omega
    dsimp only [L2DataCache.fetch, DataCache.newFetch]
    rw [hold (h.lt_uid hne)]
    exact h.sent x hx
  · intro x hx
    obtain ⟨hx', hone⟩ := h.taken x hx
    dsimp only [L2DataCache.fetch, DataCache.newFetch]
    rw [hold (h.lt_uid (by omega))]
    exact ⟨hx', hone⟩
  · intro x hx hne
    have hlt : x < s.l2.cache.uniqueUid := h.lt_uid hne
    dsimp only [L2DataCache.fetch, DataCache.newFetch] at hx
    rw [hold hlt] at hx
    exact h.took x hx hne
  · exact fun x hx => h.known x ((Nat.le_succ _).trans hx)
  · intro x hx
    dsimp only [L2DataCache.fetch, DataCache.newFetch]
    rcases Nat.lt_succ_iff_lt_or_eq.mp hx with hx | rfl
    · rw [hold hx]
      exact h.own x hx
    · rw [hnew]
      exact .inl hglobal
  · intro x hx
    have hlt : x < s.l2.cache.uniqueUid := by
      by_contra hge
      obtain ⟨field, hfield⟩ := Option.ne_none_iff_exists'.mp hx
      exact (h.tracked.known x (Nat.le_of_not_lt hge)).1 (h.tracked.fill x field hfield).1
    dsimp only [L2DataCache.fetch, DataCache.newFetch]
    rw [hold hlt]
    exact h.cached x hx

theorem L2Inv.step (h : L2Inv s)
    (halloc : cfg.cache.writeAllocPolicy = .noWriteAllocate ∨
      cfg.cache.writeAllocPolicy = .writeAllocate) {a : L2Action} (hs : s.step cfg a = .ok s') :
    L2Inv s' := by
  have hsame : Enters [] (dataCache s) (dataCache s) :=
    h.tracked.enters_nothing rfl rfl (List.Perm.refl _) rfl fun _ _ => ⟨rfl, rfl⟩
  cases a with
  | arrive r => exact h.arrive r hs
  | advance cycles =>
    cases hs
    exact h.quiet hsame rfl rfl rfl rfl rfl
  | cycle =>
    obtain ⟨l2, hl, hs⟩ := bind_eq_ok.mp hs
    cases hs
    have h' : L2Inv { l2 := s.l2, dram := s.dram } := h
    exact h'.cycle halloc hl
  | toDram =>
    cases hs
    refine h.quiet ?_ rfl rfl rfl rfl rfl
    refine h.tracked.enters_nothing rfl rfl ?_ rfl fun _ _ => ⟨rfl, rfl⟩
    show (s.l2.cache.missQueue ++ (s.l2.toMemQueue.tail ++
      (s.dram ++ s.l2.toMemQueue.head?.toList))).Perm
      (s.l2.cache.missQueue ++ (s.l2.toMemQueue ++ s.dram))
    apply List.Perm.append_left
    cases s.l2.toMemQueue with
    | nil =>
      show ([] ++ (s.dram ++ [])).Perm ([] ++ s.dram)
      rw [List.append_nil]
    | cons id queue =>
      show (queue ++ (s.dram ++ [id])).Perm (id :: (queue ++ s.dram))
      rw [← List.append_assoc]
      exact List.perm_append_singleton _ _
  | reply id setsReply =>
    dsimp only [L2System.step] at hs
    split at hs
    · next hmem =>
      obtain ⟨l2, hl, hs⟩ := bind_eq_ok.mp hs
      cases hs
      have h' : L2Inv { l2 := s.l2, dram := s.dram } := h
      by_cases hreply : setsReply = true
      · rw [if_pos hreply] at hl
        exact (h'.modifyFetch keepsKind_setReply).push hmem hl
      · rw [if_neg hreply] at hl
        exact h'.push hmem hl
    · cases hs
      exact h
  | takeXbar =>
    cases hs
    exact h.quiet hsame rfl rfl rfl rfl rfl

end

/-- **The L2 cache replies exactly once.** -/
theorem l2_replies_once (cfg : L2Config)
    (halloc : cfg.cache.writeAllocPolicy = .noWriteAllocate ∨
      cfg.cache.writeAllocPolicy = .writeAllocate) (tags : ℕ → ℕ × ℕ) (fetches : ℕ → CacheFetch)
    (s : L2System)
    (hreach : Reach (L2System.step cfg) (fun _ _ => True) (.initial cfg tags fetches) s) :
    RepliesOnce s := by
  apply L2Inv.repliesOnce
  apply hreach.invariant
  · exact ⟨tracked_initial cfg.cache tags fetches, fun _ => Nat.zero_le 1, nofun, nofun, nofun,
      fun _ _ hne => absurd rfl hne, fun _ _ => ⟨rfl, nofun⟩, nofun,
      fun _ hsome => absurd rfl hsome⟩
  · exact fun s a s' _ h _ hs => h.step halloc hs

/-- An L2 cache with one plain line, for one core. -/
def smallL2 : L2Config where
  cache := smallCache .normal 1 4
  l2dHitLatency := 1
  numCores := 1

/-- A read that misses, is answered by the memory and goes back to the core. -/
def oneRead : List L2Action :=
  [.arrive { addr := 0, isWrite := false, dataSize := 8, coreId := 0, cacheable := true }, .cycle,
    .cycle, .toDram, .reply 0 true, .cycle, .cycle]

theorem l2_replies_once_oneRead : ∃ s, oneRead.foldlM (L2System.step smallL2)
    (.initial smallL2 (fun _ => (1, 1)) fun _ => readFetch 0 0) = .ok s ∧
    s.l2.sent = [0] ∧ RepliesOnce s :=
  ⟨_, rfl, rfl, l2_replies_once smallL2 (.inr rfl) (fun _ => (1, 1)) (fun _ => readFetch 0 0) _
    (.of_foldlM oneRead .init rfl fun _ _ _ => trivial)⟩

end PyTorchSim.Analysis
