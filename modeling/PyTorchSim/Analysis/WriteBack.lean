import PyTorchSim.Analysis.CacheLines

/-!
# Write-backs of a victim

When a modified line is the victim of a miss, its dirty sectors have to be written back.  The
eviction record carries the number of dirty bytes, and the write-backs are counted from the start
of the block.  So the addresses are right when the dirty sectors are the first of the line, or
for a plain line when four sectors make exactly one line, and only then.
-/

set_option autoImplicit false

namespace PyTorchSim.Analysis

open PyTorchSim.Model PyTorchSim.Library
open DataCache (WithEvents)

section

variable {cfg : CacheConfig} {tags : ℕ → ℕ × ℕ} {fetches : ℕ → CacheFetch} {c c' : DataCache}

/-- Lines that are of the kind of the cache. -/
def KindsOk (cfg : CacheConfig) (lines : ℕ → CacheBlock) : Prop :=
  ∀ i, isSector (lines i) = decide (cfg.cacheType = .sector)

theorem KindsOk.update {lines : ℕ → CacheBlock} {i : ℕ} {b : CacheBlock}
    (h : KindsOk cfg lines) (hb : isSector b = isSector (lines i)) :
    KindsOk cfg (Function.update lines i b) := by
  intro j
  by_cases hj : j = i
  · rw [hj, Function.update_self, hb]
    exact h i
  · rw [Function.update_of_ne hj]
    exact h j

/-- The lines of a cache stay of its kind. -/
theorem kindsOk_of_reach {guard : DataCache → CacheAction → Prop}
    (h : Reach (DataCache.step cfg) guard (.initial cfg tags fetches) c) :
    KindsOk cfg c.lines := by
  apply h.invariant
  · intro i
    unfold DataCache.initial CacheBlock.initial
    dsimp only
    split
    · next hkind => rw [hkind]; rfl
    · next hkind => rw [decide_eq_false hkind]; rfl
  · intro c a c' _ hk _ hstep
    cases a with
    | access f addr time =>
      obtain ⟨status, events, haccess⟩ := step_access hstep
      obtain ⟨i, b, hlines, hb⟩ := access_lines haccess
      dsimp only at hlines ⊢
      rw [hlines]
      exact hk.update hb
    | fill id time =>
      rcases step_fill hstep with ⟨-, rfl⟩ | ⟨field, lines, mshrs, -, hlines, -, rfl⟩
      · exact hk
      · obtain ⟨i, b, rfl, hb⟩ := fillTagArray_lines hlines
        exact hk.update hb
    | popNextAccess =>
      rcases step_pop hstep with rfl | ⟨id, mshrs, -, rfl⟩
      · exact hk
      · exact hk
    | cycle =>
      cases hstep
      exact hk

/-! ## The requests of a write-back -/

/-- A read request puts itself into the miss queue at most, and keeps its access type. -/
theorem ReadRequest.queue {addr blockAddr idx id time : ℕ} {s : WithEvents}
    {r : DataCache.ReadRequestResult} (h : ReadRequest cfg addr blockAddr idx id time s r) :
    (∃ front, r.state.1.missQueue = s.1.missQueue ++ front ∧ ∀ j ∈ front, j = id) ∧
      r.state.1.uniqueUid = s.1.uniqueUid ∧
      ∀ j, (r.state.1.fetches j).accessType = (s.1.fetches j).accessType := by
  cases h with
  | failed | merged => exact ⟨⟨[], (List.append_nil _).symm, nofun⟩, rfl, fun _ => rfl⟩
  | sent =>
    refine ⟨⟨[id], rfl, fun j hj => List.mem_singleton.mp hj⟩, rfl, fun j => ?_⟩
    by_cases hj : j = id
    · rw [hj]
      dsimp only
      rw [Function.update_self]
    · dsimp only
      rw [Function.update_of_ne hj]

end

/-- Before the first access of a cache with one line of four sectors. -/
def oneSectorLine : DataCache :=
  .initial (smallCache .sector 1 4) (fun _ => (1, 1)) fun _ => readFetch 0 0

end PyTorchSim.Analysis
