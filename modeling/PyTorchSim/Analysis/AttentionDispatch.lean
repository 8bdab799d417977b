import PyTorchSim.Model.SdpaDispatch
import Mathlib.Analysis.SpecialFunctions.Sqrt

/-!
# What attention dispatch admits

An admitted call has one batch for query and value, one number of heads, one sequence length
and one head dimension; its mask, its causality and the batch of its key are unconstrained.
The requested attention has no bias, so it is the attention that was asked for exactly if the
bias is one finite number along each row of scores, and it takes the key of its own batch, so
the batch of the key has to be there.
-/

set_option autoImplicit false

namespace PyTorchSim.Analysis

open Finset PyTorchSim.Model PyTorchSim.Library

section Dispatch

variable {α : Type} [Field α] [LinearOrder α]
variable {exp : α → α} {sqrt : ℕ → α} {c : SdpaCall α} {r : FlashRequest α}

/-- The request has the value that was asked for. -/
def RequestExact (exp : α → α) (sqrt : ℕ → α) (c : SdpaCall α) (r : FlashRequest α) : Prop :=
  ∀ q k v, ∃ value, sdpaReference exp sqrt c q k v = some ([r.n, r.hq, r.l, r.ev], value) ∧
    ∀ n < r.n, ∀ h < r.hq, ∀ l < r.l, ∀ e < r.ev,
      r.attention exp q k v n h l e = some (value n h l e)

/-- The bias is one finite number along a row of scores. -/
def BiasConstant (c : SdpaCall α) (n h l : ℕ) : Prop :=
  ∃ x : α, ∀ s < sizeBack c.key 2, attnBias c n h l s = x

/-- The calls whose request is exact: mask and causality are not both given, the key has the
batch of the query (or, for an output without elements, a batch of one), and the bias of each
row is one finite number. -/
structure DispatchSound (c : SdpaCall α) : Prop where
  mask : ¬ (c.attnMask.isSome ∧ c.isCausal)
  batch : sizeBack c.key 4 = sizeBack c.query 4 ∨ (sizeBack c.key 4 = 1 ∧ c.query.prod = 0)
  bias : c.query.prod ≠ 0 → ∀ n < sizeBack c.query 4, ∀ h < sizeBack c.query 3,
    ∀ l < sizeBack c.query 2, BiasConstant c n h l

/-- What is known of an admitted call. -/
structure Admitted (sqrt : ℕ → α) (c : SdpaCall α) (r : FlashRequest α) (n nk h l e : ℕ) :
    Prop where
  query : c.query = [n, h, l, e]
  key : c.key = [nk, h, l, e]
  value : c.value = [n, h, l, e]
  dropout : c.dropoutP = 0
  gqa : c.enableGqa = false
  request : r = ⟨n, h, l, l, e, e, nk, h, n, h, c.scale.getD (1 / sqrt e)⟩

theorem eq_of_guardEquals {a b x : ℕ} (h : guardEquals a b = some x) : a = b ∧ a = x := by
  unfold guardEquals at h
  split at h
  · rename_i hab
    exact ⟨hab, Option.some.inj h⟩
  · cases h

omit [Field α] [LinearOrder α] in
/-- The shapes that `flash_sdpa_args` takes when query and key have as many heads. -/
theorem eq_of_flashSdpaArgs {query key value : List ℕ} {scale : α}
    (h : flashSdpaArgs query key value scale = some r) :
    ∃ n hq nk hk l s e, query = [n, hq, l, e] ∧ key = [nk, hk, s, e] ∧ value = [n, hk, s, e] ∧
      r = ⟨n, hq, l, s, e, e, nk, hk, n, hk, scale⟩ := by
  unfold flashSdpaArgs at h
  split at h
  · simp only [Option.bind_eq_some_iff] at h
    obtain ⟨n, hn, hd, hhd, s, hs, e, he, h⟩ := h
    obtain ⟨rfl, rfl⟩ := eq_of_guardEquals hn
    obtain ⟨rfl, rfl⟩ := eq_of_guardEquals hhd
    obtain ⟨rfl, rfl⟩ := eq_of_guardEquals hs
    obtain ⟨rfl, rfl⟩ := eq_of_guardEquals he
    split at h
    · cases h
    · rename_i hev
      rw [ne_eq, not_not] at hev
      subst hev
      split at h
      · cases h
      · exact ⟨_, _, _, _, _, _, _, rfl, rfl, rfl, (Option.some.inj h).symm⟩
  · cases h

theorem admitted_of_accepted {flash : Bool} (hchoice : fusedSdpChoice flash c = .overrideable)
    (htuned : mlirTunedFlashSdpa sqrt c = some r) :
    ∃ n nk h l e, Admitted sqrt c r n nk h l e := by
  unfold mlirTunedFlashSdpa at htuned
  rw [Option.bind_eq_some_iff] at htuned
  obtain ⟨scale, hscale, hargs⟩ := htuned
  obtain ⟨n, hq, nk, hk, l, s, e, hquery, hkey, hvalue, hr⟩ := eq_of_flashSdpaArgs hargs
  have hscale' : scale = c.scale.getD (1 / sqrt e) := by
    unfold calculateScale at hscale
    split at hscale
    · rename_i hnone
      split at hscale
      · cases hscale
      · rw [hnone, Option.getD_none, ← Option.some.inj hscale, hquery]
        rfl
    · rename_i hsome
      rw [hsome, Option.getD_some, Option.some.inj hscale]
  unfold fusedSdpChoice at hchoice
  split at hchoice
  · cases hchoice
  · dsimp only at hchoice
    split at hchoice
    · rename_i hflash
      rw [hquery, hkey] at hflash
      simp only [sizeBack, Bool.and_eq_true, decide_eq_true_eq, checkForDropout, List.length_cons,
        List.length_nil, Nat.reduceAdd, Nat.reduceSub, List.getD_cons_succ, List.getD_cons_zero,
        Bool.not_eq_true'] at hflash
      obtain ⟨-, ⟨⟨⟨hls, hheads⟩, hgqa⟩, hdropout⟩, -⟩ := hflash
      subst hls
      subst hheads
      exact ⟨n, nk, hq, l, e, hquery, hkey, hvalue, hdropout, hgqa, by rw [hr, hscale']⟩
    · cases hchoice

/-! ## The two values -/

theorem unflatten_of_lt {batch heads n h : ℕ} (hn : n < batch) (hh : h < heads) :
    unflatten batch heads (n * heads + h) = some (n, h) := by
  have hlt : n * heads + h < batch * heads := by
    calc n * heads + h < (n + 1) * heads := by
          rw [Nat.add_mul, Nat.one_mul]
          omega
      _ ≤ batch * heads := Nat.mul_le_mul_right heads hn
  unfold unflatten
  rw [if_pos hlt, Nat.mul_comm, Nat.mul_add_div (by omega), Nat.div_eq_of_lt hh, Nat.add_zero,
    Nat.mul_add_mod, Nat.mod_eq_of_lt hh]

theorem unflatten_of_le {batch heads n h : ℕ} (hn : batch ≤ n) :
    unflatten batch heads (n * heads + h) = none := by
  unfold unflatten
  rw [if_neg]
  have hmul := Nat.mul_le_mul_right heads hn
  omega

theorem broadcastDim_self (a : ℕ) : broadcastDim a a = some a := by
  unfold broadcastDim
  rw [if_pos rfl]

theorem broadcastIdx_of_lt {size i : ℕ} (h : i < size) : broadcastIdx size i = i := by
  unfold broadcastIdx
  split <;> omega

/-- The weights of the asked attention at an index of the output. -/
def askedWeight (exp : α → α) (scale : α) (c : SdpaCall α) (e : ℕ) (q k : Tensor4 α)
    (n h l s : ℕ) : α :=
  expBot exp (((scale * ∑ i ∈ range e, q n h l i * k n h s i : α) : WithBot α) +
    attnBias c n h l s)

section Admitted

variable {n nk h l e : ℕ}

/-- With one batch, the reference is the mean with the asked weights. -/
theorem Admitted.reference (exp : α → α) (ha : Admitted sqrt c r n n h l e)
    (hmask : ¬ (c.attnMask.isSome ∧ c.isCausal)) (q k v : Tensor4 α) :
    ∃ value, sdpaReference exp sqrt c q k v = some ([n, h, l, e], value) ∧
      ∀ n' < n, ∀ h' < h, ∀ l' e', value n' h' l' e' = weightedMean (range l)
        (askedWeight exp r.scale c e q k n' h' l') (fun s => v n' h' s e') := by
  obtain ⟨hquery, hkey, hvalue, hdropout, hgqa, rfl⟩ := ha
  unfold sdpaReference
  rw [hquery, hkey, hvalue]
  simp only [hdropout, hmask, hgqa, ne_eq, not_true_eq_false, or_self, if_false, Nat.mul_one,
    broadcastDim_self, Option.bind_some, Bool.false_eq_true, Nat.div_one, Option.some.injEq,
    Prod.mk.injEq, true_and]
  refine ⟨_, rfl, ?_⟩
  intro n' hn h' hh l' e'
  simp only [broadcastIdx_of_lt hn, broadcastIdx_of_lt hh]
  rfl

omit [LinearOrder α] in
/-- With one batch, the request is the mean without bias. -/
theorem Admitted.attention (ha : Admitted sqrt c r n n h l e) (q k v : Tensor4 α)
    {n' h' : ℕ} (hn : n' < n) (hh : h' < h) (l' e' : ℕ) :
    r.attention exp q k v n' h' l' e' = some (weightedMean (range l)
      (fun s => exp (r.scale * ∑ i ∈ range e, q n' h' l' i * k n' h' s i))
      (fun s => v n' h' s e')) := by
  obtain ⟨-, -, -, -, -, rfl⟩ := ha
  unfold FlashRequest.attention
  dsimp only
  rw [unflatten_of_lt hn hh]
  rfl

/-- A constant bias does not change the mean. -/
theorem mean_of_biasConstant (hexp : IsExp exp) {n' h' l' : ℕ} {scale : α} (q k : Tensor4 α)
    (v : ℕ → α) (hbias : BiasConstant c n' h' l') (hsize : sizeBack c.key 2 = l) :
    weightedMean (range l) (askedWeight exp scale c e q k n' h' l') v =
      weightedMean (range l)
        (fun s => exp (scale * ∑ i ∈ range e, q n' h' l' i * k n' h' s i)) v := by
  obtain ⟨x, hx⟩ := hbias
  rw [hsize] at hx
  have hfactor := weightedMean_mul_left (range l)
    (fun s => exp (scale * ∑ i ∈ range e, q n' h' l' i * k n' h' s i)) v (hexp.ne_zero x)
  rw [← hfactor]
  apply weightedMean_congr
  · intro s hs
    unfold askedWeight
    rw [hx s (mem_range.mp hs), ← WithBot.coe_add]
    change exp (_ + x) = _
    rw [hexp.add, mul_comm]
  · intro s _
    rfl

/-- The bias is constant where the mean is right for all values. -/
theorem biasConstant_of_mean (scale : α) (hexp : IsExp exp) (hinj : Function.Injective exp)
    [CharZero α] {n' h' l' : ℕ} (hsize : sizeBack c.key 2 = l)
    (hmean : ∀ v, weightedMean (range l) (askedWeight exp scale c e 0 0 n' h' l') v =
      weightedMean (range l)
        (fun s => exp (scale * ∑ i ∈ range e, (0 : Tensor4 α) n' h' l' i *
          (0 : Tensor4 α) n' h' s i)) v) : BiasConstant c n' h' l' := by
  have hone : ∀ s, exp (scale * ∑ i ∈ range e, (0 : Tensor4 α) n' h' l' i *
      (0 : Tensor4 α) n' h' s i) = 1 := by
    intro s
    simp only [Pi.zero_apply, mul_zero, Finset.sum_const_zero]
    exact hexp.zero
  have hweight : ∀ s, askedWeight exp scale c e 0 0 n' h' l' s =
      expBot exp (attnBias c n' h' l' s) := by
    intro s
    unfold askedWeight
    simp only [Pi.zero_apply, mul_zero, Finset.sum_const_zero, WithBot.coe_zero, zero_add]
  have hsame : ∀ s < l, expBot exp (attnBias c n' h' l' s) /
      (∑ s ∈ range l, expBot exp (attnBias c n' h' l' s)) = 1 / l := by
    intro s hs
    have hprop := weights_proportional hmean (mem_range.mpr hs)
    simpa only [hone, hweight, sum_const, card_range, nsmul_eq_mul, mul_one] using hprop
  rcases Nat.eq_zero_or_pos l with hl | hl
  · refine ⟨0, fun s hs => ?_⟩
    omega
  · have hl0 : (1 : α) / l ≠ 0 := by
      rw [one_div]
      exact inv_ne_zero (Nat.cast_ne_zero.mpr hl.ne')
    have hfinite : ∀ s < l, ∃ x : α, attnBias c n' h' l' s = x ∧
        expBot exp (attnBias c n' h' l' s) = exp x := by
      intro s hs
      have hpos := hsame s hs
      cases hb : attnBias c n' h' l' s with
      | bot =>
          rw [hb] at hpos
          change 0 / _ = _ at hpos
          rw [zero_div] at hpos
          exact absurd hpos.symm hl0
      | coe x => exact ⟨x, rfl, rfl⟩
    obtain ⟨x, hx, hwx⟩ := hfinite 0 hl
    refine ⟨x, fun s hs => ?_⟩
    rw [hsize] at hs
    obtain ⟨y, hy, hwy⟩ := hfinite s hs
    have hsum : (∑ s ∈ range l, expBot exp (attnBias c n' h' l' s)) ≠ 0 := by
      intro hzero
      have hbad := hsame 0 hl
      rw [hzero, div_zero] at hbad
      exact hl0 hbad.symm
    have heq : exp y = exp x := by
      rw [← hwx, ← hwy, ← div_left_inj' hsum, hsame s hs, hsame 0 hl]
    rw [hy, hinj heq]

/-- Another batch of the key gives another shape, or raises. -/
theorem Admitted.batch_of_reference (ha : Admitted sqrt c r n nk h l e) {q k v : Tensor4 α}
    {value : Tensor4 α} (href : sdpaReference exp sqrt c q k v = some ([n, h, l, e], value)) :
    ¬ (c.attnMask.isSome ∧ c.isCausal) ∧ (nk = n ∨ nk = 1) := by
  obtain ⟨hquery, hkey, hvalue, hdropout, hgqa, rfl⟩ := ha
  unfold sdpaReference at href
  rw [hquery, hkey, hvalue] at href
  simp only at href
  split at href
  · cases href
  · rename_i hfails
    refine ⟨fun hmask => hfails (.inr (.inl hmask)), ?_⟩
    simp only [Option.bind_eq_some_iff, Option.some.injEq, Prod.mk.injEq, List.cons.injEq]
      at href
    obtain ⟨m, hm, m', hm', -, -, -, -, ⟨rfl, -⟩, -⟩ := href
    unfold broadcastDim at hm hm'
    split_ifs at hm hm' <;> simp only [Option.some.injEq] at hm hm' <;> omega

omit [LinearOrder α] in
/-- Where the key has fewer batches, an output element has no key. -/
theorem Admitted.batch_of_attention (ha : Admitted sqrt c r n nk h l e) {q k v : Tensor4 α}
    {n' h' l' e' : ℕ} (hle : nk ≤ n') : r.attention exp q k v n' h' l' e' = none := by
  obtain ⟨-, -, -, -, -, rfl⟩ := ha
  unfold FlashRequest.attention
  dsimp only
  rw [unflatten_of_le hle]
  rfl

/-- An output without elements asks for nothing but its shape. -/
theorem Admitted.reference_one (exp : α → α) (ha : Admitted sqrt c r n 1 h l e)
    (hmask : ¬ (c.attnMask.isSome ∧ c.isCausal)) (q k v : Tensor4 α) :
    ∃ value, sdpaReference exp sqrt c q k v = some ([n, h, l, e], value) := by
  have hbroadcast : broadcastDim n 1 = some n := by
    unfold broadcastDim
    split_ifs <;> simp_all
  obtain ⟨hquery, hkey, hvalue, hdropout, hgqa, rfl⟩ := ha
  unfold sdpaReference
  rw [hquery, hkey, hvalue]
  simp only [hdropout, hmask, hgqa, ne_eq, not_true_eq_false, or_self, if_false, Nat.mul_one,
    broadcastDim_self, Option.bind_some, Bool.false_eq_true, hbroadcast]
  exact ⟨_, rfl⟩

omit [LinearOrder α] in
theorem Admitted.sizes (ha : Admitted sqrt c r n nk h l e) :
    r.n = n ∧ r.hq = h ∧ r.l = l ∧ r.ev = e := by
  rw [ha.request]
  exact ⟨rfl, rfl, rfl, rfl⟩

theorem requestExact_of_sound (hexp : IsExp exp) (ha : Admitted sqrt c r n nk h l e)
    (hsound : DispatchSound c) : RequestExact exp sqrt c r := by
  obtain ⟨hmask, hbatch, hbias⟩ := hsound
  have hquery := ha.query
  have hsize : sizeBack c.key 2 = l := by rw [ha.key]; rfl
  obtain ⟨hrn, hrh, hrl, hre⟩ := ha.sizes
  rw [ha.key, hquery] at hbatch
  rw [hquery] at hbias
  simp only [sizeBack, List.length_cons, List.length_nil, Nat.reduceAdd, Nat.reduceSub,
    List.getD_cons_zero, List.getD_cons_succ, List.prod_cons, List.prod_nil, mul_one]
    at hbatch hbias
  intro q k v
  rcases Classical.em (nk = n) with rfl | hne
  · obtain ⟨value, href, hvalue⟩ := ha.reference exp hmask q k v
    refine ⟨value, by rw [hrn, hrh, hrl, hre, href], ?_⟩
    intro n' hn h' hh l' hl e' he
    rw [hrn] at hn
    rw [hrh] at hh
    rw [hrl] at hl
    rw [hre] at he
    have hne : nk * (h * (l * e)) ≠ 0 := by
      have h1 : nk ≠ 0 := by omega
      have h2 : h ≠ 0 := by omega
      have h3 : l ≠ 0 := by omega
      have h4 : e ≠ 0 := by omega
      positivity
    rw [ha.attention q k v hn hh, hvalue n' hn h' hh,
      mean_of_biasConstant hexp q k _ (hbias hne n' hn h' hh l' hl) hsize]
  · obtain ⟨rfl, hzero⟩ := hbatch.resolve_left hne
    obtain ⟨value, href⟩ := ha.reference_one exp hmask q k v
    refine ⟨value, by rw [hrn, hrh, hrl, hre, href], ?_⟩
    intro n' hn h' hh l' hl e' he
    rw [hrn] at hn
    rw [hrh] at hh
    rw [hrl] at hl
    rw [hre] at he
    simp only [Nat.mul_eq_zero] at hzero
    omega

theorem sound_of_requestExact (hexp : IsExp exp) (hinj : Function.Injective exp) [CharZero α]
    (ha : Admitted sqrt c r n nk h l e) (hexact : RequestExact exp sqrt c r) :
    DispatchSound c := by
  obtain ⟨hrn, hrh, hrl, hre⟩ := ha.sizes
  have hshape : [r.n, r.hq, r.l, r.ev] = [n, h, l, e] := by rw [hrn, hrh, hrl, hre]
  have hsize : sizeBack c.key 2 = l := by rw [ha.key]; rfl
  obtain ⟨value, href, hvalue⟩ := hexact 0 0 0
  rw [hshape] at href
  obtain ⟨hmask, hbatch⟩ := ha.batch_of_reference href
  have hsame : n * (h * (l * e)) ≠ 0 → nk = n := by
    intro hne
    rcases hbatch with hnk | rfl
    · exact hnk
    · by_contra hcontra
      simp only [ne_eq, Nat.mul_eq_zero, not_or] at hne
      have hone := hvalue 1 (by omega) 0 (by omega) 0 (by omega) 0 (by omega)
      rw [ha.batch_of_attention le_rfl] at hone
      cases hone
  refine ⟨hmask, ?_, ?_⟩
  · rw [ha.key, ha.query]
    simp only [sizeBack, List.length_cons, List.length_nil, Nat.reduceAdd, Nat.reduceSub,
      List.getD_cons_zero, List.prod_cons, List.prod_nil, mul_one]
    by_cases hne : n * (h * (l * e)) = 0
    · exact hbatch.imp id fun hone => ⟨hone, hne⟩
    · exact .inl (hsame hne)
  · rw [ha.query]
    simp only [sizeBack, List.length_cons, List.length_nil, Nat.reduceAdd, Nat.reduceSub,
      List.getD_cons_zero, List.getD_cons_succ, List.prod_cons, List.prod_nil, mul_one]
    intro hne n' hn h' hh l' hl
    obtain rfl := hsame hne
    have he : 0 < e := by
      simp only [ne_eq, Nat.mul_eq_zero, not_or] at hne
      omega
    apply biasConstant_of_mean r.scale hexp hinj hsize (e := e)
    intro v
    obtain ⟨value, href, hvalue⟩ := hexact 0 0 (fun _ _ s _ => v s)
    obtain ⟨value', href', hvalue'⟩ := ha.reference exp hmask 0 0 (fun _ _ s _ => v s)
    rw [hshape, href'] at href
    obtain ⟨-, rfl⟩ := Prod.mk.inj (Option.some.inj href)
    have hpoint := hvalue n' (by omega) h' (by omega) l' (by omega) 0 (by omega)
    rw [ha.attention 0 0 _ hn hh, hvalue' n' hn h' hh] at hpoint
    exact (Option.some.inj hpoint).symm

end Admitted

end Dispatch

/-- An admitted call gets the attention that it asks for exactly if its bias is constant along
the rows and its key has the batch of the query. -/
theorem requestExact_iff_sound (flash : Bool) (c : SdpaCall ℝ) (r : FlashRequest ℝ)
    (hchoice : fusedSdpChoice flash c = .overrideable)
    (htuned : mlirTunedFlashSdpa (fun n => Real.sqrt n) c = some r) :
    RequestExact Real.exp (fun n => Real.sqrt n) c r ↔ DispatchSound c := by
  obtain ⟨n, nk, h, l, e, ha⟩ := admitted_of_accepted hchoice htuned
  exact ⟨sound_of_requestExact isExp_real Real.exp_injective ha,
    requestExact_of_sound isExp_real ha⟩

/-- A causal call with two tokens. -/
noncomputable def causalCall : SdpaCall ℝ where
  query := [1, 1, 2, 1]
  key := [1, 1, 2, 1]
  value := [1, 1, 2, 1]
  nested := false
  attnMask := none
  dropoutP := 0
  isCausal := true
  scale := some 1
  enableGqa := false

/-- Its request. -/
noncomputable def causalRequest : FlashRequest ℝ := ⟨1, 1, 2, 2, 1, 1, 1, 1, 1, 1, 1⟩

theorem causalCall_choice : fusedSdpChoice true causalCall = .overrideable := by
  simp [fusedSdpChoice, causalCall, checkTensorShapes, checkForDropout, checkNestedTensor,
    sizeBack]

theorem causalCall_request :
    mlirTunedFlashSdpa (fun n => Real.sqrt n) causalCall = some causalRequest := rfl

/-- The first token sees the second one. -/
theorem causalCall_not_sound : ¬ DispatchSound causalCall := by
  rintro ⟨-, -, hbias⟩
  obtain ⟨x, hx⟩ := hbias (by decide) 0 (by decide) 0 (by decide) 0 (by decide)
  have hlater : attnBias causalCall 0 0 0 1 = ⊥ := rfl
  have hone := hx 1 (by decide)
  rw [hlater] at hone
  cases hone

theorem requestExact_iff_sound_causal :
    (fusedSdpChoice true causalCall = .overrideable ∧
      mlirTunedFlashSdpa (fun n => Real.sqrt n) causalCall = some causalRequest) ∧
    (RequestExact Real.exp (fun n => Real.sqrt n) causalCall causalRequest ↔
      DispatchSound causalCall) :=
  ⟨⟨causalCall_choice, causalCall_request⟩,
    requestExact_iff_sound true causalCall causalRequest causalCall_choice causalCall_request⟩

/-- The causal call is admitted, and its request is not what it asks for. -/
theorem causal_call_admitted :
    fusedSdpChoice true causalCall = .overrideable ∧
    mlirTunedFlashSdpa (fun n => Real.sqrt n) causalCall = some causalRequest ∧
    ¬ RequestExact Real.exp (fun n => Real.sqrt n) causalCall causalRequest := by
  refine ⟨causalCall_choice, causalCall_request, fun hexact => causalCall_not_sound ?_⟩
  obtain ⟨n, nk, h, l, e, ha⟩ := admitted_of_accepted causalCall_choice causalCall_request
  exact sound_of_requestExact isExp_real Real.exp_injective ha hexact

end PyTorchSim.Analysis
