import Mathlib.Analysis.SpecialFunctions.Exp
import Mathlib.Analysis.SpecialFunctions.Pow.NNReal
import PyTorchSim.Analysis.TensorEntries
import PyTorchSim.Frontend.NativeAttention

/-!
# Multi-head attention

What the operator is for: attention of each head, with the mask on its scores, and the output
projection.  The decomposition computes that where no mask is given.  With a mask it reads a
variable that it never assigned, and raises.
-/

set_option autoImplicit false

namespace PyTorchSim.Analysis

open Finset Frontend Library

/-- A shape that is broadcast to another one: aligned at the last axis, an axis is as long or has
length one. -/
def BroadcastsTo (shape target : List ℕ) : Prop :=
  shape.length ≤ target.length ∧
    List.Forall₂ (fun n m => n = 1 ∨ n = m) shape (target.drop (target.length - shape.length))

def maskShape {α : Type} : AttentionMask α → List ℕ
  | .boolean m => m.shape
  | .additive m => m.shape

/-- A call of the operator.  The fused weight has the rows of the queries, of the keys and of the
values; there are `kvHeads` heads of keys and values. -/
structure AttentionCall (α : Type) where
  batchSize : ℕ
  seqLen : ℕ
  embedDim : ℕ
  numHeads : ℕ
  kvHeads : ℕ
  query : Tensor α
  key : Tensor α
  value : Tensor α
  qkvWeight : Tensor α
  qkvBias : Option (Tensor α)
  projWeight : Tensor α
  projBias : Option (Tensor α)
  mask : Option (AttentionMask α)
  needWeights : Bool
  heads_dvd : numHeads ∣ embedDim
  kvHeads_dvd : kvHeads ∣ numHeads
  query_shape : query.shape = [batchSize, seqLen, embedDim]
  key_shape : key.shape = [batchSize, seqLen, embedDim]
  value_shape : value.shape = [batchSize, seqLen, embedDim]
  qkvWeight_shape :
    qkvWeight.shape = [embedDim + 2 * (kvHeads * (embedDim / numHeads)), embedDim]
  qkvBias_shape : ∀ b ∈ qkvBias, b.shape = [embedDim + 2 * (kvHeads * (embedDim / numHeads))]
  projWeight_shape : projWeight.shape = [embedDim, embedDim]
  projBias_shape : ∀ b ∈ projBias, b.shape = [embedDim]
  mask_broadcasts : ∀ m ∈ mask, BroadcastsTo (maskShape m)
    [batchSize, numHeads, seqLen, seqLen]

/-- The entry of a tensor that is broadcast to the shape the coordinates belong to. -/
def broadcastEntry {α : Type} (t : Tensor α) (idx : List ℕ) : α :=
  t.get (List.zipWith (fun i n => if n = 1 then 0 else i)
    (idx.drop (idx.length - t.shape.length)) t.shape)

/-- A score after the mask; minus infinity is `⊥`. -/
def maskedScore {α : Type} [Add α] (mask : Option (AttentionMask α)) (idx : List ℕ) (score : α) :
    WithBot α :=
  match mask with
  | none => score
  | some (.boolean m) => if broadcastEntry m idx then score else ⊥
  | some (.additive m) => broadcastEntry m idx + score

/-- The exponential of a masked score. -/
def expScore {α : Type} [Zero α] (exp : α → α) : WithBot α → α
  | none => 0
  | some score => exp score

/-! ## The attention of a call -/

namespace AttentionCall

variable {α : Type} [Field α] (call : AttentionCall α) (exp sqrt : α → α)

def headDim : ℕ := call.embedDim / call.numHeads

/-- Row `row` of the fused projection, for token `s` of batch `b`. -/
def projected (x : Tensor α) (row b s : ℕ) : α :=
  ∑ e ∈ range call.embedDim, x.get [b, s, e] * call.qkvWeight.get [row, e] +
    biasEntry call.qkvBias row

def headQuery (b h s d : ℕ) : α := call.projected call.query (h * call.headDim + d) b s

/-- The key head that the query head `h` shares. -/
def kvHead (h : ℕ) : ℕ := h / (call.numHeads / call.kvHeads)

def headKey (b h s d : ℕ) : α :=
  call.projected call.key (call.embedDim + (call.kvHead h * call.headDim + d)) b s

def headValue (b h s d : ℕ) : α :=
  call.projected call.value
    (call.embedDim + call.kvHeads * call.headDim + (call.kvHead h * call.headDim + d)) b s

def score (b h i j : ℕ) : WithBot α :=
  maskedScore call.mask [b, h, i, j]
    ((∑ d ∈ range call.headDim, call.headQuery b h i d * call.headKey b h j d) /
      sqrt call.headDim)

def weight (b h i j : ℕ) : α :=
  expScore exp (call.score sqrt b h i j) /
    ∑ j' ∈ range call.seqLen, expScore exp (call.score sqrt b h i j')

def headOutput (b h i d : ℕ) : α :=
  ∑ j ∈ range call.seqLen, call.weight exp sqrt b h i j * call.headValue b h j d

def output (b i o : ℕ) : α :=
  ∑ h ∈ range call.numHeads, ∑ d ∈ range call.headDim,
    call.headOutput exp sqrt b h i d * call.projWeight.get [o, h * call.headDim + d] +
    biasEntry call.projBias o

def meanWeight (b i j : ℕ) : α :=
  (∑ h ∈ range call.numHeads, call.weight exp sqrt b h i j) / call.numHeads

/-- The two results are those of multi-head attention. -/
def IsAttention (result : Tensor α × Option (Tensor α)) : Prop :=
  Entries3 result.1 call.batchSize call.seqLen call.embedDim (call.output exp sqrt) ∧
    if call.needWeights then
      ∃ w, result.2 = some w ∧
        Entries3 w call.batchSize call.seqLen call.seqLen (call.meanWeight exp sqrt)
    else result.2 = none

/-- The decomposition of the call. -/
def decomposed : Except TorchError (Tensor α × Option (Tensor α)) :=
  decomposeNativeMultiHeadAttention exp sqrt call.query call.key call.value call.embedDim
    call.numHeads call.qkvWeight call.qkvBias call.projWeight call.projBias call.mask
    call.needWeights

end AttentionCall

/-! ## The parts of the fused weight -/

section Parts

variable {α : Type} [Field α] {weight part : Tensor α} {bias partBias : Option (Tensor α)}
  {lo n cols : ℕ}

/-- Rows `lo` to `lo + n` of a weight, and of its bias. -/
structure IsPart (weight : Tensor α) (bias : Option (Tensor α)) (part : Tensor α)
    (partBias : Option (Tensor α)) (lo n cols : ℕ) : Prop where
  rows : Entries2 part n cols fun r c => weight.get [lo + r, c]
  bias_shape : ∀ b ∈ partBias, b.shape = [n]
  bias_get : ∀ o < n, biasEntry partBias o = biasEntry bias (lo + o)

theorem isPart_slice {total hi : ℕ} (hweight : weight.shape = [total, cols])
    (hbias : ∀ b ∈ bias, b.shape = [total]) (hhi : lo + n = hi) (hle : hi ≤ total) :
    IsPart weight bias (weight.slice lo hi) (bias.map fun b => b.slice lo hi) lo n cols := by
  have hrows : Entries2 weight total cols fun r c => weight.get [r, c] :=
    ⟨hweight, fun _ _ _ _ => rfl⟩
  have hsize : hi - lo = n := by omega
  have hlo : lo ≤ hi := by omega
  have hpart := slice_entries2 hrows hlo hle
  rw [hsize] at hpart
  cases bias with
  | none => exact ⟨hpart, by simp, fun o _ => rfl⟩
  | some b =>
    have hcol : Entries1 b total fun r => b.get [r] := ⟨hbias b rfl, fun _ _ => rfl⟩
    have hcolPart := slice_entries1 hcol hlo hle
    rw [hsize] at hcolPart
    refine ⟨hpart, ?_, fun o ho => hcolPart.get o ho⟩
    intro b' hb'
    simp only [Option.map_some, Option.mem_def, Option.some.injEq] at hb'
    rw [← hb', hcolPart.shape]

omit [Field α] in
theorem splitInThree_eq {t : Tensor α} {size : ℕ} (hsize : 0 < size)
    (ht : t.shape.headD 0 = 3 * size) :
    splitInThree t size =
      .ok (t.slice 0 size, t.slice size (size + size), t.slice (size + size) (3 * size)) := by
  have hcount : max ((3 * size + size - 1) / size) 1 = 3 := by
    have hthree : (3 * size + size - 1) / size = 3 := by
      rw [Nat.div_eq_iff hsize]
      omega
    rw [hthree]
    rfl
  have hchunks : t.split size =
      .ok [t.slice 0 size, t.slice size (size + size), t.slice (size + size) (3 * size)] := by
    rw [Tensor.split, if_neg hsize.ne', ht, hcount]
    simp only [List.range, List.range.loop, List.map_cons, List.map_nil]
    congr 4 <;> ring_nf
  rw [splitInThree, hchunks]
  rfl

/-- **The split of the fused weight**, for all head counts: the rows of the queries, of the keys and
of the values. -/
theorem splitQkv_gives {embedDim numHeads kvHeads headDim : ℕ} (hdim : 0 < embedDim)
    (hhead : 0 < headDim) (hheads : numHeads * headDim = embedDim)
    (hweight : weight.shape = [embedDim + 2 * (kvHeads * headDim), embedDim])
    (hbias : ∀ b ∈ bias, b.shape = [embedDim + 2 * (kvHeads * headDim)]) :
    Gives (splitQkv embedDim numHeads headDim weight bias) fun parts =>
      parts.kvEmbedDim = kvHeads * headDim ∧ parts.kvHeads = kvHeads ∧
      IsPart weight bias parts.qkvWeightQ parts.qkvBiasQ 0 embedDim embedDim ∧
      IsPart weight bias parts.qkvWeightK parts.qkvBiasK embedDim (kvHeads * headDim) embedDim ∧
      IsPart weight bias parts.qkvWeightV parts.qkvBiasV (embedDim + kvHeads * headDim)
        (kvHeads * headDim) embedDim := by
  have hthird : embedDim + kvHeads * headDim + kvHeads * headDim =
      embedDim + 2 * (kvHeads * headDim) := by ring
  have hq : IsPart weight bias (weight.slice 0 embedDim)
      (bias.map fun b => b.slice 0 embedDim) 0 embedDim embedDim :=
    isPart_slice hweight hbias (Nat.zero_add _) (Nat.le_add_right ..)
  have hk : IsPart weight bias (weight.slice embedDim (embedDim + kvHeads * headDim))
      (bias.map fun b => b.slice embedDim (embedDim + kvHeads * headDim))
      embedDim (kvHeads * headDim) embedDim :=
    isPart_slice hweight hbias rfl (by omega)
  have hv := isPart_slice hweight hbias hthird le_rfl
  have htotal : weight.shape.headD 0 = embedDim + 2 * (kvHeads * headDim) := by
    rw [hweight]
    rfl
  simp only [splitQkv, htotal]
  by_cases hthree : embedDim + 2 * (kvHeads * headDim) = 3 * embedDim
  · have hkv : kvHeads * headDim = embedDim := by omega
    have hsame : kvHeads = numHeads := Nat.eq_of_mul_eq_mul_right hhead (hkv.trans hheads.symm)
    rw [hkv] at hk hv htotal hthree ⊢
    rw [if_pos hthree, splitInThree_eq hdim (htotal.trans hthree)]
    rw [hthree] at hv
    cases bias with
    | none => exact Gives.ok ⟨rfl, hsame.symm, hq, hk, hv⟩
    | some b =>
      have hb : b.shape.headD 0 = 3 * embedDim := by
        rw [hbias b rfl, hkv, hthree]
        rfl
      change Gives ((splitInThree b embedDim) >>= _) _
      rw [splitInThree_eq hdim hb]
      exact Gives.ok ⟨rfl, hsame.symm, hq, hk, hv⟩
  · have hdiv : (embedDim + 2 * (kvHeads * headDim) - embedDim) / 2 = kvHeads * headDim := by
      omega
    rw [if_neg hthree, hdiv]
    rw [floorDiv, if_neg hhead.ne', Nat.mul_div_cancel _ hhead]
    refine Gives.ok ⟨rfl, rfl, hq, hk, ?_⟩
    cases bias with
    | none => exact hv
    | some b =>
      have hb : b.shape.headD 0 = embedDim + 2 * (kvHeads * headDim) := by
        rw [hbias b rfl]
        rfl
      simp only [Option.map_some, hb]
      exact hv

end Parts

/-! ## Heads -/

section Heads

variable {α : Type} [Field α] {batch seq dim heads headDim : ℕ}

/-- **The projection into heads**: head `h` gets the rows of the weight from `h * headDim` on. -/
theorem projectHeads_gives {flat weight part : Tensor α} {bias partBias : Option (Tensor α)}
    {lo cols : ℕ} {x : ℕ → ℕ → ℕ → α} (hcols : heads * headDim = cols)
    (hflat : Entries2 flat (batch * seq) dim fun r e => x (r / seq) (r % seq) e)
    (hpart : IsPart weight bias part partBias lo cols dim) :
    Gives (projectHeads flat part partBias batch seq heads headDim cols) fun t =>
      Entries4 t batch heads seq headDim fun b h s d =>
        ∑ e ∈ range dim, x b s e * weight.get [lo + (h * headDim + d), e] +
          biasEntry bias (lo + (h * headDim + d)) := by
  subst hcols
  refine Gives.bind (linear_entries2 hflat hpart.rows hpart.bias_shape) fun t ht => ?_
  refine Gives.bind (view_entries3_of_rows ht) fun t ht => ?_
  refine Gives.bind (view_entries4_of_last ht) fun t ht => ?_
  refine Gives.ok ((transpose12_entries4 ht).congr fun b _ h hh s hs d hd => ?_)
  rw [mul_add_div_of_lt hs, mul_add_mod_of_lt hs, hpart.bias_get _ (mul_add_lt_mul hh hd)]

omit [Field α] in
/-- The head of keys and values that a query head uses. -/
theorem repeatHeads_gives {t : Tensor α} {numHeads kvHeads : ℕ} (hpos : 0 < numHeads)
    (hdvd : kvHeads ∣ numHeads) {f : ℕ → ℕ → ℕ → ℕ → α}
    (ht : Entries4 t batch kvHeads seq headDim f) :
    Gives (repeatHeads numHeads kvHeads t) fun u =>
      Entries4 u batch numHeads seq headDim fun b h s d => f b (h / (numHeads / kvHeads)) s d := by
  have hkv : 0 < kvHeads := Nat.pos_of_dvd_of_pos hdvd hpos
  rw [repeatHeads]
  split
  · rw [floorDiv, if_neg hkv.ne']
    have hrepeat := repeatInterleave1_entries4 ht (numHeads / kvHeads)
    rw [Nat.mul_div_cancel' hdvd] at hrepeat
    exact Gives.ok hrepeat
  · next hle =>
    have hsame : kvHeads = numHeads := le_antisymm (Nat.le_of_dvd hpos hdvd) (not_lt.1 hle)
    subst hsame
    refine Gives.ok (ht.congr fun b _ h _ s _ d _ => ?_)
    rw [Nat.div_self hpos, Nat.div_one]

/-- **The attention of the heads**, where no mask is given. -/
theorem attendHeads_gives {exp : α → α} {scale : α} {q k v projWeight : Tensor α}
    {projBias : Option (Tensor α)} {fq fk fv w : ℕ → ℕ → ℕ → ℕ → α}
    (hcols : heads * headDim = dim) (hdim : 0 < dim) (hq : Entries4 q batch heads seq headDim fq)
    (hk : Entries4 k batch heads seq headDim fk) (hv : Entries4 v batch heads seq headDim fv)
    (hprojWeight : projWeight.shape = [dim, dim]) (hprojBias : ∀ b ∈ projBias, b.shape = [dim])
    (hw : ∀ b h i j, w b h i j =
      exp (scale * ∑ d ∈ range headDim, fq b h i d * fk b h j d) /
        ∑ j' ∈ range seq, exp (scale * ∑ d ∈ range headDim, fq b h i d * fk b h j' d)) :
    Gives (attendHeads exp scale q k v none batch seq dim projWeight projBias)
      fun result =>
        Entries3 result.1 batch seq dim (fun b i o =>
          ∑ h ∈ range heads, ∑ d ∈ range headDim,
            (∑ j ∈ range seq, w b h i j * fv b h j d) * projWeight.get [o, h * headDim + d] +
            biasEntry projBias o) ∧
        Entries4 result.2 batch heads seq seq w := by
  subst hcols
  have hscore : ∀ b h i j, ∑ d ∈ range headDim, fq b h i d * scale * fk b h j d =
      scale * ∑ d ∈ range headDim, fq b h i d * fk b h j d := by
    intro b h i j
    rw [Finset.mul_sum]
    apply Finset.sum_congr rfl
    intro d _
    ring
  have hproj : Entries2 projWeight (heads * headDim) (heads * headDim)
      fun r c => projWeight.get [r, c] := ⟨hprojWeight, fun _ _ _ _ => rfl⟩
  refine Gives.bind (matmul_entries4 (map_entries4 hq (· * scale)) (transpose23_entries4 hk))
    fun scores hscores => ?_
  refine Gives.bind (P := fun _ => True) (Gives.ok trivial) fun _ _ => ?_
  have hweights : Entries4 (scores.softmax exp) batch heads seq seq w := by
    refine (softmax_entries4 hscores exp).congr fun b _ h _ i _ j _ => ?_
    simp only [hscore]
    exact (hw b h i j).symm
  refine Gives.bind (matmul_entries4 hweights hv) fun t ht => ?_
  refine Gives.bind (view_entries3_of_heads (transpose12_entries4 ht)) fun t ht => ?_
  refine Gives.bind (viewRows_entries3 ht hdim) fun t ht => ?_
  refine Gives.bind (linear_entries2 ht hproj hprojBias) fun t ht => ?_
  refine Gives.bind (view_entries3_of_rows ht) fun t ht => ?_
  refine Gives.ok ⟨ht.congr fun b _ i hi o _ => ?_, hweights⟩
  rw [mul_add_div_of_lt hi, mul_add_mod_of_lt hi, sum_range_rows]
  congr 1
  apply Finset.sum_congr rfl
  intro h _
  apply Finset.sum_congr rfl
  intro d hd
  rw [mul_add_div_of_lt (mem_range.1 hd), mul_add_mod_of_lt (mem_range.1 hd)]

end Heads

/-! ## The decomposition -/

namespace AttentionCall

section

variable {α : Type} [Field α] {call : AttentionCall α} {exp sqrt : α → α}

/-- Without a mask the weight of a key is that of its scaled score. -/
theorem weight_of_no_mask (hmask : call.mask = none) (b h i j : ℕ) :
    call.weight exp sqrt b h i j =
      exp (1 / sqrt call.headDim *
        ∑ d ∈ range call.headDim, call.headQuery b h i d * call.headKey b h j d) /
      ∑ j' ∈ range call.seqLen, exp (1 / sqrt call.headDim *
        ∑ d ∈ range call.headDim, call.headQuery b h i d * call.headKey b h j' d) := by
  have hexp : ∀ j, expScore exp (call.score sqrt b h i j) = exp (1 / sqrt call.headDim *
      ∑ d ∈ range call.headDim, call.headQuery b h i d * call.headKey b h j d) := by
    intro j
    rw [score, hmask, one_div_mul_eq_div]
    rfl
  rw [weight]
  simp only [hexp]

/-- **The decomposition without a mask** is multi-head attention. -/
theorem decomposed_of_no_mask (hmask : call.mask = none) (hdim : 0 < call.embedDim) :
    Gives (call.decomposed exp sqrt) (call.IsAttention exp sqrt) := by
  have hheads : 0 < call.numHeads := Nat.pos_of_dvd_of_pos call.heads_dvd hdim
  have hsplit : call.numHeads * call.headDim = call.embedDim := Nat.mul_div_cancel' call.heads_dvd
  have hhead : 0 < call.headDim := by
    rw [headDim]
    exact Nat.div_pos (Nat.le_of_dvd hdim call.heads_dvd) hheads
  have hflat : ∀ x : Tensor α, x.shape = [call.batchSize, call.seqLen, call.embedDim] →
      Gives (flatRows call.query x call.embedDim) fun t =>
        Entries2 t (call.batchSize * call.seqLen) call.embedDim
          fun r e => x.get [r / call.seqLen, r % call.seqLen, e] := by
    intro x hx
    rw [flatRows, if_pos (by rw [call.query_shape]; rfl)]
    exact viewRows_entries3 ⟨hx, fun _ _ _ _ _ _ => rfl⟩ hdim
  have hwithBatch : Gives (withBatch call.query call.key call.value) fun batched =>
      batched = (call.batchSize, call.seqLen, call.query, call.key, call.value) := by
    rw [withBatch, call.query_shape]
    exact Gives.ok rfl
  rw [decomposed, decomposeNativeMultiHeadAttention, hmask]
  refine Gives.bind (P := fun n => n = call.headDim) ?_ fun n hn => ?_
  · rw [floorDiv, if_neg hheads.ne']
    exact Gives.ok rfl
  subst hn
  simp only [if_neg hhead.ne']
  refine Gives.bind hwithBatch fun batched hbatched => ?_
  subst hbatched
  refine Gives.bind (hflat call.query call.query_shape) fun queryFlat hqueryFlat => ?_
  refine Gives.bind (hflat call.key call.key_shape) fun keyFlat hkeyFlat => ?_
  refine Gives.bind (hflat call.value call.value_shape) fun valueFlat hvalueFlat => ?_
  refine Gives.bind (splitQkv_gives hdim hhead hsplit call.qkvWeight_shape call.qkvBias_shape)
    fun parts ⟨hkvDim, hkvHeads, hpartQ, hpartK, hpartV⟩ => ?_
  simp only [hkvDim, hkvHeads]
  refine Gives.bind
    (projectHeads_gives (x := fun b s e => call.query.get [b, s, e]) hsplit hqueryFlat hpartQ)
    fun q hq => ?_
  refine Gives.bind
    (projectHeads_gives (x := fun b s e => call.key.get [b, s, e]) rfl hkeyFlat hpartK)
    fun k hk => ?_
  refine Gives.bind
    (projectHeads_gives (x := fun b s e => call.value.get [b, s, e]) rfl hvalueFlat hpartV)
    fun v hv => ?_
  refine Gives.bind (repeatHeads_gives hheads call.kvHeads_dvd hk) fun k hk => ?_
  refine Gives.bind (repeatHeads_gives hheads call.kvHeads_dvd hv) fun v hv => ?_
  have hq' : Entries4 q call.batchSize call.numHeads call.seqLen call.headDim call.headQuery := by
    refine hq.congr fun b _ h _ s _ d _ => ?_
    rw [Nat.zero_add]
    rfl
  refine Gives.bind (attendHeads_gives hsplit hdim hq' hk hv call.projWeight_shape
    call.projBias_shape (weight_of_no_mask hmask)) fun result ⟨hout, hweights⟩ => ?_
  cases hneed : call.needWeights with
  | false => exact Gives.ok ⟨hout, by simp [hneed]⟩
  | true =>
    refine Gives.ok ⟨hout, ?_⟩
    rw [if_pos hneed]
    exact ⟨_, rfl, mean1_entries3 hweights⟩

/-- With a mask the scores are not reached: the variable of the mask has no value. -/
theorem not_gives_attendHeads {scale : α} {q k v projWeight : Tensor α}
    {projBias : Option (Tensor α)} {mask : AttentionMask α} {batch seq dim : ℕ}
    {P : Tensor α × Tensor α → Prop} :
    ¬ Gives (attendHeads exp scale q k v (some mask) batch seq dim projWeight projBias) P := by
  intro h
  obtain ⟨scores, -, h⟩ := Gives.of_bind h
  obtain ⟨_, hmask, -⟩ := Gives.of_bind h
  cases mask with
  | boolean m => cases hmask
  | additive m => cases hmask

theorem not_gives_decomposed_of_mask {P : Tensor α × Option (Tensor α) → Prop}
    {mask : AttentionMask α} (hmask : call.mask = some mask) :
    ¬ Gives (call.decomposed exp sqrt) P := by
  intro h
  rw [decomposed, decomposeNativeMultiHeadAttention, hmask] at h
  obtain ⟨headDim, -, h⟩ := Gives.of_bind h
  by_cases hdim : headDim = 0
  · rw [if_pos hdim] at h
    exact Gives.not_error h
  · rw [if_neg hdim] at h
    obtain ⟨batched, -, h⟩ := Gives.of_bind h
    obtain ⟨queryFlat, -, h⟩ := Gives.of_bind h
    obtain ⟨keyFlat, -, h⟩ := Gives.of_bind h
    obtain ⟨valueFlat, -, h⟩ := Gives.of_bind h
    obtain ⟨parts, -, h⟩ := Gives.of_bind h
    obtain ⟨q, -, h⟩ := Gives.of_bind h
    obtain ⟨k, -, h⟩ := Gives.of_bind h
    obtain ⟨v, -, h⟩ := Gives.of_bind h
    obtain ⟨k, -, h⟩ := Gives.of_bind h
    obtain ⟨v, -, h⟩ := Gives.of_bind h
    obtain ⟨result, hresult, -⟩ := Gives.of_bind h
    exact not_gives_attendHeads (P := fun _ => True) ⟨result, hresult, trivial⟩

/-- Heads without elements cannot be scaled. -/
theorem not_gives_decomposed_of_empty {P : Tensor α × Option (Tensor α) → Prop}
    (hdim : call.embedDim = 0) : ¬ Gives (call.decomposed exp sqrt) P := by
  intro h
  rw [decomposed, decomposeNativeMultiHeadAttention, hdim] at h
  obtain ⟨headDim, hhead, h⟩ := Gives.of_bind h
  rw [floorDiv] at hhead
  split at hhead
  · cases hhead
  · cases hhead
    rw [if_pos (Nat.zero_div _)] at h
    exact Gives.not_error h

end

/-- **When the decomposition is multi-head attention**, over the real numbers: no mask is given, and
the embedding is not empty. -/
theorem decomposed_isAttention_iff (call : AttentionCall ℝ) :
    Gives (call.decomposed Real.exp Real.sqrt) (call.IsAttention Real.exp Real.sqrt) ↔
      call.mask = none ∧ 0 < call.embedDim := by
  constructor
  · intro h
    constructor
    · cases hmask : call.mask with
      | none => rfl
      | some mask => exact absurd h (not_gives_decomposed_of_mask hmask)
    · rcases Nat.eq_zero_or_pos call.embedDim with hdim | hdim
      · exact absurd h (not_gives_decomposed_of_empty hdim)
      · exact hdim
  · rintro ⟨hmask, hdim⟩
    exact decomposed_of_no_mask hmask hdim

/-- One token of one element, with a boolean mask that keeps its score. -/
noncomputable def oneMaskedToken : AttentionCall ℝ where
  batchSize := 1
  seqLen := 1
  embedDim := 1
  numHeads := 1
  kvHeads := 1
  query := ⟨[1, 1, 1], fun _ => 1⟩
  key := ⟨[1, 1, 1], fun _ => 1⟩
  value := ⟨[1, 1, 1], fun _ => 1⟩
  qkvWeight := ⟨[3, 1], fun _ => 1⟩
  qkvBias := none
  projWeight := ⟨[1, 1], fun _ => 1⟩
  projBias := none
  mask := some (.boolean ⟨[1, 1, 1, 1], fun _ => true⟩)
  needWeights := false
  heads_dvd := dvd_rfl
  kvHeads_dvd := dvd_rfl
  query_shape := rfl
  key_shape := rfl
  value_shape := rfl
  qkvWeight_shape := rfl
  qkvBias_shape := by simp
  projWeight_shape := rfl
  projBias_shape := by simp
  mask_broadcasts := by
    rintro m hm
    cases hm
    exact ⟨le_rfl, by simp [maskShape]⟩

theorem oneMaskedToken_raises :
    ¬ Gives (oneMaskedToken.decomposed Real.exp Real.sqrt)
      (oneMaskedToken.IsAttention Real.exp Real.sqrt) :=
  not_gives_decomposed_of_mask rfl

end AttentionCall

end PyTorchSim.Analysis
