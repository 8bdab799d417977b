import PyTorchSim.Frontend.TensorOps

/-!
# The decomposition of multi-head attention

`aten._native_multi_head_attention` becomes linear layers, views and transposes, and the two
products of the attention.  The functions `exp` and `sqrt` stand for those of the real numbers.
-/

set_option autoImplicit false

namespace PyTorchSim.Frontend

/-- A mask over the scores; the entries of an additive one may be minus infinity. -/
inductive AttentionMask (α : Type) where
  | boolean (mask : Tensor Bool)
  | additive (mask : Tensor (WithBot α))

/-- The parts of the fused weight and bias. -/
structure QkvParts (α : Type) where
  qkvWeightQ : Tensor α
  qkvWeightK : Tensor α
  qkvWeightV : Tensor α
  qkvBiasQ : Option (Tensor α)
  qkvBiasK : Option (Tensor α)
  qkvBiasV : Option (Tensor α)
  kvEmbedDim : ℕ
  kvHeads : ℕ

section

variable {α : Type}

/-- `a, b, c = torch.split(t, size, dim=0)` -/
def splitInThree (t : Tensor α) (size : ℕ) :
    Except TorchError (Tensor α × Tensor α × Tensor α) := do
  match ← t.split size with
  | [q, k, v] => .ok (q, k, v)
  | _ => .error .valueError

/-- SOURCE: mlir_decomposition.py:278-305 -/
def splitQkv (embedDim numHeads headDim : ℕ) (qkvWeight : Tensor α) (qkvBias : Option (Tensor α)) :
    Except TorchError (QkvParts α) := do
  let qkvWeightTotal := qkvWeight.shape.headD 0
  if qkvWeightTotal = 3 * embedDim then
    let (wq, wk, wv) ← splitInThree qkvWeight embedDim
    match qkvBias with
    | some bias =>
      let (bq, bk, bv) ← splitInThree bias embedDim
      return ⟨wq, wk, wv, some bq, some bk, some bv, embedDim, numHeads⟩
    | none => return ⟨wq, wk, wv, none, none, none, embedDim, numHeads⟩
  else
    let qDim := embedDim
    let kvDim := (qkvWeightTotal - embedDim) / 2
    let first (t : Tensor α) := t.slice 0 qDim
    let second (t : Tensor α) := t.slice qDim (qDim + kvDim)
    let third (t : Tensor α) := t.slice (qDim + kvDim) (t.shape.headD 0)
    let kvHeads ← floorDiv kvDim headDim
    return ⟨first qkvWeight, second qkvWeight, third qkvWeight,
      qkvBias.map first, qkvBias.map second, qkvBias.map third, kvDim, kvHeads⟩

/-- The batch size and the length of the sequence, with the inputs as a batch.
SOURCE: mlir_decomposition.py:241-260 -/
def withBatch (query key value : Tensor α) :
    Except TorchError (ℕ × ℕ × Tensor α × Tensor α × Tensor α) :=
  match query.shape with
  | [batchSize, seqLen, _] => .ok (batchSize, seqLen, query, key, value)
  | [seqLen, _] => .ok (1, seqLen, query.unsqueeze0, key.unsqueeze0, value.unsqueeze0)
  | [] => .error .indexError
  | [seqLen] => .ok (seqLen, seqLen, query, key, value)
  | batchSize :: seqLen :: _ => .ok (batchSize, seqLen, query, key, value)

/-- SOURCE: mlir_decomposition.py:265-272 -/
def flatRows (query t : Tensor α) (embedDim : ℕ) : Except TorchError (Tensor α) :=
  if query.shape.length = 3 then t.viewRows embedDim else .ok t

end

section

variable {α : Type} [Field α]

/-- One of the three projections, split into heads.
SOURCE: mlir_decomposition.py:307-326 -/
def projectHeads (flat weight : Tensor α) (bias : Option (Tensor α))
    (batchSize seqLen heads headDim embedDim : ℕ) : Except TorchError (Tensor α) := do
  let t ← flat.linear weight bias
  let t ← t.view [batchSize, seqLen, embedDim]
  let t ← t.view [batchSize, seqLen, heads, headDim]
  return t.transpose 1 2

/-- Key and value heads are repeated for the query heads that share them.
SOURCE: mlir_decomposition.py:328-332 -/
def repeatHeads (numHeads kvHeads : ℕ) (t : Tensor α) : Except TorchError (Tensor α) :=
  if kvHeads < numHeads then do
    let repeatFactor ← floorDiv numHeads kvHeads
    return t.repeatInterleave1 repeatFactor
  else .ok t

/-- Both branches read `attn_bias`, which is assigned in the second one only, after it is read.
SOURCE: mlir_decomposition.py:344-348 -/
def applyMask : Option (AttentionMask α) → Except TorchError Unit
  | none => .ok ()
  | some (.boolean _) => .error (.unboundLocalError "attn_bias")
  | some (.additive _) => .error (.unboundLocalError "attn_bias")

/-- SOURCE: mlir_decomposition.py:334-365 -/
def attendHeads (exp : α → α) (scaleFactor : α) (q k v : Tensor α)
    (mask : Option (AttentionMask α)) (batchSize seqLen embedDim : ℕ) (projWeight : Tensor α)
    (projBias : Option (Tensor α)) : Except TorchError (Tensor α × Tensor α) := do
  let qScaled := q.map (· * scaleFactor)
  let scores ← qScaled.matmul (k.transpose 2 3)
  applyMask mask
  let attnWeights := scores.softmax exp
  let attnOutput ← attnWeights.matmul v
  let attnOutput ← (attnOutput.transpose 1 2).view [batchSize, seqLen, embedDim]
  let attnOutputFlat ← attnOutput.viewRows embedDim
  let output ← attnOutputFlat.linear projWeight projBias
  let output ← output.view [batchSize, seqLen, embedDim]
  return (output, attnWeights)

/-- SOURCE: mlir_decomposition.py:213-371 -/
def decomposeNativeMultiHeadAttention (exp sqrt : α → α) (query key value : Tensor α)
    (embedDim numHeads : ℕ) (qkvWeight : Tensor α) (qkvBias : Option (Tensor α))
    (projWeight : Tensor α) (projBias : Option (Tensor α)) (mask : Option (AttentionMask α))
    (needWeights : Bool) : Except TorchError (Tensor α × Option (Tensor α)) := do
  let headDim ← floorDiv embedDim numHeads
  if headDim = 0 then throw .zeroDivisionError
  let scaleFactor := 1 / sqrt headDim
  let (batchSize, seqLen, query, key, value) ← withBatch query key value
  let queryFlat ← flatRows query query embedDim
  let keyFlat ← flatRows query key embedDim
  let valueFlat ← flatRows query value embedDim
  let parts ← splitQkv embedDim numHeads headDim qkvWeight qkvBias
  let q ← projectHeads queryFlat parts.qkvWeightQ parts.qkvBiasQ batchSize seqLen numHeads headDim
    embedDim
  let k ← projectHeads keyFlat parts.qkvWeightK parts.qkvBiasK batchSize seqLen parts.kvHeads
    headDim parts.kvEmbedDim
  let v ← projectHeads valueFlat parts.qkvWeightV parts.qkvBiasV batchSize seqLen parts.kvHeads
    headDim parts.kvEmbedDim
  let k ← repeatHeads numHeads parts.kvHeads k
  let v ← repeatHeads numHeads parts.kvHeads v
  let (output, attnWeights) ← attendHeads exp scaleFactor q k v mask batchSize seqLen embedDim
    projWeight projBias
  if needWeights then return (output, some attnWeights.mean1)
  else return (output, none)

end

end PyTorchSim.Frontend
