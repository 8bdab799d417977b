import PyTorchSim.Library.WeightedMean
import Mathlib.Algebra.Order.Monoid.Unbundled.WithTop

/-!
# Dispatch of scaled dot product attention

`_fused_sdp_choice` decides in C++ whether a call goes to the flash kernel, and the lowering
`_mlir_tuned_flash_sdpa` checks the shapes and requests the kernel in Python.  Tensors are
functions of their index; `math.sqrt` and `exp` are parameters.
-/

set_option autoImplicit false

namespace PyTorchSim.Model

open Finset PyTorchSim.Library

/-- A tensor of rank four. -/
abbrev Tensor4 (α : Type) := ℕ → ℕ → ℕ → ℕ → α

/-- An attention mask, expanded to the index of the scores: the pairs that take part, or a
number to add, where `⊥` is minus infinity. -/
inductive AttnMask (α : Type)
  | bool (mask : Tensor4 Bool)
  | float (mask : Tensor4 (WithBot α))

/-- The arguments of a call; `query`, `key` and `value` are the shapes.
SOURCE: Extra.cpp:13-21 -/
structure SdpaCall (α : Type) where
  query : List ℕ
  key : List ℕ
  value : List ℕ
  nested : Bool
  attnMask : Option (AttnMask α)
  dropoutP : α
  isCausal : Bool
  scale : Option α
  enableGqa : Bool

/-- `Tensor::size(-k)` -/
def sizeBack (shape : List ℕ) (k : ℕ) : ℕ := shape.getD (shape.length - k) 0

/-- SOURCE: Extra.cpp:27, 47-54 -/
inductive SDPBackend
  | error
  | math
  | overrideable
  deriving DecidableEq, Repr

section

variable {α : Type} [Field α] [LinearOrder α]

/-- All three tensors have rank four. -/
def checkTensorShapes (c : SdpaCall α) : Bool :=
  c.query.length = 4 && c.key.length = 4 && c.value.length = 4

/-- There is no dropout. -/
def checkForDropout (c : SdpaCall α) : Bool := c.dropoutP = 0

/-- No tensor is nested. -/
def checkNestedTensor (c : SdpaCall α) : Bool := !c.nested

/-- SOURCE: Extra.cpp:13-55 -/
def fusedSdpChoice (userEnabledFlashSDP : Bool) (c : SdpaCall α) : SDPBackend :=
  if !checkTensorShapes c then .error
  else
    let hq := sizeBack c.query 3
    let h := sizeBack c.key 3
    let l := sizeBack c.query 2
    let s := sizeBack c.key 2
    let canUseMlirFlash := l = s && hq = h && !c.enableGqa && checkForDropout c &&
      checkNestedTensor c
    if userEnabledFlashSDP && canUseMlirFlash then .overrideable else .math

/-- What the lowering requests from the template: the sizes of its `layout`, the flattened
heads of key and value, and the scale. -/
structure FlashRequest (α : Type) where
  n : ℕ
  hq : ℕ
  l : ℕ
  s : ℕ
  e : ℕ
  ev : ℕ
  keyBatch : ℕ
  keyHeads : ℕ
  valueBatch : ℕ
  valueHeads : ℕ
  scale : α

/-- `V.graph.sizevars.guard_equals`; `none` when it raises. -/
def guardEquals (a b : ℕ) : Option ℕ := if a = b then some a else none

/-- `nk` is bound twice, so the batch of the key is not compared.
SOURCE: mlir_sdpa_template.py:89-142 -/
def flashSdpaArgs (query key value : List ℕ) (scale : α) : Option (FlashRequest α) :=
  match query, key, value with
  | [nq, hq, l, eq], [nkey, hk, sk, ek], [nk, hv, sv, ev] =>
      (guardEquals nq nk).bind fun n =>
      (guardEquals hk hv).bind fun h =>
      (guardEquals sk sv).bind fun s =>
      (guardEquals eq ek).bind fun e =>
      if e ≠ ev then none
      else if hq ≠ h ∧ (n ≠ 1 ∨ hq % h ≠ 0) then none
      else some ⟨n, hq, l, s, e, ev, nkey, hk, nk, hv, scale⟩
  | _, _, _ => none

/-- The scale of a call; `none` when the division by zero raises.
SOURCE: mlir_sdpa_template.py:144-152 -/
def calculateScale (sqrt : ℕ → α) (query : List ℕ) (scale : Option α) : Option α :=
  match scale with
  | none => if sizeBack query 1 = 0 then none else some (1 / sqrt (sizeBack query 1))
  | some scale => some scale

/-- Mask and causality are arguments of the lowering that it does not use.
SOURCE: mlir_lowering.py:92-110 -/
def mlirTunedFlashSdpa (sqrt : ℕ → α) (c : SdpaCall α) : Option (FlashRequest α) :=
  (calculateScale sqrt c.query c.scale).bind fun scale =>
    flashSdpaArgs c.query c.key c.value scale

/-! ## What is requested -/

/-- The batch and the head of a flattened head; `none` behind the last one.
SOURCE: mlir_sdpa_template.py:517-522 -/
def unflatten (batch heads b : ℕ) : Option (ℕ × ℕ) :=
  if b < batch * heads then some (b / heads, b % heads) else none

/-- The unmasked attention `softmax(scale * Q * K^T) * V` of a request; `none` where a
flattened head of the query has no head of the key or the value. -/
def FlashRequest.attention (exp : α → α) (r : FlashRequest α) (q k v : Tensor4 α)
    (n h l e : ℕ) : Option α :=
  (unflatten r.keyBatch r.keyHeads (n * r.hq + h)).bind fun kh =>
  (unflatten r.valueBatch r.valueHeads (n * r.hq + h)).bind fun vh =>
    some (weightedMean (range r.s)
      (fun s => exp (r.scale * ∑ i ∈ range r.e, q n h l i * k kh.1 kh.2 s i))
      (fun s => v vh.1 vh.2 s e))

/-! ## What is asked for -/

/-- The size of a broadcast dimension. -/
def broadcastDim (a b : ℕ) : Option ℕ :=
  if a = b then some a else if a = 1 then some b else if b = 1 then some a else none

/-- The index into a broadcast dimension. -/
def broadcastIdx (size i : ℕ) : ℕ := if size = 1 then 0 else i

/-- The bias of a causal call. -/
def causalBias (isCausal : Bool) (l s : ℕ) : WithBot α :=
  if isCausal && l < s then ⊥ else 0

/-- The bias of a mask. -/
def maskBias (mask : Option (AttnMask α)) (n h l s : ℕ) : WithBot α :=
  match mask with
  | none => 0
  | some (.bool mask) => if mask n h l s then 0 else ⊥
  | some (.float mask) => mask n h l s

/-- The bias that is added to the score of query row `l` and key `s`. -/
def attnBias (c : SdpaCall α) (n h l s : ℕ) : WithBot α :=
  maskBias c.attnMask n h l s + causalBias c.isCausal l s

/-- The weight of a score; minus infinity has none. -/
def expBot (exp : α → α) : WithBot α → α
  | ⊥ => 0
  | (x : α) => exp x

/-- `scaled_dot_product_attention` as it is documented: its shape and its value.  It is `none`
where the call raises, and with dropout, where it is random. -/
def sdpaReference (exp : α → α) (sqrt : ℕ → α) (c : SdpaCall α) (q k v : Tensor4 α) :
    Option (List ℕ × Tensor4 α) :=
  match c.query, c.key, c.value with
  | [nq, hq, l, eq], [nk, hk, sk, ek], [nv, hv, sv, ev] =>
      if c.dropoutP ≠ 0 ∨ (c.attnMask.isSome ∧ c.isCausal) ∨ eq ≠ ek ∨ sk ≠ sv then none
      else
        let repeats (heads : ℕ) : ℕ := if c.enableGqa then hq / heads else 1
        let head (heads h : ℕ) : ℕ := broadcastIdx (heads * repeats heads) h / repeats heads
        let scale := c.scale.getD (1 / sqrt eq)
        (broadcastDim nq nk).bind fun n =>
        (broadcastDim n nv).bind fun n =>
        (broadcastDim hq (hk * repeats hk)).bind fun h =>
        (broadcastDim h (hv * repeats hv)).bind fun h =>
          some ([n, h, l, ev], fun n h l e =>
            weightedMean (range sk)
              (fun s => expBot exp (((scale * ∑ i ∈ range eq,
                q (broadcastIdx nq n) (broadcastIdx hq h) l i *
                  k (broadcastIdx nk n) (head hk h) s i : α) : WithBot α) + attnBias c n h l s))
              (fun s => v (broadcastIdx nv n) (head hv h) s e))
  | _, _, _ => none

end

end PyTorchSim.Model
