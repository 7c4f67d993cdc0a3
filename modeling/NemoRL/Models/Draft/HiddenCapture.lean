import NemoRL.Foundations.Channels
import NemoRL.Foundations.Dicts
import NemoRL.Foundations.Tensors

namespace NemoRL.Models.Draft.HiddenCapture

open Foundations Foundations.Channels Foundations.Tensors

inductive Dtype
  | float16
  | bfloat16
  | float32
  | float64
  deriving DecidableEq

def dtypeToCode : Dict Dtype ℕ := [(.float16, 0), (.bfloat16, 1), (.float32, 2)]

def codeToDtype : Dict ℕ Dtype := dtypeToCode.map Prod.swap

theorem codeToDtype_of_dtypeToCode {dtype : Dtype} {code : ℕ}
    (h : Dict.get dtypeToCode dtype = some code) : Dict.get codeToDtype code = some dtype := by
  cases dtype with
  | float16 => obtain rfl := Option.some.inj h; rfl
  | bfloat16 => obtain rfl := Option.some.inj h; rfl
  | float32 => obtain rfl := Option.some.inj h; rfl
  | float64 => cases h

/-- A model of `numLayers` layers on the stages of a pipeline, and where the stages run. -/
structure Layout where
  numLayers : ℕ
  ppSize : ℕ
  /-- `layer_number - 1` of the entries of `decoder.layers` of each stage. -/
  stageLayers : Fin ppSize → List ℕ
  auxLayerIndices : List ℕ
  /-- The global ranks of the pipeline group, by position in it. -/
  group : Fin ppSize → ℕ
  ppSize_pos : 0 < ppSize
  stageLayers_lt : ∀ p, ∀ l ∈ stageLayers p, l < numLayers
  stageLayers_nodup : ∀ p, (stageLayers p).Nodup
  stageLayers_unique : ∀ p q l, l ∈ stageLayers p → l ∈ stageLayers q → p = q
  stageLayers_cover : ∀ l, l < numLayers → ∃ p, l ∈ stageLayers p
  aux_lt : ∀ l ∈ auxLayerIndices, l < numLayers
  aux_nodup : auxLayerIndices.Nodup
  group_injective : Function.Injective group

section Source

variable {ν : Type} [Zero ν]

inductive Key
  | embeds
  | layer (globalIdx : ℕ)
  deriving DecidableEq

/-- What `send` and `recv` carry: four integers, or a tensor. -/
inductive Message (ν : Type) [Zero ν]
  | metadata (seqLen batchSize hiddenSize dtypeCode : ℕ)
  | payload (tensor : Tensors.Tensor Dtype ν)

structure CapturedStates (ν : Type) [Zero ν] where
  hiddenStates : Option (Tensors.Tensor Dtype ν)
  inputsEmbeds : Option (Tensors.Tensor Dtype ν)

/-- The outputs of one forward pass: of the embedding and of every layer. -/
structure Pass (ν : Type) [Zero ν] where
  seqLen : ℕ
  batchSize : ℕ
  hiddenSize : ℕ
  embeds : Tensors.Tensor Dtype ν
  layer : ℕ → Tensors.Tensor Dtype ν
  embeds_shape : embeds.shape = [seqLen, batchSize, hiddenSize]
  embeds_dtype : (Dict.get dtypeToCode embeds.dtype).isSome
  layer_shape : ∀ l, (layer l).shape = [seqLen, batchSize, hiddenSize]
  layer_dtype : ∀ l, (Dict.get dtypeToCode (layer l).dtype).isSome

abbrev Capture (ν : Type) [Zero ν] := Process ℕ (Message ν)

namespace Layout

variable (L : Layout) (p : Fin L.ppSize)

def firstStage : Fin L.ppSize := ⟨0, L.ppSize_pos⟩

theorem lastStage_lt : L.ppSize - 1 < L.ppSize := Nat.sub_one_lt L.ppSize_pos.ne'

def lastStage : Fin L.ppSize := ⟨L.ppSize - 1, L.lastStage_lt⟩

/-- `_compute_local_layer_mapping`: the stage's own auxiliary layers, in its order. -/
def computeLocalLayerMapping : List ℕ := (L.stageLayers p).filter (· ∈ L.auxLayerIndices)

def computeLayerOwnerMap (globalIdx : ℕ) : Option ℕ :=
  if L.ppSize = 1 then
    if globalIdx < L.numLayers then some 0 else none
  else
    ((List.finRange L.ppSize).find? fun q ↦ globalIdx ∈ L.stageLayers q).map Fin.val

def ownerRankForGlobalLayer (globalLayerIdx : ℕ) : ℕ :=
  if L.ppSize = 1 then 0
  else match L.computeLayerOwnerMap globalLayerIdx with
    | some owner => owner
    | none => min (globalLayerIdx / max 1 (L.numLayers / L.ppSize)) (L.ppSize - 1)

def captured (pass : Pass ν) : Dict Key (Tensors.Tensor Dtype ν) :=
  (if p = L.firstStage then [(.embeds, pass.embeds)] else []) ++
    (L.computeLocalLayerMapping p).map fun l ↦ (.layer l, pass.layer l)

/-- `torch.distributed.send`, whose peer is a global rank of the group other than the own. -/
def distSend (m : Message ν) (dst : ℕ) : Capture ν Unit :=
  if (∃ q, L.group q = dst) ∧ dst ≠ L.group p then .send dst m (.done ()) else .fail

def distRecv (src : ℕ) : Capture ν (Message ν) :=
  if (∃ q, L.group q = src) ∧ src ≠ L.group p then .recv src .done else .fail

def sendTensor (tensor : Tensors.Tensor Dtype ν) (dstRank : ℕ) : Capture ν Unit :=
  match Dict.get dtypeToCode tensor.dtype, tensor.shape with
  | some dtypeCode, seqLen :: batchSize :: hiddenSize :: _ => do
    L.distSend p (.metadata seqLen batchSize hiddenSize dtypeCode) dstRank
    L.distSend p (.payload tensor) dstRank
  | _, _ => .fail

def receivePayload (shape : List ℕ) (dtype : Dtype) : Message ν → Capture ν (Tensors.Tensor Dtype ν)
  | .metadata .. => .fail
  | .payload tensor => if tensor.shape = shape ∧ tensor.dtype = dtype then .done tensor else .fail

def recvTensor (srcRank : ℕ) : Capture ν (Tensors.Tensor Dtype ν) := do
  match ← L.distRecv p srcRank with
  | .payload _ => .fail
  | .metadata seqLen batchSize hiddenSize dtypeCode =>
    match Dict.get codeToDtype dtypeCode with
    | none => .fail
    | some dtype =>
      let received ← L.distRecv p srcRank
      receivePayload [seqLen, batchSize, hiddenSize] dtype received

def gatherLayers (stored : Dict Key (Tensors.Tensor Dtype ν)) :
    List ℕ → Dict ℕ (Tensors.Tensor Dtype ν) → Capture ν (Dict ℕ (Tensors.Tensor Dtype ν))
  | [], gathered => pure gathered
  | globalIdx :: rest, gathered =>
    if p.val = L.ownerRankForGlobalLayer globalIdx then
      match Dict.get stored (.layer globalIdx) with
      | none => gatherLayers stored rest gathered
      | some tensor =>
        if p = L.lastStage then gatherLayers stored rest (Dict.set gathered globalIdx tensor)
        else do
          L.sendTensor p tensor (L.ppSize - 1)
          gatherLayers stored rest gathered
    else if p = L.lastStage then do
      let received ← L.recvTensor p (L.ownerRankForGlobalLayer globalIdx)
      gatherLayers stored rest (Dict.set gathered globalIdx received)
    else gatherLayers stored rest gathered

def gatherEmbeds (stored : Dict Key (Tensors.Tensor Dtype ν)) :
    Capture ν (Option (Tensors.Tensor Dtype ν)) :=
  if p = L.firstStage then
    match Dict.get stored .embeds with
    | none => pure none
    | some embeds =>
      if p = L.lastStage then pure (some embeds)
      else do
        L.sendTensor p embeds (L.ppSize - 1)
        pure none
  else if p = L.lastStage then do
    let received ← L.recvTensor p 0
    pure (some received)
  else pure none

end Layout

def concatenated (E : ElementTypes Dtype ν) (chunks : List (Tensors.Tensor Dtype ν))
    (inputsEmbeds : Option (Tensors.Tensor Dtype ν)) : Capture ν (CapturedStates ν) :=
  if chunks.isEmpty then pure ⟨none, inputsEmbeds⟩
  else match cat E (-1) chunks with
    | none => .fail
    | some hiddenStates => pure ⟨some hiddenStates, inputsEmbeds⟩

namespace Layout

variable (L : Layout) (p : Fin L.ppSize) (E : ElementTypes Dtype ν)

def assembleLocalStates (stored : Dict Key (Tensors.Tensor Dtype ν)) :
    Capture ν (CapturedStates ν) :=
  concatenated E ((L.auxLayerIndices.mergeSort (· ≤ ·)).filterMap fun l ↦
    Dict.get stored (.layer l)) (Dict.get stored .embeds)

def gatherDistributed (stored : Dict Key (Tensors.Tensor Dtype ν)) : Capture ν (CapturedStates ν) :=
  if stored.isEmpty ∧ p ≠ L.lastStage then pure ⟨none, none⟩
  else do
    let gathered ← L.gatherLayers p stored L.auxLayerIndices []
    let embeds ← L.gatherEmbeds p stored
    if p ≠ L.lastStage then pure ⟨none, none⟩
    else concatenated E (((gathered.map Prod.fst).mergeSort (· ≤ ·)).filterMap
      (Dict.get gathered)) embeds

def getCapturedStates (pass : Pass ν) : Capture ν (CapturedStates ν) :=
  if L.ppSize = 1 then L.assembleLocalStates E (L.captured p pass)
  else L.gatherDistributed p E (L.captured p pass)

def stageOf (rank : ℕ) : Option (Fin L.ppSize) :=
  (List.finRange L.ppSize).find? fun p ↦ L.group p = rank

/-- Every rank of the group in `get_captured_states`; the others take no part. -/
def start (L : Layout) (E : ElementTypes Dtype ν) (pass : Pass ν) :
    System ℕ (Message ν) (CapturedStates ν) :=
  System.start fun rank ↦ match L.stageOf rank with
    | none => .done ⟨none, none⟩
    | some p => L.getCapturedStates p E pass

end Layout

end Source

end NemoRL.Models.Draft.HiddenCapture
