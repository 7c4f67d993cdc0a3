import Mathlib
import NemoRL.Foundations.Grids
import NemoRL.Foundations.Dicts
import NemoRL.Models.Draft.EagleKeys

namespace NemoRL.Models.Draft

open Foundations Foundations.Blocks

/-- The tensors of a draft: weights are matrices, norms and `d2t` are vectors.
All of one dtype, so that `.to(dtype)` changes nothing. -/
inductive Tensor (α : Type)
  | vector (entries : List α)
  | matrix (grid : Grid α)

namespace Tensor

variable {α : Type}

def shape : Tensor α → List ℕ
  | vector entries => [entries.length]
  | matrix grid => grid.shape

def grid : Tensor α → Option (Grid α)
  | vector _ => none
  | matrix grid => some grid

def chunk (tensor : Tensor α) (n axis i : ℕ) : Option (Tensor α) := do
  let dim ← tensor.shape[axis]?
  let size := (dim + n - 1) / n
  if dim ≤ i * size then none
  else match tensor with
    | vector entries => some (vector (block size entries i))
    | matrix grid => some (matrix (if axis = 0 then grid.rowBlock size i else grid.colBlock size i))

end Tensor

section Layout

/-- The parameters of a transformer layer of the draft. -/
inductive LayerParameter
  | linearQkv | linearProj | linearFc1 | linearFc2
  | hiddenNorm | hnorm | preFcNormHidden
  | inputLayernorm | qkvLayerNorm
  | preMlpLayernorm | fc1LayerNorm
  deriving DecidableEq

/-- `eagle_module.decoder.layers.{i}` or `eagle_module.layer`. -/
inductive LayerPrefix
  | decoderLayer (index : ℕ)
  | layer
  deriving DecidableEq

/-- The keys of the draft's state dict that the code names. -/
inductive ParameterName
  | fc | d2t
  | finalLayernorm | norm
  | eagleOutputLayer | lmHead
  | hiddenNorm | hnorm | preFcNormHidden | enorm
  | ofLayer (modelPrefix : LayerPrefix) (parameter : LayerParameter)
  | other (name : String)
  deriving DecidableEq

abbrev StateDict (α : Type) := Dict ParameterName (Tensor α)

structure EagleLayerLayout where
  layerIndex : ℕ
  modelPrefix : LayerPrefix
  checkpointPrefix : List Char
  hiddenNormKey : Option ParameterName
  inputLayernormKey : Option ParameterName
  postAttentionLayernormKey : Option ParameterName

namespace EagleLayerLayout

variable (layer : EagleLayerLayout)

def qkvWeightKey : ParameterName := .ofLayer layer.modelPrefix .linearQkv
def projWeightKey : ParameterName := .ofLayer layer.modelPrefix .linearProj
def fc1WeightKey : ParameterName := .ofLayer layer.modelPrefix .linearFc1
def fc2WeightKey : ParameterName := .ofLayer layer.modelPrefix .linearFc2

end EagleLayerLayout

def resolveOptionalKey (modelKeys candidates : List ParameterName) : Option ParameterName :=
  candidates.find? (· ∈ modelKeys)

structure EagleModelLayout where
  layers : List EagleLayerLayout
  finalNormKey : Option ParameterName
  lmHeadKey : Option ParameterName

/-- The index in a key that matches `_MODEL_LAYER_QKV_KEY_PATTERN`. -/
def qkvLayerIndex : ParameterName → Option ℕ
  | .ofLayer (.decoderLayer index) .linearQkv => some index
  | _ => none

/-- The layers with their prefixes, in the order of their indices. -/
def layerPrefixes (modelKeys : List ParameterName) : Option (List (ℕ × LayerPrefix)) :=
  let layerIndices := (modelKeys.filterMap qkvLayerIndex).insertionSort (· ≤ ·)
  if layerIndices ≠ [] then some (layerIndices.map fun index ↦ (index, .decoderLayer index))
  else if .ofLayer .layer .linearQkv ∈ modelKeys then some [(0, .layer)]
  else none

def detectLayer (modelKeys : List ParameterName) (useMidlayerAlias : Bool)
    (layer : ℕ × LayerPrefix) : EagleLayerLayout where
  layerIndex := layer.1
  modelPrefix := layer.2
  checkpointPrefix :=
    if useMidlayerAlias then "midlayer".toList else "layers.".toList ++ Nat.toDigits 10 layer.1
  hiddenNormKey :=
    let globalHiddenNormKey :=
      resolveOptionalKey modelKeys [.hiddenNorm, .hnorm, .preFcNormHidden, .enorm]
    resolveOptionalKey modelKeys
      ([.ofLayer layer.2 .hiddenNorm, .ofLayer layer.2 .hnorm, .ofLayer layer.2 .preFcNormHidden] ++
        if layer.1 = 0 then globalHiddenNormKey.toList else [])
  inputLayernormKey :=
    resolveOptionalKey modelKeys [.ofLayer layer.2 .inputLayernorm, .ofLayer layer.2 .qkvLayerNorm]
  postAttentionLayernormKey :=
    resolveOptionalKey modelKeys
      [.ofLayer layer.2 .preMlpLayernorm, .ofLayer layer.2 .fc1LayerNorm]

def EagleModelLayout.detect (modelKeys : List ParameterName) : Option EagleModelLayout := do
  let prefixes ← layerPrefixes modelKeys
  let useMidlayerAlias := prefixes.map Prod.fst = [0]
  some {
    layers := prefixes.map (detectLayer modelKeys useMidlayerAlias)
    finalNormKey := resolveOptionalKey modelKeys [.finalLayernorm, .norm]
    lmHeadKey := resolveOptionalKey modelKeys [.eagleOutputLayer, .lmHead] }

end Layout

section Config

structure TransformerConfig where
  numAttentionHeads : ℕ
  numQueryGroups : Option ℕ
  kvChannels : Option ℕ
  hiddenSize : ℕ
  ffnHiddenSize : ℕ
  draftVocabSize : ℕ
  eagleAuxHiddenStateLayerIds : List ℕ
  useAuxHiddenState : Bool

def orDefault (value : Option ℕ) (default : ℕ) : ℕ :=
  match value with
  | none | some 0 => default
  | some n => n

namespace TransformerConfig

variable (config : TransformerConfig)

def groups : ℕ := orDefault config.numQueryGroups config.numAttentionHeads

def headDim : ℕ := orDefault config.kvChannels (config.hiddenSize / config.numAttentionHeads)

def headsPerGroup : ℕ := config.numAttentionHeads / config.groups

def numAuxHiddenStates : ℕ :=
  if config.eagleAuxHiddenStateLayerIds ≠ [] then config.eagleAuxHiddenStateLayerIds.length
  else if config.useAuxHiddenState then 3 else 0

end TransformerConfig

end Config

variable {α : Type}

section Import

/-- `_interleave_qkv`. The `-1` of a reshape is the width of the matrix. -/
def interleaveQkv (q k v : Grid α) (config : TransformerConfig) : Option (Grid α) :=
  let ng := config.groups
  let hd := config.headDim
  let r := config.headsPerGroup
  if q.rows.length = ng * (r * hd) ∧ k.rows.length = ng * hd ∧ v.rows.length = ng * hd then
    Grid.vcat ((List.range ng).flatMap fun g ↦
      [q.rowBlock (r * hd) g, k.rowBlock hd g, v.rowBlock hd g])
  else none

def deinterleaveQkv (fused : Grid α) (config : TransformerConfig) :
    Option (Grid α × Grid α × Grid α) := do
  let ng := config.groups
  let hd := config.headDim
  let r := config.headsPerGroup
  if fused.rows.length = ng * ((r + 2) * hd) ∧ config.numAttentionHeads = ng * r then
    let g := (List.range ng).map (fused.rowBlock ((r + 2) * hd))
    let q ← Grid.vcat (g.map fun group ↦ group.rowSlice 0 (r * hd))
    let k ← Grid.vcat (g.map fun group ↦ group.rowSlice (r * hd) ((r + 1) * hd))
    let v ← Grid.vcat (g.map fun group ↦ group.rowSlice ((r + 1) * hd) ((r + 2) * hd))
    return (q, k, v)
  else none

/-- The tensor-parallel size as the two sharding functions infer it. -/
def inferTp (fullDim localDim tpRank : ℕ) : Option ℕ :=
  if localDim = 0 ∨ fullDim % localDim ≠ 0 then none
  else if fullDim / localDim ≤ tpRank then none
  else some (fullDim / localDim)

/-- `_combine_or_shard_weight_parts`; `some none` when there is nothing to map. -/
def combineOrShardWeightParts (fusedWeight : Option (Tensor α))
    (componentWeights : List (Option (Tensor α))) (target : Option (Tensor α)) (tpRank : ℕ) :
    Option (Option (Tensor α)) :=
  match fusedWeight with
  | some weight => some (some weight)
  | none =>
    if componentWeights.all Option.isNone then some none
    else do
      let weights ← componentWeights.mapM fun weight ↦ weight.bind Tensor.grid
      let fullWeight ← Grid.vcat weights
      match target with
      | none => some (some (.matrix fullWeight))
      | some target =>
        if fullWeight.shape = target.shape then some (some (.matrix fullWeight))
        else
          let localDim ← target.shape[0]?
          let inferredTp ← inferTp fullWeight.rows.length localDim tpRank
          -- each shard keeps the boundaries of the components
          let parts ← weights.mapM fun weight ↦
            if weight.rows.length % inferredTp ≠ 0 then none
            else ((Tensor.matrix weight).chunk inferredTp 0 tpRank).bind Tensor.grid
          let localWeight ← Grid.vcat parts
          if localWeight.shape ≠ target.shape then none
          else some (some (.matrix localWeight))

inductive PendingWeight
  | qkv | q | k | v | fc1 | gate | up
  deriving DecidableEq

/-- The loop of `_map_hf_state_to_eagle_state`: what is mapped, and of each
layer the pending weights that are not `None`. -/
structure ImportState (α : Type) where
  mappedState : StateDict α
  pendingWeights : Dict (ℕ × PendingWeight) (Tensor α)

namespace ImportState

def setMapped (st : ImportState α) (name : ParameterName) (weight : Tensor α) : ImportState α :=
  { st with mappedState := st.mappedState.set name weight }

def setPending (st : ImportState α) (index : ℕ) (field : PendingWeight) (weight : Tensor α) :
    ImportState α :=
  { st with pendingWeights := st.pendingWeights.set (index, field) weight }

def assignOptional (st : ImportState α) (modelKey : Option ParameterName) (weight : Tensor α) :
    ImportState α :=
  match modelKey with
  | none => st
  | some name => st.setMapped name weight

end ImportState

def applyTo (pending : PendingWeight → Option (Tensor α)) (mappedState : StateDict α)
    (layer : EagleLayerLayout) (modelState : StateDict α) (tpRank : ℕ)
    (config : TransformerConfig) : Option (StateDict α) := do
  let qkvWeight ← match pending .qkv, pending .q, pending .k, pending .v with
    | some weight, _, _, _ => some (some weight)
    | none, some q, some k, some v => do
      let fused ← interleaveQkv (← q.grid) (← k.grid) (← v.grid) config
      some (some (Tensor.matrix fused))
    | none, none, none, none => some none
    | _, _, _, _ => none
  let mappedState := match qkvWeight with
    | some weight => mappedState.set layer.qkvWeightKey weight
    | none => mappedState
  let fc1Weight ← combineOrShardWeightParts (pending .fc1) [pending .gate, pending .up]
    (modelState.get layer.fc1WeightKey) tpRank
  return match fc1Weight with
    | some weight => mappedState.set layer.fc1WeightKey weight
    | none => mappedState

def mapLayerHfWeight (layerKey : List Char) (hfWeight : Tensor α) (layer : EagleLayerLayout)
    (st : ImportState α) : Option (ImportState α) :=
  match LayerPart.ofKey layerKey with
  | some .qkvProj => some (st.setPending layer.layerIndex .qkv hfWeight)
  | some .qProj => some (st.setPending layer.layerIndex .q hfWeight)
  | some .kProj => some (st.setPending layer.layerIndex .k hfWeight)
  | some .vProj => some (st.setPending layer.layerIndex .v hfWeight)
  | some .oProj => some (st.setMapped layer.projWeightKey hfWeight)
  | some .gateUpProj => some (st.setPending layer.layerIndex .fc1 hfWeight)
  | some .gateProj => some (st.setPending layer.layerIndex .gate hfWeight)
  | some .upProj => some (st.setPending layer.layerIndex .up hfWeight)
  | some .downProj => some (st.setMapped layer.fc2WeightKey hfWeight)
  | some .hiddenNorm => some (st.assignOptional layer.hiddenNormKey hfWeight)
  | some .inputLayernorm => some (st.assignOptional layer.inputLayernormKey hfWeight)
  | some .postAttentionLayernorm =>
    some (st.assignOptional layer.postAttentionLayernormKey hfWeight)
  | none => none

def EagleModelLayout.layerByIndex (layout : EagleModelLayout) (index : ℕ) :
    Option EagleLayerLayout := layout.layers.find? (·.layerIndex = index)

def mapHfWeight (modelState : StateDict α) (layout : EagleModelLayout) (st : ImportState α)
    (entry : List Char × Tensor α) : Option (ImportState α) :=
  match HfName.ofKey entry.1 with
  | .fc => some (st.setMapped .fc entry.2)
  | .norm => layout.finalNormKey.map fun name ↦ st.setMapped name entry.2
  | .lmHead => layout.lmHeadKey.map fun name ↦ st.setMapped name entry.2
  | .d2t => some (if (modelState.get .d2t).isSome then st.setMapped .d2t entry.2 else st)
  | .other => some st
  | .layer index layerKey => do
    let layer ← layout.layerByIndex index
    mapLayerHfWeight layerKey entry.2 layer st

def splitAxisByParameter (layout : EagleModelLayout) : Dict ParameterName ℕ :=
  (.fc, 0) :: (layout.lmHeadKey.toList.map fun name ↦ (name, 0)) ++
    layout.layers.flatMap fun layer ↦
      [(layer.qkvWeightKey, 0), (layer.projWeightKey, 1), (layer.fc1WeightKey, 0),
        (layer.fc2WeightKey, 1)]

def shardToLocalTp (layout : EagleModelLayout) (modelState : StateDict α) (tpRank : ℕ)
    (parameterName : ParameterName) (tensor : Tensor α) : Option (Tensor α) :=
  match modelState.get parameterName with
  | none => some tensor
  | some target =>
    if tensor.shape = target.shape then some tensor
    else do
      let splitAxis ← (splitAxisByParameter layout).get parameterName
      let fullDim ← tensor.shape[splitAxis]?
      let localDim ← target.shape[splitAxis]?
      let inferredTp ← inferTp fullDim localDim tpRank
      let localShard ← tensor.chunk inferredTp splitAxis tpRank
      if localShard.shape ≠ target.shape then none else some localShard

def mapHfStateToEagleState (hfStateDict : Dict (List Char) (Tensor α)) (modelState : StateDict α)
    (layout : EagleModelLayout) (tpRank : ℕ) (config : TransformerConfig) :
    Option (StateDict α) := do
  let st ← hfStateDict.foldlM (mapHfWeight modelState layout) ⟨[], []⟩
  let mappedState ← layout.layers.foldlM (fun mappedState layer ↦
    applyTo (fun field ↦ st.pendingWeights.get (layer.layerIndex, field)) mappedState layer
      modelState tpRank config) st.mappedState
  if mappedState = [] then none
  else Dict.mapValues (shardToLocalTp layout modelState tpRank) mappedState

def loadStateDict (modelState newState : StateDict α) : StateDict α :=
  modelState.map fun item ↦ (item.1, (newState.get item.1).getD item.2)

def loadHfWeightsToEagle (hfStateDict : Dict (List Char) (Tensor α)) (modelState : StateDict α)
    (tpRank : ℕ) (config : TransformerConfig) : Option (StateDict α) := do
  let layout ← EagleModelLayout.detect (modelState.map Prod.fst)
  let newState ← mapHfStateToEagleState hfStateDict modelState layout tpRank config
  return loadStateDict modelState newState

end Import

section Export

abbrev RankStates (α : Type) := List (StateDict α)

def requireStateTensor (ranks : RankStates α) (rank : ℕ) (name : ParameterName) :
    Option (Tensor α) := ranks[rank]? >>= fun state ↦ state.get name

/-- `_all_gather_tp_shards`: the group holds one parameter of every rank. -/
def allGatherTpShards (ranks : RankStates α) (name : ParameterName) : Option (List (Grid α)) :=
  ranks.mapM fun state ↦ state.get name >>= Tensor.grid

def gatherTpQkvWeight (ranks : RankStates α) (name : ParameterName)
    (config : TransformerConfig) : Option (Grid α × Grid α × Grid α) := do
  let shards ← allGatherTpShards ranks name
  let fullFused ← Grid.vcat shards
  deinterleaveQkv fullFused config

def splitInTwo (shard : Grid α) (size : ℕ) : Option (Grid α × Grid α) :=
  if shard.rows.length = size + size then
    some (shard.rowSlice 0 size, shard.rowSlice size (size + size))
  else none

def gatherTpGateUpWeight (ranks : RankStates α) (name : ParameterName) (ffnHiddenSize : ℕ) :
    Option (Grid α × Grid α) := do
  let shards ← allGatherTpShards ranks name
  let tpWorldSize := shards.length
  if ffnHiddenSize % tpWorldSize ≠ 0 then none
  else
    -- a single shard is split at `ffn_hidden_size` on either path
    let parts ← shards.mapM fun shard ↦ splitInTwo shard (ffnHiddenSize / tpWorldSize)
    let gate ← Grid.vcat (parts.map Prod.fst)
    let up ← Grid.vcat (parts.map Prod.snd)
    return (gate, up)

def gatherTpWeightIfNeeded (ranks : RankStates α) (rank : ℕ) (name : ParameterName)
    (expectedShape : List ℕ) (splitAxis : ℕ) : Option (Tensor α) := do
  let localWeight ← requireStateTensor ranks rank name
  if localWeight.shape = expectedShape then some localWeight
  else
    let shards ← allGatherTpShards ranks name
    if shards.length = 1 then some localWeight
    else if splitAxis = 0 then (Grid.vcat shards).map .matrix
    else (Grid.hcat shards).map .matrix

def optionalItem (ranks : RankStates α) (rank : ℕ) (key : Option ParameterName)
    (hfKey : List Char) : Option (List (List Char × Tensor α)) :=
  match key with
  | none => some []
  | some name => (requireStateTensor ranks rank name).map fun weight ↦ [(hfKey, weight)]

def exportLayerWeightsToHf (ranks : RankStates α) (rank : ℕ) (layer : EagleLayerLayout)
    (config : TransformerConfig) : Option (List (List Char × Tensor α)) := do
  let key (part : LayerPart) := layer.checkpointPrefix ++ '.' :: part.key.toList
  let hiddenNorm ← optionalItem ranks rank layer.hiddenNormKey (key .hiddenNorm)
  let inputLayernorm ← optionalItem ranks rank layer.inputLayernormKey (key .inputLayernorm)
  let (q, k, v) ← gatherTpQkvWeight ranks layer.qkvWeightKey config
  let o ← gatherTpWeightIfNeeded ranks rank layer.projWeightKey
    [config.hiddenSize, config.hiddenSize] 1
  let postAttention ← optionalItem ranks rank layer.postAttentionLayernormKey
    (key .postAttentionLayernorm)
  let (gate, up) ← gatherTpGateUpWeight ranks layer.fc1WeightKey config.ffnHiddenSize
  let down ← gatherTpWeightIfNeeded ranks rank layer.fc2WeightKey
    [config.hiddenSize, config.ffnHiddenSize] 1
  return hiddenNorm ++ inputLayernorm ++
    [(key .qProj, .matrix q), (key .kProj, .matrix k), (key .vProj, .matrix v), (key .oProj, o)] ++
    postAttention ++
    [(key .gateProj, .matrix gate), (key .upProj, .matrix up), (key .downProj, down)]

def exportEagleWeightsToHf (ranks : RankStates α) (rank : ℕ) (config : TransformerConfig) :
    Option (List (List Char × Tensor α)) := do
  let sourceState ← ranks[rank]?
  let layout ← EagleModelLayout.detect (sourceState.map Prod.fst)
  let fcWeight ← gatherTpWeightIfNeeded ranks rank .fc
    [config.hiddenSize, config.hiddenSize * config.numAuxHiddenStates] 0
  let layers ← layout.layers.mapM fun layer ↦ exportLayerWeightsToHf ranks rank layer config
  let norm ← optionalItem ranks rank layout.finalNormKey "norm.weight".toList
  let lmHead ← match layout.lmHeadKey with
    | none => some []
    | some name => (gatherTpWeightIfNeeded ranks rank name
        [config.draftVocabSize, config.hiddenSize] 0).map fun weight ↦
          [("lm_head.weight".toList, weight)]
  let d2t := match sourceState.get .d2t with
    | none => []
    | some weight => [("d2t".toList, weight)]
  return ("fc.weight".toList, fcWeight) :: layers.flatten ++ norm ++ lmHead ++ d2t

end Export

end NemoRL.Models.Draft
