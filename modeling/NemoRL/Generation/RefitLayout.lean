import Mathlib
import NemoRL.Foundations.Boxes
import NemoRL.Foundations.Classes
import NemoRL.Foundations.Overlays
import NemoRL.Foundations.Tensors
import NemoRL.XToken.CanonicalToken

namespace NemoRL.Generation.ExpertRefit

open Foundations Foundations.Boxes Foundations.Overlays

section Names

inductive ShardId
  | w1 | w2 | w3
  deriving DecidableEq

@[ext] structure HfExpertWeight where
  parameterName : List Char
  expertId : ℕ
  shardId : ShardId
  tpShardDim : ℕ
  deriving DecidableEq

def hfProjectionShards : List (List Char × ShardId) :=
  [("gate_proj".toList, .w1), ("up_proj".toList, .w3), ("down_proj".toList, .w2)]

def digitsValue (digits : List Char) : Option ℕ :=
  if digits = [] then none
  else (digits.mapM XToken.TokenAligner.decimalDigit).map fun values ↦
    values.foldl (fun n d ↦ 10 * n + d.toNat) 0

/-- The weight that a parameter of the checkpoint is a part of. A name is read from its end,
where a line break is ignored; the start of it is not empty and has no line break. -/
def parseHfExpertWeight (name : List Char) : Option HfExpertWeight :=
  let body := if name.getLast? = some '\n' then name.dropLast else name
  match (body.splitOn '.').reverse with
  | weight :: projection :: digits :: experts :: mlp :: outer =>
    let start := ['.'].intercalate outer.reverse
    if weight = "weight".toList ∧ experts = "experts".toList ∧ mlp = "mlp".toList ∧
        start ≠ [] ∧ '\n' ∉ start then
      (hfProjectionShards.lookup projection).bind fun shardId ↦
        (digitsValue digits).map fun expertId ↦
          { parameterName := start ++ ".mlp.experts.routed_experts.".toList ++
              (if shardId = .w2 then "w2_weight" else "w13_weight").toList
            expertId := expertId
            shardId := shardId
            tpShardDim := if shardId = .w2 then 1 else 0 }
    else none
  | _ => none

def hfExpertName (start : List Char) (expertId : ℕ) (projection : List Char) : List Char :=
  start ++ ".mlp.experts.".toList ++ Nat.toDigits 10 expertId ++ '.' :: projection ++
    ".weight".toList

end Names

/-- A tensor, by its entries within its shape. -/
structure Dense (δ ν : Type) where
  dtype : δ
  shape : List ℕ
  data : List ℕ → ν

inductive RefitError
  | fp8Model
  | transposed (name : List Char)
  | loaderNotInspectable (name : List Char)
  | unsupportedStorage (name : List Char) (shape : List ℕ)
  | unsupportedBackend (name : List Char) (backendName : Option (List Char))
  | expertLoadBalancing
  | noOwnershipMap (name : List Char)
  | redundantExperts
  | notRoutedExperts (names : List (List Char))
  | notDivisible (name : List Char) (dim size tpSize : ℕ)
  | loaderNotResolved (name : List Char)
  | unsupportedRanks (name : List Char) (parameter tensor : ℕ)
  | unexpectedShape (name : List Char) (shape expected full : List ℕ) (tpSize : ℕ)
  /-- An exception of Python or of the tensor library. -/
  | raised
  deriving DecidableEq

/-- The layer of experts that the loader of a parameter is a method of. -/
structure Owner where
  hasQuantConfig : Bool
  backendName : Option (List Char)
  useEp : Bool
  enableEplb : Bool
  expertMap : Option (List ℤ)
  numLogicalExperts : Option ℕ
  globalNumExperts : Option ℕ
  tpRank : ℕ
  tpSize : ℕ
  mapGlobalExpertIdToLocalExpertId : Option (ℕ → ℤ)

/-- A parameter without its entries, which are in the memory. -/
structure Param (δ : Type) where
  dtype : δ
  shape : List ℕ
  isTransposed : Bool
  owner : Option Owner

structure Worker (δ : Type) where
  isFp8Model : Bool
  namedParameters : Dict (List Char) (Param δ)
  /-- `get_pp_missing_layer_names` of the model. -/
  missingLayerNames : List (List Char)
  stateDictInfo : Option (Dict (List Char) (List ℕ × δ))

structure ExpertParamLayout where
  tpRank : ℕ
  tpSize : ℕ
  localExpertIds : Option (List ℕ)
  deriving DecidableEq

structure WeightLayout where
  expertParams : Dict (List Char) ExpertParamLayout
  missingWeightPrefixes : List (List Char)
  deriving DecidableEq

variable {δ ν : Type}

section Layout

def isExpertParameter (name : List Char) : Bool :=
  ".w13_weight".toList.isSuffixOf name || ".w2_weight".toList.isSuffixOf name

def validateExpertStorage (name : List Char) (param : Param δ) : Except RefitError Unit :=
  if param.shape.length ≠ 3 ∨
      (".w13_weight".toList.isSuffixOf name ∧ param.shape.getD 1 0 % 2 ≠ 0) then
    .error (.unsupportedStorage name param.shape)
  else .ok ()

def localExpertIds (expertMap : List ℤ) : List ℕ :=
  (expertMap.zipIdx.filter fun x ↦ 0 ≤ x.1).map Prod.snd

def Owner.expertIds (owner : Owner) (name : List Char) : Except RefitError (Option (List ℕ)) :=
  if ¬ owner.useEp then .ok none
  else if owner.enableEplb then .error .expertLoadBalancing
  else match owner.expertMap with
    | none => .error (.noOwnershipMap name)
    | some expertMap =>
      let logicalNumExperts := owner.numLogicalExperts.getD expertMap.length
      let globalNumExperts := owner.globalNumExperts.getD logicalNumExperts
      if globalNumExperts ≠ logicalNumExperts then .error .redundantExperts
      else .ok (some (localExpertIds (expertMap.take logicalNumExperts)))

def paramLayout (name : List Char) (param : Param δ) : Except RefitError ExpertParamLayout :=
  if param.isTransposed then .error (.transposed name)
  else match param.owner with
    | none => .error (.loaderNotInspectable name)
    | some owner => do
      validateExpertStorage name param
      if owner.hasQuantConfig ∨
          owner.backendName ∉ [some "TRITON".toList, some "BATCHED_TRITON".toList] then
        throw (.unsupportedBackend name owner.backendName)
      let expertIds ← owner.expertIds name
      return ⟨owner.tpRank, owner.tpSize, expertIds⟩

def checkpointEngineWeightLayout (W : Worker δ) : Except RefitError WeightLayout := do
  let expertParams ← (W.namedParameters.filter fun item ↦ isExpertParameter item.1).mapM
    fun item ↦ (paramLayout item.1 item.2).map fun layout ↦ (item.1, layout)
  if ∀ item ∈ expertParams, ".routed_experts.".toList <:+: item.1 then
    return ⟨expertParams, W.missingLayerNames⟩
  else throw (.notRoutedExperts ((expertParams.map Prod.fst).mergeSort.take 3))

end Layout

section Selection

def Dense.narrow (t : Dense δ ν) (dim start length : ℕ) : Option (Dense δ ν) :=
  if dim < t.shape.length ∧ start + length ≤ t.shape.getD dim 0 then
    some { t with shape := t.shape.set dim length, data := fun i ↦ t.data (i.modify dim (· + start)) }
  else none

def selectHfWeightForVllmTarget (targetLayout : WeightLayout) (name : List Char)
    (tensor : Dense δ ν) : Except RefitError (Option (Dense δ ν)) :=
  if targetLayout.missingWeightPrefixes.any (·.isPrefixOf name) then .ok none
  else match parseHfExpertWeight name with
    | none => .ok (some tensor)
    | some expertWeight =>
      match Dict.get targetLayout.expertParams expertWeight.parameterName with
      | none => .ok none
      | some paramLayout =>
        if paramLayout.localExpertIds.any (expertWeight.expertId ∉ ·) then .ok none
        else
          let tpSize := paramLayout.tpSize
          let shardDim := expertWeight.tpShardDim
          if tpSize = 1 then .ok (some tensor)
          else match tensor.shape[shardDim]? with
            | none => .error .raised
            | some size =>
              if tpSize = 0 then .error .raised
              else if size % tpSize ≠ 0 then .error (.notDivisible name shardDim size tpSize)
              else
                let shardSize := size / tpSize
                match tensor.narrow shardDim (paramLayout.tpRank * shardSize) shardSize with
                | none => .error .raised
                | some shard => .ok (some shard)

def selectedWeights (targetLayout : WeightLayout) (weights : List (List Char × Dense δ ν)) :
    Except RefitError (List (List Char × Dense δ ν)) :=
  (weights.mapM fun w ↦ (selectHfWeightForVllmTarget targetLayout w.1 w.2).map
    (·.map fun t ↦ (w.1, t))).map (·.reduceOption)

end Selection

end NemoRL.Generation.ExpertRefit
