import Mathlib
import NemoRL.Generation.RefitLayout

namespace NemoRL.Generation.ExpertRefit

open Foundations Foundations.Boxes Foundations.Overlays Foundations.Tensors

variable {δ ν : Type} [Zero ν]

abbrev Memory (ν : Type) := List Char × List ℕ → ν

section Views

/-- A view of a parameter: the indices that are fixed, and the box of the others. -/
structure View where
  lead : List ℕ
  box : Box

def View.whole (shape : List ℕ) : View := ⟨[], shape.map (0, ·)⟩

def fromStart (start : ℤ) (size : ℕ) : ℤ := if start < 0 then start + size else start

def View.narrow (v : View) (dim : ℕ) (start : ℤ) (length : ℕ) : Option View :=
  v.box[dim]?.bind fun iv ↦
    let start := fromStart start (iv.2 - iv.1)
    if 0 ≤ start ∧ start + length ≤ (iv.2 - iv.1 : ℕ) then
      some { v with box := v.box.set dim (iv.1 + start.toNat, iv.1 + start.toNat + length) }
    else none

def View.select (v : View) (index : ℤ) : Option View :=
  match v.box with
  | [] => none
  | iv :: box =>
    let index := fromStart index (iv.2 - iv.1)
    if 0 ≤ index ∧ index < (iv.2 - iv.1 : ℕ) then some ⟨v.lead ++ [iv.1 + index.toNat], box⟩
    else none

variable (E : ElementTypes δ ν)

def stack : List (Dense δ ν) → Option (Dense δ ν)
  | [] => none
  | t :: ts =>
    if ∀ u ∈ ts, u.shape = t.shape then
      let dtype := E.resultType ((t :: ts).map (·.dtype))
      some ⟨dtype, (t :: ts).length :: t.shape, fun index ↦
        match index with
        | [] => 0
        | k :: index => match (t :: ts)[k]? with
          | none => 0
          | some u => E.cast u.dtype dtype (u.data index)⟩
    else none

def copyToTarget (name : List Char) (param : Param δ) (destination : View)
    (source : Dense δ ν) : Option (Write (List Char × List ℕ) ν) :=
  (source.shape.zipIdx.foldlM (fun (v : View) x ↦ v.narrow x.2 0 x.1) destination).bind fun v ↦
    if v.box.length = source.shape.length then
      some fun cell ↦
        let index := cell.2.drop v.lead.length
        if cell.1 = name ∧ v.lead <+: cell.2 ∧ InBox v.box index then
          some (E.cast source.dtype param.dtype (source.data (toLocal v.box index)))
        else none
    else none

def targetView (shape : List ℕ) (shardId : ShardId) : Option View :=
  let target := View.whole shape
  let shardSize := shape.getD 1 0 / 2
  match shardId with
  | .w1 => target.narrow 1 0 shardSize
  | .w3 => target.narrow 1 shardSize shardSize
  | .w2 => some target

/-- Experts whose numbers follow each other are stacked and copied at once, others one by one. -/
def loadDestinationLocalExpertGroup (name : List Char) (param : Param δ) (shardId : ShardId)
    (items : List (ℤ × Dense δ ν)) (m : Memory ν) : Option (Memory ν) := do
  let target ← targetView param.shape shardId
  let sortedItems := Classes.sortBy Prod.fst items
  let expertIds := sortedItems.map Prod.fst
  let first ← expertIds.head?
  if expertIds = (List.range expertIds.length).map fun i : ℕ ↦ first + i then
    let expertData ← target.narrow 0 first expertIds.length
    let loadedWeight ← stack E (sortedItems.map Prod.snd)
    let w ← copyToTarget E name param expertData loadedWeight
    return apply m w
  else
    sortedItems.foldlM (fun m item ↦ do
      let destination ← target.select item.1
      let w ← copyToTarget E name param destination item.2
      return apply m w) m

end Views

section Groups

variable (W : Worker δ)

def isShardedRefitWeight (name : List Char) (tensor : Dense δ ν) : Bool :=
  match parseHfExpertWeight name, W.stateDictInfo.bind (Dict.get · name) with
  | some _, some info => info.1 ≠ tensor.shape
  | _, _ => false

def Owner.localExpertId (owner : Owner) (expertId : ℕ) : ℤ :=
  (owner.mapGlobalExpertIdToLocalExpertId.map (· expertId)).getD expertId

inductive Destined
  | remaining
  | absent
  | placed (name : List Char) (shardId : ShardId) (localExpertId : ℤ)

def destined (name : List Char) (tensor : Dense δ ν) : Except RefitError Destined :=
  match parseHfExpertWeight name with
  | none => .ok .remaining
  | some expertWeight =>
    let mappedName := expertWeight.parameterName
    match Dict.get W.namedParameters mappedName with
    | none => .ok .remaining
    | some param =>
      if isShardedRefitWeight W name tensor = false ∧ param.owner.any (·.useEp) = false then
        .ok .remaining
      else match param.owner with
        | none => .error (.loaderNotResolved mappedName)
        | some owner =>
          if param.shape.length ≠ 3 ∨ tensor.shape.length ≠ 2 then
            .error (.unsupportedRanks name param.shape.length tensor.shape.length)
          else match W.stateDictInfo.bind (Dict.get · name) with
            | none => .error .raised
            | some info =>
              let shardDim := expertWeight.tpShardDim
              if owner.tpSize = 0 ∨ info.1.length ≤ shardDim then .error .raised
              else
                let expectedShape := info.1.modify shardDim (· / owner.tpSize)
                if tensor.shape ≠ expectedShape then
                  .error (.unexpectedShape name tensor.shape expectedShape info.1 owner.tpSize)
                else
                  let localExpertId := owner.localExpertId expertWeight.expertId
                  if localExpertId = -1 then .ok .absent
                  else .ok (.placed mappedName expertWeight.shardId localExpertId)

structure Placed (δ ν : Type) where
  name : List Char
  shardId : ShardId
  localExpertId : ℤ
  tensor : Dense δ ν

def Destined.toPlaced (d : Destined) (tensor : Dense δ ν) : Option (Placed δ ν) :=
  match d with
  | .placed name shardId localExpertId => some ⟨name, shardId, localExpertId, tensor⟩
  | _ => none

def Destined.isRemaining : Destined → Bool
  | .remaining => true
  | _ => false

variable (E : ElementTypes δ ν)

def loadGroup (m : Memory ν) (group : (List Char × ShardId) × List (Placed δ ν)) :
    Option (Memory ν) :=
  (Dict.get W.namedParameters group.1.1).bind fun param ↦
    loadDestinationLocalExpertGroup E group.1.1 param group.1.2
      (group.2.map fun x ↦ (x.localExpertId, x.tensor)) m

/-- The memory after a batch, and the weights that are not loaded. -/
def loadShardedExpertWeightGroups (m : Memory ν) (weights : List (List Char × Dense δ ν)) :
    Except RefitError (Memory ν × List (List Char × Dense δ ν)) := do
  let fates ← weights.mapM fun w ↦ (destined W w.1 w.2).map fun d ↦ (w, d)
  let placed := fates.filterMap fun x ↦ x.2.toPlaced x.1.2
  let groups := Classes.groupBy (fun x ↦ (x.name, x.shardId)) placed
  match groups.foldlM (loadGroup W E) m with
  | none => throw .raised
  | some m => return (m, (fates.filter (·.2.isRemaining)).map Prod.fst)

/-- The memory after a batch, and what is left to the loader of the model. -/
def loadShardedExpertWeights (m : Memory ν) (policyWeights : List (List Char × Dense δ ν)) :
    Except RefitError (Memory ν × List (List Char × Dense δ ν)) :=
  if W.isFp8Model then .error .fp8Model else loadShardedExpertWeightGroups W E m policyWeights

def loadBatches (m : Memory ν) : List (List (List Char × Dense δ ν)) →
    Except RefitError (Memory ν × List (List (List Char × Dense δ ν)))
  | [] => .ok (m, [])
  | batch :: batches => do
    let loaded ← loadShardedExpertWeights W E m batch
    let rest ← loadBatches loaded.1 batches
    return (rest.1, loaded.2 :: rest.2)

end Groups

end NemoRL.Generation.ExpertRefit
