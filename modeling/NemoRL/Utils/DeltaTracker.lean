import Mathlib
import NemoRL.Foundations.KeyedStore
import NemoRL.Foundations.Patches
import NemoRL.Foundations.Positions
import NemoRL.Utils.SparseCodec

namespace NemoRL.Utils.DeltaTracker

open Foundations Foundations.Patches Foundations.Positions SparseCodec

/-- A tensor under its name, with the bit patterns of its elements. -/
structure NamedTensor where
  name : String
  dtype : Dtype
  shape : List ℕ
  bits : List ℕ
  size : bits.length = shape.prod
  fits : shape.prod < 2 ^ 63
  deriving DecidableEq

/-- The bits a baseline has yet to take over, and where they go. -/
structure PendingUpdate where
  name : String
  locations : List ℕ
  values : List ℕ
  deriving DecidableEq

structure TrackerConfig where
  encoding : SparseOperation
  overwriteNames : List String
  verificationSamples : ℕ

/-- The tracker of one producer. `executor` holds the commits under way, which the next
comparison waits for. -/
structure DeltaCompressionTracker where
  baseline : KeyedStore String (List ℕ)
  pendingUpdates : List PendingUpdate
  executor : List (List PendingUpdate)

def DeltaCompressionTracker.empty : DeltaCompressionTracker := ⟨.empty, [], []⟩

def setPending (pending : List PendingUpdate) (u : PendingUpdate) : List PendingUpdate :=
  if u.name ∈ pending.map PendingUpdate.name then
    pending.map fun v ↦ if v.name = u.name then u else v
  else pending ++ [u]

def operationOf (cfg : TrackerConfig) (name : String) : SparseOperation :=
  if name ∈ cfg.overwriteNames then .overwrite else cfg.encoding

def sentValue (operation : SparseOperation) (baseline current : List ℕ) (i : ℕ) : ℕ :=
  match operation with
  | .xor => current.getD i 0 ^^^ baseline.getD i 0
  | .overwrite => current.getD i 0

def delta (cfg : TrackerConfig) (baseline : List ℕ) (tensor : NamedTensor) :
    Option (SparseInfo ℕ × PendingUpdate) := do
  let integer ← integerDtypeForElementSize tensor.dtype.itemsize
  let locations := changed baseline tensor.bits
  let operation := operationOf cfg tensor.name
  return (⟨tensor.name, tensor.shape, tensor.dtype, locations,
      ⟨integer, locations.map (sentValue operation baseline tensor.bits)⟩, operation⟩,
    ⟨tensor.name, locations, locations.map (tensor.bits.getD · 0)⟩)

def verificationSamples (samples : ℕ) (metadata : List SparseItem) : List SparseItem :=
  let sizes := metadata.map fun item ↦ item.valueEnd - item.valueStart
  let total := sizes.sum
  let count := min samples total
  let ranks := (List.range count).map fun index ↦ (2 * index + 1) * total / (2 * count)
  (metadata.zip (sizes.scanl (· + ·) 0)).map fun (item, offset) ↦
    let size := item.valueEnd - item.valueStart
    match (ranks.filter fun rank ↦ offset ≤ rank ∧ rank < offset + size).length with
    | 0 => item
    | n => { item with verificationSamples := some n }

def deltas (cfg : TrackerConfig) (t : DeltaCompressionTracker) (tensors : List NamedTensor) :
    Option (List (SparseInfo ℕ × PendingUpdate)) := do
  let all ← tensors.mapM fun tensor ↦ do
    let baseline ← t.baseline tensor.name
    if baseline.length = tensor.bits.length then delta cfg baseline tensor else none
  return all.filter fun d ↦ d.1.locations ≠ []

def prepareSparseDeltaPayload (cfg : TrackerConfig) (t : DeltaCompressionTracker)
    (tensors : List NamedTensor) :
    Option (DeltaCompressionTracker × TensorPayload ℕ × ℕ × ℕ) := do
  -- The commits of the last success are waited for.
  if t.executor ≠ [] then none
  else
    let ds ← deltas cfg t tensors
    let payload ← encodeSparseInfos (ds.map Prod.fst)
    let payload := if cfg.verificationSamples ≠ 0 then
      { payload with metadata := verificationSamples cfg.verificationSamples payload.metadata }
    else payload
    return ({ t with pendingUpdates := (ds.map Prod.snd).foldl setPending t.pendingUpdates }, payload,
      (ds.map fun d ↦ d.1.locations.length).sum, (tensors.map fun tensor ↦ tensor.bits.length).sum)

end NemoRL.Utils.DeltaTracker
