import Mathlib
import NemoRL.Foundations.Words
import NemoRL.Utils.Dtype

namespace NemoRL.Utils.SparseCodec

open Foundations.Words

inductive SparseOperation
  | xor
  | overwrite
  deriving DecidableEq, Repr

structure Values (α : Type) where
  dtype : Dtype
  data : List α

structure SparseInfo (α : Type) where
  name : String
  shape : List ℕ
  dtype : Dtype
  locations : List ℕ
  values : Values α
  operation : SparseOperation

inductive IndexEncoding
  | range (start : ℕ)
  | deltas
  deriving DecidableEq, Repr

structure SparseItem where
  name : String
  shape : List ℕ
  dtype : String
  operation : SparseOperation
  indexStart : ℕ
  indexEnd : ℕ
  valueGroup : ℕ
  valueStart : ℕ
  valueEnd : ℕ
  encoding : IndexEncoding
  verificationSamples : Option ℕ
  deriving DecidableEq, Repr

structure TensorPayload (α : Type) where
  indices : List UInt8
  values : List (Values α)
  metadata : List SparseItem

/-- A value group is made with its first part, so it is never empty. -/
structure TensorPayloadBuilder (α : Type) where
  locations : List (List UInt8)
  valueParts : List (Values α × List (Values α))
  valueGroupByDtype : Dtype → Option ℕ
  valueOffsets : List ℕ
  metadata : List SparseItem
  indexOffset : ℕ

variable {α : Type}

def TensorPayloadBuilder.empty : TensorPayloadBuilder α := ⟨[], [], fun _ ↦ none, [], [], 0⟩

def TensorPayloadBuilder.addLocations (b : TensorPayloadBuilder α) (locations : List UInt8) :
    TensorPayloadBuilder α × ℕ × ℕ :=
  let start := b.indexOffset
  if locations.length ≠ 0 then
    ({ b with
        locations := b.locations ++ [locations]
        indexOffset := b.indexOffset + locations.length }, start,
      b.indexOffset + locations.length)
  else (b, start, b.indexOffset)

def TensorPayloadBuilder.addValues (b : TensorPayloadBuilder α) (values : Values α) :
    TensorPayloadBuilder α × ℕ × ℕ × ℕ :=
  match b.valueGroupByDtype values.dtype with
  | none =>
    let group := b.valueParts.length
    ({ b with
        valueGroupByDtype := Function.update b.valueGroupByDtype values.dtype (some group)
        valueParts := b.valueParts ++ [(values, [])]
        valueOffsets := b.valueOffsets ++ [values.data.length] }, group, 0, values.data.length)
  | some group =>
    let start := b.valueOffsets.getD group 0
    ({ b with
        valueParts := b.valueParts.modify group fun parts ↦ (parts.1, parts.2 ++ [values])
        valueOffsets := b.valueOffsets.modify group (· + values.data.length) }, group, start,
      start + values.data.length)

def cat (parts : Values α × List (Values α)) : Values α :=
  ⟨parts.1.dtype, parts.1.data ++ parts.2.flatMap Values.data⟩

def TensorPayloadBuilder.finish (b : TensorPayloadBuilder α) : TensorPayload α :=
  ⟨b.locations.flatten, b.valueParts.map cat, b.metadata⟩

/-- The differences of the locations, less one, in the given integer arithmetic. -/
def locationDeltas (wrap : ℤ → ℤ) : ℤ → List ℕ → List ℤ
  | _, [] => []
  | previous, location :: rest =>
    wrap (wrap (location - previous) - 1) :: locationDeltas wrap location rest

def deltaWidth (deltas : List ℤ) : ℕ :=
  let maxDelta := deltas.foldl max (deltas.headD 0)
  if maxDelta ≤ 0xFFFF then 2 else if maxDelta ≤ 0xFFFFFFFF then 4 else 8

def encodeExplicitLocations (locations : List ℕ) : List UInt8 :=
  let deltas := locationDeltas (wrap 64) (-1) locations
  deltas.flatMap fun delta : ℤ ↦
    split (deltaWidth deltas) (delta % 256 ^ deltaWidth deltas).toNat

/-- One round of `encode_sparse_infos`; nothing where an empty tensor is indexed. -/
def encodeSparseInfo (b : TensorPayloadBuilder α) (info : SparseInfo α) :
    Option (TensorPayloadBuilder α) :=
  match info.locations with
  | [] => none
  | first :: rest =>
    let count := info.values.data.length
    let span := wrap 64 (wrap 64 (((first :: rest).getLastD 0 : ℕ) - first) + 1)
    let located :=
      if count = 1 ∨ span = count then (b, b.indexOffset, b.indexOffset, IndexEncoding.range first)
      else
        let added := b.addLocations (encodeExplicitLocations info.locations)
        (added.1, added.2.1, added.2.2, .deltas)
    let (b, indexStart, indexEnd, encoding) := located
    let (b, valueGroup, valueStart, valueEnd) := b.addValues info.values
    some { b with
      metadata := b.metadata ++ [⟨info.name, info.shape, info.dtype.name, info.operation,
        indexStart, indexEnd, valueGroup, valueStart, valueEnd, encoding, none⟩] }

def encodeSparseInfos (infos : List (SparseInfo α)) : Option (TensorPayload α) :=
  (infos.foldlM encodeSparseInfo TensorPayloadBuilder.empty).map TensorPayloadBuilder.finish

/-- The items of a payload moved to where its parts went; nothing where a group is unknown. -/
def remapItem (groups : List (ℕ × ℕ)) (indexOffset : ℕ) (item : SparseItem) : Option SparseItem :=
  (groups[item.valueGroup]?).map fun (newGroup, start) ↦
    { item with
      indexStart := item.indexStart + indexOffset
      indexEnd := item.indexEnd + indexOffset
      valueGroup := newGroup
      valueStart := item.valueStart + start
      valueEnd := item.valueEnd + start }

def addGroup (s : TensorPayloadBuilder α × List (ℕ × ℕ)) (values : Values α) :
    TensorPayloadBuilder α × List (ℕ × ℕ) :=
  let added := s.1.addValues values
  (added.1, s.2 ++ [(added.2.1, added.2.2.1)])

def mergePayload (b : TensorPayloadBuilder α) (payload : TensorPayload α) :
    Option (TensorPayloadBuilder α) := do
  let (b, groups) := payload.values.foldl addGroup (b, [])
  let (b, indexOffset, _) := b.addLocations payload.indices
  let items ← payload.metadata.mapM (remapItem groups indexOffset)
  return { b with metadata := b.metadata ++ items }

def mergeSparsePayloads (payloads : List (TensorPayload α)) : Option (TensorPayload α) :=
  (payloads.foldlM mergePayload TensorPayloadBuilder.empty).map TensorPayloadBuilder.finish

inductive LocationDtype
  | int32
  | int64
  deriving DecidableEq, Repr

def LocationDtype.bits : LocationDtype → ℕ
  | int32 => 32
  | int64 => 64

def LocationDtype.max (dt : LocationDtype) : ℕ := 2 ^ (dt.bits - 1) - 1

def cumsum (wrap : ℤ → ℤ) : ℤ → List ℤ → List ℤ
  | _, [] => []
  | s, x :: rest => wrap (s + x) :: cumsum wrap (wrap (s + x)) rest

/-- The arrays the decoding of the gaps goes through. -/
structure DecodeSteps where
  widened : List ℤ
  incremented : List ℤ
  summed : List ℤ
  locations : List ℤ
  deriving DecidableEq

def decodeSteps (wrap : ℤ → ℤ) (gaps : List ℕ) : DecodeSteps :=
  let widened := gaps.map fun gap : ℕ ↦ wrap gap
  let incremented := widened.map fun x ↦ wrap (x + 1)
  let summed := cumsum wrap 0 incremented
  ⟨widened, incremented, summed, summed.map fun x ↦ wrap (x - 1)⟩

/-- The gaps stored for an item, their width told by the bytes there are for each value. -/
def storedGaps (packedLocations : List UInt8) (item : SparseItem) : Option (List ℕ) :=
  let count := item.valueEnd - item.valueStart
  let raw := (packedLocations.take item.indexEnd).drop item.indexStart
  if count = 0 then none
  else
    let width := raw.length / count
    if width = 2 ∨ width = 4 ∨ width = 8 then
      if raw.length % width = 0 then some (words width (raw.length / width) raw) else none
    else none

def sparseLocationsForItem (dt : LocationDtype) (packedLocations : List UInt8)
    (item : SparseItem) : Option (List ℤ) :=
  match item.encoding with
  | .range start =>
    some ((List.range (item.valueEnd - item.valueStart)).map fun i ↦
      wrap dt.bits (start + i : ℕ))
  | .deltas =>
    (storedGaps packedLocations item).map fun gaps ↦ (decodeSteps (wrap dt.bits) gaps).locations

def valueSlice (values : List (Values α)) (item : SparseItem) : Option (Values α) :=
  (values[item.valueGroup]?).map fun group ↦
    { group with data := (group.data.take item.valueEnd).drop item.valueStart }

def locationDtype (shape : List ℕ) : LocationDtype :=
  if shape.prod ≤ LocationDtype.max .int32 then .int32 else .int64

def iterSparsePayload (skippedNames : List String) (payload : TensorPayload α) :
    Option (List (SparseItem × List ℤ × Values α)) :=
  (payload.metadata.filter fun item ↦ item.name ∉ skippedNames).mapM fun item ↦ do
    let locations ← sparseLocationsForItem (locationDtype item.shape) payload.indices item
    let values ← valueSlice payload.values item
    return (item, locations, values)

end NemoRL.Utils.SparseCodec
