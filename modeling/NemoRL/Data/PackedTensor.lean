import Mathlib
import NemoRL.Foundations.TensorPacking
import NemoRL.Foundations.Interning

namespace NemoRL.Data

open Foundations Foundations.Tensors Foundations.Interning

inductive MediaError
  /-- Input tensors to PackedTensor must be a non-empty list. -/
  | emptyTensors
  /-- `_row_offsets` and `_segment_indices` must either both be set or both be None. -/
  | offsetsWithoutIndices
  | offsetsStart
  | offsetsDecrease
  | offsetsEnd
  | segmentOutOfRange
  | provenanceLength
  /-- All packed tensors must have the same `dim_to_pack`. -/
  | dimToPack
  | padToMaxShape
  /-- `flattened_concat` requires one logical row per input. -/
  | oneLogicalRow
  | listIndex
  | rowIndex (row : ℤ)
  | numRows
  | pack (e : PackError)
  deriving DecidableEq

variable {δ ν : Type} [Zero ν]

section Checks

variable (tensors : List (Option (Tensor δ ν)))

/-- The checks of the row offsets and the segment indices. -/
def rowError : Option (List ℕ) → Option (List ℕ) → Option MediaError
  | some rowOffsets, some segmentIndices =>
    if rowOffsets.head? ≠ some 0 then some .offsetsStart
    else if ∃ x ∈ rowOffsets.zip rowOffsets.tail, x.1 > x.2 then some .offsetsDecrease
    else if rowOffsets.getLast? ≠ some segmentIndices.length then some .offsetsEnd
    else if ∃ i ∈ segmentIndices, i ≥ tensors.length then some .segmentOutOfRange
    else none
  | none, none => none
  | _, _ => some .offsetsWithoutIndices

def provenanceError : Option (List ℕ) → Option MediaError
  | some segmentProvenance =>
    if segmentProvenance.length ≠ tensors.length then some .provenanceLength else none
  | none => none

def initError (rowOffsets segmentIndices segmentProvenance : Option (List ℕ)) :
    Option MediaError :=
  if tensors = [] ∧ rowOffsets = none then some .emptyTensors
  else (rowError tensors rowOffsets segmentIndices).or (provenanceError tensors segmentProvenance)

end Checks

/-- Physical segments, and which of them are in each row: each in its own where nothing is said.
A value passes the checks. -/
structure PackedTensor (δ ν : Type) [Zero ν] where
  tensors : List (Option (Tensor δ ν))
  dimToPack : ℤ
  padToMaxShape : Bool
  rowOffsets : Option (List ℕ)
  segmentIndices : Option (List ℕ)
  segmentProvenance : Option (List ℕ)
  valid : initError tensors rowOffsets segmentIndices segmentProvenance = none

namespace PackedTensor

def init (tensors : List (Option (Tensor δ ν))) (dimToPack : ℤ) (padToMaxShape : Bool)
    (rowOffsets segmentIndices segmentProvenance : Option (List ℕ)) :
    Except MediaError (PackedTensor δ ν) :=
  match h : initError tensors rowOffsets segmentIndices segmentProvenance with
  | none => .ok ⟨tensors, dimToPack, padToMaxShape, rowOffsets, segmentIndices,
      segmentProvenance, h⟩
  | some e => .error e

variable (p : PackedTensor δ ν)

def deduplicationEnabled : Bool := p.segmentProvenance.isSome

/-- Whether the value is not in the legacy representation. -/
def isCompact : Bool := p.deduplicationEnabled || p.rowOffsets.isSome

def len : ℕ :=
  match p.rowOffsets with
  | some rowOffsets => rowOffsets.length - 1
  | none => p.tensors.length

def rowSegmentIndices (row : ℕ) : List ℕ :=
  match p.rowOffsets, p.segmentIndices with
  | some rowOffsets, some segmentIndices =>
    Blocks.slice segmentIndices (rowOffsets.getD row 0) (rowOffsets.getD (row + 1) 0)
  | _, _ => [row]

def iterLogicalSegments : List (Option (Tensor δ ν)) :=
  match p.segmentIndices with
  | some segmentIndices => segmentIndices.map (p.tensors.getD · none)
  | none => p.tensors

/-- Fresh provenance, `next` being the first that nothing has. -/
def enableDeduplication (next : ℕ) : Except MediaError (PackedTensor δ ν × ℕ) :=
  match p.segmentProvenance with
  | some _ => .ok (p, next)
  | none => (init p.tensors p.dimToPack p.padToMaxShape p.rowOffsets p.segmentIndices
      (some (List.range' next p.tensors.length))).map (·, next + p.tensors.length)

def deepcopy : Except MediaError (PackedTensor δ ν) :=
  if p.rowOffsets = none ∧ ¬ p.deduplicationEnabled then
    init p.tensors p.dimToPack p.padToMaxShape none none none
  else init p.tensors p.dimToPack p.padToMaxShape p.rowOffsets p.segmentIndices p.segmentProvenance

variable (E : ElementTypes δ ν)

def asTensor : Except MediaError (Option (Tensor δ ν)) :=
  let nonNoneTensors := p.iterLogicalSegments.reduceOption
  if nonNoneTensors.length = 0 then .ok none
  else match pack E p.padToMaxShape p.dimToPack nonNoneTensors with
    | .ok tensor => .ok (some tensor)
    | .error e => .error (.pack e)

/-- Segments that are not of a floating-point type stay as they are. -/
def converted (dtype : δ) (item : Option (Tensor δ ν)) : Option (Tensor δ ν) :=
  item.map fun t ↦ if E.isFloatingPoint t.dtype then convert E dtype t else t

def requiresConversion [DecidableEq δ] (dtype : δ) : Bool :=
  p.tensors.any fun item ↦ item.any fun t ↦ E.isFloatingPoint t.dtype && t.dtype ≠ dtype

def toDtype [DecidableEq δ] (dtype : δ) (next : ℕ) : Except MediaError (PackedTensor δ ν × ℕ) :=
  if p.requiresConversion E dtype then
    let segmentProvenance := p.segmentProvenance.map fun _ ↦ List.range' next p.tensors.length
    (init (p.tensors.map (converted E dtype)) p.dimToPack p.padToMaxShape p.rowOffsets
      p.segmentIndices segmentProvenance).map (·, next + p.tensors.length)
  else (init p.tensors p.dimToPack p.padToMaxShape p.rowOffsets p.segmentIndices
    p.segmentProvenance).map (·, next)

section Slice

def item {α : Type} (l : List α) (i : ℤ) : Except MediaError α :=
  let i := if i < 0 then i + l.length else i
  if 0 ≤ i then
    match l[i.toNat]? with
    | some a => .ok a
    | none => .error .listIndex
  else .error .listIndex

abbrev Segment (δ ν : Type) [Zero ν] := Option (Tensor δ ν) × Option ℕ

def segment (physicalIndex : ℕ) : Segment δ ν :=
  (p.tensors.getD physicalIndex none, p.segmentProvenance.map (·.getD physicalIndex 0))

structure Sliced (δ ν : Type) [Zero ν] where
  segments : Table ℕ (Segment δ ν) := {}
  segmentIndices : List ℕ := []
  rowOffsets : List ℕ := [0]

def sliceSegment (s : Sliced δ ν) (physicalIndex : ℕ) : Sliced δ ν :=
  let (segments, i) := s.segments.intern physicalIndex (p.segment physicalIndex)
  { s with segments, segmentIndices := s.segmentIndices ++ [i] }

def sliceRow (s : Sliced δ ν) (row : ℤ) : Except MediaError (Sliced δ ν) :=
  let row := if row < 0 then row + p.len else row
  if 0 ≤ row ∧ row < p.len then
    let s := (p.rowSegmentIndices row.toNat).foldl p.sliceSegment s
    .ok { s with rowOffsets := s.rowOffsets ++ [s.segmentIndices.length] }
  else .error (.rowIndex row)

def slice (idx : List ℤ) : Except MediaError (PackedTensor δ ν) :=
  if ¬ p.deduplicationEnabled ∧ p.rowOffsets = none then do
    let tensors ← idx.mapM (item p.tensors)
    init tensors p.dimToPack p.padToMaxShape none none none
  else do
    let s ← idx.foldlM p.sliceRow {}
    let provenances := s.segments.entries.filterMap Prod.snd
    init (s.segments.entries.map Prod.fst) p.dimToPack p.padToMaxShape (some s.rowOffsets)
      (some s.segmentIndices) (p.segmentProvenance.map fun _ ↦ provenances)

end Slice

def emptyRowsLike (numRows : ℤ) : Except MediaError (PackedTensor δ ν) :=
  if numRows < 0 then .error .numRows
  else if p.isCompact then
    init [] p.dimToPack p.padToMaxShape (some (List.replicate (numRows.toNat + 1) 0)) (some [])
      (some [])
  else if numRows = 0 then init [] p.dimToPack p.padToMaxShape (some [0]) (some []) none
  else init (List.replicate numRows.toNat none) p.dimToPack p.padToMaxShape none none none

section Concat

/-- The segments so far, by their provenance. -/
structure Interned (δ ν : Type) [Zero ν] where
  segments : Table ℕ (Option (Tensor δ ν) × ℕ) := {}
  next : ℕ

def internSegment (s : Interned δ ν) : Segment δ ν → Interned δ ν × ℕ
  | (tensor, some provenance) =>
    let (segments, newIndex) := s.segments.intern provenance (tensor, provenance)
    (⟨segments, s.next⟩, newIndex)
  | (tensor, none) =>
    let (segments, newIndex) := s.segments.add s.next (tensor, s.next)
    (⟨segments, s.next + 1⟩, newIndex)

def physicalRemap (s : Interned δ ν) : List (Segment δ ν) → Interned δ ν × List ℕ
  | [] => (s, [])
  | segment :: rest =>
    let (s, newIndex) := internSegment s segment
    let (s, remap) := physicalRemap s rest
    (s, newIndex :: remap)

structure Concatenated (δ ν : Type) [Zero ν] where
  interned : Interned δ ν
  segmentIndices : List ℕ := []
  rowOffsets : List ℕ := [0]

def concatRow (remap : List ℕ) (s : Concatenated δ ν) (row : ℕ) : Concatenated δ ν :=
  let segmentIndices := s.segmentIndices ++ (p.rowSegmentIndices row).map (remap.getD · 0)
  ⟨s.interned, segmentIndices, s.rowOffsets ++ [segmentIndices.length]⟩

def concatValue (s : Concatenated δ ν) (p : PackedTensor δ ν) : Concatenated δ ν :=
  let (interned, remap) :=
    physicalRemap s.interned ((List.range p.tensors.length).map p.segment)
  (List.range p.len).foldl (p.concatRow remap) { s with interned }

variable (fromPackedTensors : List (PackedTensor δ ν)) (next : ℕ)

/-- What values that are put together have in common, `dim_to_pack` and `pad_to_max_shape`. -/
def commonSettings : Except MediaError (ℤ × Bool) :=
  match (fromPackedTensors.map (·.dimToPack)).dedup with
  | [dimToPack] =>
    match (fromPackedTensors.map (·.padToMaxShape)).dedup with
    | [padToMaxShape] => .ok (dimToPack, padToMaxShape)
    | _ => .error .padToMaxShape
  | _ => .error .dimToPack

def concat : Except MediaError (PackedTensor δ ν × ℕ) := do
  let (dimToPack, padToMaxShape) ← commonSettings fromPackedTensors
  if fromPackedTensors.any isCompact then
    let s := fromPackedTensors.foldl concatValue { interned := { next } }
    let segments := s.interned.segments.entries
    (init (segments.map Prod.fst) dimToPack padToMaxShape (some s.rowOffsets)
      (some s.segmentIndices) (some (segments.map Prod.snd))).map (·, s.interned.next)
  else
    (init (fromPackedTensors.flatMap (·.tensors)) dimToPack padToMaxShape none none none).map
      (·, next)

def mergeSegments : Except MediaError (PackedTensor δ ν × ℕ) :=
  if ¬ fromPackedTensors.any isCompact then concat fromPackedTensors next
  else do
    let (concatenated, next) ← concat fromPackedTensors next
    let segmentIndices := concatenated.segmentIndices.getD []
    (init concatenated.tensors concatenated.dimToPack concatenated.padToMaxShape
      (some [0, segmentIndices.length]) (some segmentIndices)
      concatenated.segmentProvenance).map (·, next)

def flattenedConcat : Except MediaError (PackedTensor δ ν × ℕ) := do
  let (dimToPack, padToMaxShape) ← commonSettings fromPackedTensors
  if fromPackedTensors.any isCompact then
    if fromPackedTensors.all (·.len = 1) then concat fromPackedTensors next
    else .error .oneLogicalRow
  else
    let tensors ← fromPackedTensors.mapM (asTensor · E)
    (init tensors dimToPack padToMaxShape none none none).map (·, next)

end Concat

end PackedTensor

end NemoRL.Data
