import Mathlib
import NemoRL.Foundations.Buffers
import NemoRL.Utils.PackedTensor

namespace NemoRL.CheckpointEngines

open Utils Utils.PackedTensor Foundations

variable {δ : Type} [ElementType δ]

abbrev Weight (δ : Type) [ElementType δ] := String × Tensor δ

structure TensorMeta (δ : Type) where
  name : String
  shape : List ℕ
  dtype : δ
  chunkOffset : ℕ
  chunkSize : ℕ
  offset : Option ℕ
  deriving DecidableEq

def TensorMeta.nbytes (m : TensorMeta δ) : ℕ := m.shape.prod * ElementType.itemsize m.dtype

abbrev Chunk (δ : Type) := TensorMeta δ × List UInt8

variable (bucketSize : ℕ)

def chunkAt (w : Weight δ) (k : ℕ) : Chunk δ :=
  let nbytes := w.2.bytes.length
  let chunkOffset := k * bucketSize
  let chunkSize := min bucketSize (nbytes - chunkOffset)
  (⟨w.1, w.2.shape, w.2.dtype, chunkOffset, chunkSize, none⟩,
    (w.2.bytes.drop chunkOffset).take chunkSize)

def chunkCount (w : Weight δ) : ℕ := (w.2.bytes.length + bucketSize - 1) / bucketSize

def chunksOf (w : Weight δ) : List (Chunk δ) := (List.range (chunkCount bucketSize w)).map (chunkAt bucketSize w)

def splitWeightChunks (weights : List (Weight δ)) : List (Chunk δ) :=
  weights.flatMap (chunksOf bucketSize)

/-- An element of a batch: a view of a buffer of the receiver, or a tensor of its
own that chunks were merged into. -/
inductive Entry (δ : Type)
  | view (name : String) (shape : List ℕ) (dtype : δ) (bufferIndex : Bool) (offset size : ℕ)
  | merged (name : String) (shape : List ℕ) (dtype : δ) (bytes : Buffer UInt8)

structure Merging (δ : Type) where
  shape : List ℕ
  dtype : δ
  bytes : Buffer UInt8
  mergeOffset : ℕ

variable (uninitialised : Buffer UInt8) (buffers : Bool → Buffer UInt8) (bufferIndex : Bool)

/-- One round of the inner loop of `merge_weight_chunk_batches`, for a chunk that
is a view of the given buffer. A view of another element type needs an aligned
offset. -/
def mergeChunk (m : TensorMeta δ) (merging : Option (Merging δ)) :
    Option (Option (Merging δ) × List (Entry δ)) := do
  let offset ← m.offset
  if m.chunkOffset = 0 ∧ m.chunkSize = m.nbytes then
    if offset % ElementType.itemsize m.dtype = 0 then
      some (merging, [.view m.name m.shape m.dtype bufferIndex offset m.chunkSize])
    else none
  else
    let merge := merging.getD ⟨m.shape, m.dtype, uninitialised, 0⟩
    let chunk := (buffers bufferIndex).slice offset m.chunkSize
    let bytes := merge.bytes.write m.chunkOffset chunk
    let mergeOffset := merge.mergeOffset + m.chunkSize
    if mergeOffset = m.nbytes then
      some (none, [.merged m.name merge.shape merge.dtype bytes])
    else some (some { merge with bytes := bytes, mergeOffset := mergeOffset }, [])

/-- The batch of weights that the chunks of one bucket complete. -/
def mergeBatch : List (TensorMeta δ) → Option (Merging δ) →
    Option (Option (Merging δ) × List (Entry δ))
  | [], merging => some (merging, [])
  | m :: metas, merging => do
    let first ← mergeChunk uninitialised buffers bufferIndex m merging
    let rest ← mergeBatch metas first.1
    some (rest.1, first.2 ++ rest.2)

def Entry.read : Entry δ → String × List ℕ × δ × List UInt8
  | .view name shape dtype bufferIndex offset size =>
    (name, shape, dtype, (buffers bufferIndex).slice offset size)
  | .merged name shape dtype bytes =>
    (name, shape, dtype, bytes.slice 0 (shape.prod * ElementType.itemsize dtype))

end NemoRL.CheckpointEngines
