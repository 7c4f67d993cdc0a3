import Mathlib
import NemoRL.Data.Packing.Algorithms
import NemoRL.Foundations.Positions

namespace NemoRL.Distributed.BatchedDataDict

open Foundations.Positions Data.Packing

structure DynamicBatchingArgs where
  maxTokensPerMicrobatch : ℕ
  sequenceLengthRound : ℕ

structure SequencePackingArgs where
  algorithm : ℕ → PackingAlgorithm
  maxTokensPerMicrobatch : ℤ
  sequenceLengthPadMultiple : ℕ
  microbatchOrder : Option String

/-- A shard of a batch: which rows it holds, in its order, and how a worker is to
cut them into microbatches. -/
structure SlicedDataDict where
  rows : List ℕ
  microBatchIndices : Option (List (List (ℕ × ℕ)))
  microBatchLengths : Option (List (List ℕ))
  elemCountsPerGb : Option (List ℕ)
  deriving DecidableEq

def roundUp (multiple length : ℕ) : ℕ := (length + multiple - 1) / multiple * multiple

def shardRows (order : List ℕ) (numChunks batchSize shardSize shardIdx : ℕ) : List ℕ :=
  (List.range numChunks).flatMap fun chunkIdx ↦
    (order.drop (chunkIdx * batchSize + shardIdx * shardSize)).take shardSize

section Dynamic

def batchSortedIndices (inputLengths : List ℕ) (numChunks batchSize shards : ℕ) : List ℕ :=
  (List.range numChunks).flatMap fun chunkIdx ↦
    let chunkSeqlens := (inputLengths.drop (chunkIdx * batchSize)).take batchSize
    let sorted := (List.range batchSize).insertionSort fun i j ↦
      chunkSeqlens.getD i 0 ≤ chunkSeqlens.getD j 0
    let chunkIdxIndices := sorted.map (· + chunkIdx * batchSize)
    (List.range shards).flatMap fun i ↦ stripe chunkIdxIndices i shards

/-- The microbatches of a chunk so far; the last one is still open. -/
structure MicroBatches where
  indices : List (ℕ × ℕ)
  lengths : List ℕ
  start : ℕ
  stop : ℕ
  length : ℕ
  maxSeqlen : ℕ

def MicroBatches.push (maxTokens : ℕ) (s : MicroBatches) (x : ℕ × ℕ) : MicroBatches :=
  let maxSeqlen := max s.maxSeqlen x.2
  if (s.stop - s.start + 1) * maxSeqlen ≤ maxTokens then
    { s with stop := s.stop + 1, length := maxSeqlen, maxSeqlen := maxSeqlen }
  else
    { indices := s.indices ++ [(s.start, s.stop)]
      lengths := s.lengths ++ [s.length]
      start := x.1
      stop := x.1 + 1
      length := x.2
      maxSeqlen := x.2 }

def chunkMicroBatches (args : DynamicBatchingArgs) (inputSeqlen : ℕ) (inputLengths : List ℕ)
    (shards : List (List ℕ)) (shardSize chunkIdx : ℕ) : Option (List (ℕ × ℕ) × List ℕ) :=
  let lengths := (List.range shardSize).map fun shardIndice ↦
    let longest := (shards.map fun rows ↦
      inputLengths.getD (rows.getD (chunkIdx * shardSize + shardIndice) 0) 0).foldl max 0
    min (roundUp args.sequenceLengthRound longest) inputSeqlen
  if lengths.all (· ≤ args.maxTokensPerMicrobatch) then
    let s := (lengths.zipIdx.map Prod.swap).foldl (MicroBatches.push args.maxTokensPerMicrobatch)
      ⟨[], [], 0, 0, 0, 0⟩
    some (s.indices ++ [(s.start, s.stop)], s.lengths ++ [s.length])
  else none

end Dynamic

section Packed

def chunkPaddedSeqlens (args : SequencePackingArgs) (inputLengths : List ℕ)
    (batchSize chunkIdx : ℕ) : List ℕ :=
  ((inputLengths.drop (chunkIdx * batchSize)).take batchSize).map
    (roundUp args.sequenceLengthPadMultiple)

def binSeqlen (paddedSeqlens bin : List ℕ) : ℕ := (bin.map (paddedSeqlens.getD · 0)).sum

def shardBinAssignments (args : SequencePackingArgs) (paddedSeqlens : List ℕ)
    (bins : List (List ℕ)) (shards shardIdx : ℕ) : List (List ℕ) :=
  let bins := stripe bins shardIdx shards
  if args.microbatchOrder = some "largest_first" then
    bins.insertionSort fun b b' ↦ binSeqlen paddedSeqlens b' ≤ binSeqlen paddedSeqlens b
  else bins

def binRanges : ℕ → List (List ℕ) → List (ℕ × ℕ)
  | _, [] => []
  | start, bin :: bins => (start, start + bin.length) :: binRanges (start + bin.length) bins

def allChunkBinAssignments (args : SequencePackingArgs) (packer : SequencePacker)
    (inputLengths : List ℕ) (numChunks batchSize : ℕ) : Option (List (List (List ℕ))) :=
  (List.range numChunks).mapM fun chunkIdx ↦
    (packer.pack (args.algorithm chunkIdx)
      ((chunkPaddedSeqlens args inputLengths batchSize chunkIdx).map Int.ofNat)).toOption

/-- The bins of a shard in each chunk, with the padded lengths and the first row there. -/
def binsOfShard (args : SequencePackingArgs) (inputLengths : List ℕ) (batchSize shards : ℕ)
    (assignments : List (List (List ℕ))) (shardIdx : ℕ) : List (List (List ℕ) × List ℕ × ℕ) :=
  assignments.zipIdx.map fun x ↦
    let paddedSeqlens := chunkPaddedSeqlens args inputLengths batchSize x.2
    (shardBinAssignments args paddedSeqlens x.1 shards shardIdx, paddedSeqlens, x.2 * batchSize)

def packedShard (args : SequencePackingArgs) (inputLengths : List ℕ) (batchSize shards : ℕ)
    (assignments : List (List (List ℕ))) (shardIdx : ℕ) : Option SlicedDataDict := do
  let bins := binsOfShard args inputLengths batchSize shards assignments shardIdx
  let counts ← bins.mapM fun x ↦ (binRanges 0 x.1).getLast?.map Prod.snd
  return {
    rows := bins.flatMap fun x ↦ x.1.flatMap fun bin ↦ bin.map (· + x.2.2)
    microBatchIndices := some (bins.map fun x ↦ binRanges 0 x.1)
    microBatchLengths := some (bins.map fun x ↦ x.1.map (binSeqlen x.2.1))
    elemCountsPerGb := some counts }

end Packed

/-- `shard_by_batch_size` of a batch with these input lengths and so many input ids a
row, without uneven shards; nothing where it raises. -/
def shardByBatchSize (inputLengths : List ℕ) (inputSeqlen shards : ℕ) (batchSize : Option ℕ)
    (dynamicBatchingArgs : Option DynamicBatchingArgs)
    (sequencePackingArgs : Option SequencePackingArgs) : Option (List SlicedDataDict) :=
  let totalBatchSize := inputLengths.length
  let batchSize := batchSize.getD totalBatchSize
  if dynamicBatchingArgs.isSome ∧ sequencePackingArgs.isSome then none
  else if batchSize = 0 ∨ totalBatchSize % batchSize ≠ 0 ∨ shards = 0 ∨ batchSize % shards ≠ 0 then
    none
  else
    let numChunks := totalBatchSize / batchSize
    let shardSize := batchSize / shards
    match dynamicBatchingArgs, sequencePackingArgs with
    | some args, _ =>
      if args.sequenceLengthRound = 0 then none
      else
        let order := batchSortedIndices inputLengths numChunks batchSize shards
        let rows := (List.range shards).map (shardRows order numChunks batchSize shardSize)
        ((List.range numChunks).mapM
          (chunkMicroBatches args inputSeqlen inputLengths rows shardSize)).map fun chunks ↦
            rows.map fun rows ↦
              ⟨rows, some (chunks.map Prod.fst), some (chunks.map Prod.snd), none⟩
    | none, some args =>
      if args.sequenceLengthPadMultiple = 0 ∨
          args.microbatchOrder ∉ [none, some "packer", some "largest_first"] then none
      else
        match SequencePacker.create args.maxTokensPerMicrobatch (some (shards : ℤ))
            (some (shards : ℤ)) with
        | .error _ => none
        | .ok packer =>
          (allChunkBinAssignments args packer inputLengths numChunks batchSize).bind
            fun assignments ↦ (List.range shards).mapM
              (packedShard args inputLengths batchSize shards assignments)
    | none, none =>
      some ((List.range shards).map fun shardIdx ↦
        ⟨shardRows (List.range totalBatchSize) numChunks batchSize shardSize shardIdx, none, none,
          none⟩)

def reorderedIndices (reorderedIndices : List ℕ) (totalBatchSize : ℕ) : List ℕ :=
  ((reorderedIndices.zip (List.range totalBatchSize)).insertionSort
    fun a b ↦ a.1 ≤ b.1).map Prod.snd

def reorderData {α : Type*} (column : List α) (indices : List ℕ) : List α :=
  entriesAt column (reorderedIndices indices column.length)

end NemoRL.Distributed.BatchedDataDict
