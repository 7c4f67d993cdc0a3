import Mathlib
import NemoRL.Distributed.BatchedDataDict

namespace NemoRL.DataPlane.Preshard

open Foundations.Positions Distributed.BatchedDataDict

/-- A value of `extra_info`; what the callers put there is not looked into. -/
inductive ExtraValue (ω : Type)
  | microBatchIndices (v : List (List (ℕ × ℕ)))
  | microBatchLengths (v : List (List ℕ))
  | elemCountsPerGb (v : List ℕ)
  | other (v : ω)

structure KVBatchMeta (ω : Type) where
  partitionId : String
  taskName : Option String
  sampleIds : List String
  fields : Option (List String)
  sequenceLengths : Option (List ℕ)
  extraInfo : List (String × ExtraValue ω)

variable {ω : Type}

def setKey (d : List (String × ExtraValue ω)) (key : String) (v : ExtraValue ω) :
    List (String × ExtraValue ω) :=
  if key ∈ d.map Prod.fst then d.map fun x ↦ if x.1 = key then (key, v) else x else d ++ [(key, v)]

def rankExtra (base : List (String × ExtraValue ω)) (shard : SlicedDataDict) :
    List (String × ExtraValue ω) :=
  let set (d : List (String × ExtraValue ω)) (key : String) (v : Option (ExtraValue ω)) :=
    v.elim d (setKey d key)
  let d := set base "micro_batch_indices" (shard.microBatchIndices.map .microBatchIndices)
  let d := set d "micro_batch_lengths" (shard.microBatchLengths.map .microBatchLengths)
  set d "elem_counts_per_gb" (shard.elemCountsPerGb.map .elemCountsPerGb)

/-- The shards of the skeleton batch: its rows are those of the batch, so that a
shard's column `meta_idx` is its rows. -/
def skeletonShards (seqLens : List ℕ) (dpWorld : ℕ) (batchSize : Option ℕ)
    (sequencePackingArgs : Option SequencePackingArgs)
    (dynamicBatchingArgs : Option DynamicBatchingArgs) : Option (List SlicedDataDict) :=
  let inputIdsSeqlen := (dynamicBatchingArgs.map (·.maxTokensPerMicrobatch)).getD 1
  shardByBatchSize seqLens inputIdsSeqlen dpWorld batchSize dynamicBatchingArgs sequencePackingArgs

def rankMeta (batch : KVBatchMeta ω) (seqLens : List ℕ) (shard : SlicedDataDict) : KVBatchMeta ω :=
  { batch with
    sampleIds := shard.rows.map (batch.sampleIds.getD · "")
    sequenceLengths := some (shard.rows.map (seqLens.getD · 0))
    extraInfo := rankExtra batch.extraInfo shard }

def unsortedIndices (flatIdx : List ℕ) (n : ℕ) : Option (List ℕ) :=
  if flatIdx ≠ List.range n then
    some (flatIdx.zipIdx.foldl (fun unsorted x ↦ unsorted.set x.1 x.2) (List.replicate n 0))
  else none

def shardMetaForDp (batch : KVBatchMeta ω) (dpWorld : ℕ) (batchSize : Option ℕ)
    (sequencePackingArgs : Option SequencePackingArgs)
    (dynamicBatchingArgs : Option DynamicBatchingArgs) :
    Option (List (KVBatchMeta ω) × Option (List ℕ)) :=
  let n := batch.sampleIds.length
  match batch.sequenceLengths with
  | none => none
  | some seqLens =>
    if n = 0 ∨ seqLens.length ≠ n ∨ sequencePackingArgs.isSome ∧ dynamicBatchingArgs.isSome then
      none
    else
      (skeletonShards seqLens dpWorld batchSize sequencePackingArgs dynamicBatchingArgs).map
        fun sharded ↦
          (sharded.map (rankMeta batch seqLens),
            unsortedIndices (sharded.flatMap SlicedDataDict.rows) n)

def restore {α : Type*} (aggregated : List α) (unsorted : Option (List ℕ)) : List α :=
  unsorted.elim aggregated (reorderData aggregated)

end NemoRL.DataPlane.Preshard
