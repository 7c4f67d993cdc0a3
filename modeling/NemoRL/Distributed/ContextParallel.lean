import Mathlib
import NemoRL.Foundations.Blocks

namespace NemoRL.Distributed.ContextParallel

open Foundations.Blocks

variable {α β ρ τ : Type}

def getTokensOnThisCpRank (cpRank cpSize : ℕ) (inputIds : List α) : List α :=
  if cpSize = 1 then inputIds
  else
    let shardSize := inputIds.length / (cpSize * 2)
    block shardSize inputIds cpRank ++ block shardSize inputIds (cpSize * 2 - cpRank - 1)

section AllGather

def chunkTwo (tensor : List α) : List (List α) :=
  let size := (tensor.length + 1) / 2
  if tensor.length = 1 then [tensor] else [tensor.take size, tensor.drop size]

def allgatherCpShardedTensor (cpSize : ℕ) (tensors : ℕ → List α) : List α :=
  let tensorChunks := (List.range cpSize).flatMap fun cpRank ↦ chunkTwo (tensors cpRank)
  let chunkIndices := (List.range cpSize).flatMap fun cpRank ↦ [cpRank, 2 * cpSize - cpRank - 1]
  ((tensorChunks.zip chunkIndices).mergeSort (·.2 ≤ ·.2)).flatMap Prod.fst

end AllGather

def assignSlice (tensor : List α) (start stop : ℕ) (values : List α) : Option (List α) :=
  let n := (slice tensor start stop).length
  let write := fun values ↦ tensor.take start ++ values ++ tensor.drop (start + n)
  if values.length = n then some (write values)
  else match values with
    | [value] => some (write (List.replicate n value))
    | _ => none

section Logprobs

variable (logprob : ρ → τ → β) (padToken : τ) (zero : β) (cpSize : ℕ)

def rowLogprobs (padLen : ℕ) (logits : ℕ → List ρ) (target : List τ) : List β :=
  let target := target.rotate 1 ++ List.replicate padLen padToken
  let logprobs := fun cpRank ↦
    List.zipWith logprob (logits cpRank) (getTokensOnThisCpRank cpRank cpSize target)
  let logprobs := if cpSize > 1 then allgatherCpShardedTensor cpSize logprobs else logprobs 0
  let logprobs := if padLen > 0 then logprobs.take (logprobs.length - padLen) else logprobs
  logprobs.dropLast

/-- The log probabilities of a batch of padded sequences; `logits cpRank` holds a row of logits
for each position of the rank, for each sequence. -/
def fromParallelLogitsToLogprobs (logits : ℕ → List (List ρ)) (target : List (List τ)) :
    List (List β) :=
  let padLen := ((logits 0).headD []).length * cpSize - (target.headD []).length
  target.zipIdx.map fun (row, b) ↦
    rowLogprobs logprob padToken cpSize padLen (fun cpRank ↦ (logits cpRank).getD b []) row

variable (cuSeqlensPadded : List ℕ)

def bounds (i : ℕ) : ℕ × ℕ := (cuSeqlensPadded.getD i 0, cuSeqlensPadded.getD (i + 1) 0)

def rolledTargets (target : List τ) (cpRank : ℕ) : Option (List τ) :=
  (List.range (cuSeqlensPadded.length - 1)).foldlM (fun rolled i ↦
    let (start, stop) := bounds cuSeqlensPadded i
    assignSlice rolled (start / cpSize) (stop / cpSize)
      (getTokensOnThisCpRank cpRank cpSize ((slice target start stop).rotate 1)))
    (List.replicate (target.length / cpSize) padToken)

def gatheredProbs (probs : ℕ → List β) : Option (List β) :=
  (List.range (cuSeqlensPadded.length - 1)).foldlM (fun final i ↦
    let (start, stop) := bounds cuSeqlensPadded i
    assignSlice final start stop (allgatherCpShardedTensor cpSize fun cpRank ↦
      slice (probs cpRank) (start / cpSize) (stop / cpSize)))
    (List.replicate ((probs 0).length * cpSize) zero)

def unpackedRow (unpackedSeqlen : ℕ) (probs : List β) (i : ℕ) : List β :=
  let (start, stop) := bounds cuSeqlensPadded i
  let row := List.replicate (unpackedSeqlen - 1) zero
  if stop - start > 0 then
    let seqProbs := slice probs start (stop - 1)
    let seqLen := min seqProbs.length (unpackedSeqlen - 1)
    seqProbs.take seqLen ++ row.drop seqLen
  else row

/-- The log probabilities of packed sequences, unpacked; `target cpRank` is what the rank is
given, the whole packed tensor unless it is rolled and sharded already. -/
def fromParallelLogitsToLogprobsPackedSequences (logits : ℕ → List ρ) (target : ℕ → List τ)
    (unpackedSeqlen : ℕ) (targetIsPreRolled : Bool) : Option (List (List β)) := do
  let targets ← if targetIsPreRolled then some ((List.range cpSize).map target)
    else (List.range cpSize).mapM fun cpRank ↦
      rolledTargets padToken cpSize cuSeqlensPadded (target cpRank) cpRank
  let probs := fun cpRank ↦ List.zipWith logprob (logits cpRank) (targets.getD cpRank [])
  let probs ← if cpSize > 1 then gatheredProbs zero cpSize cuSeqlensPadded probs
    else some (probs 0)
  return (List.range (cuSeqlensPadded.length - 1)).map
    (unpackedRow zero cuSeqlensPadded unpackedSeqlen probs)

end Logprobs

end NemoRL.Distributed.ContextParallel
