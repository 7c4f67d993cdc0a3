import Mathlib
import NemoRL.Foundations.Blocks

namespace NemoRL.Distributed.ModelUtils

open Foundations.Blocks

variable {α β : Type}

/-- What the sampling log probabilities raise. -/
inductive SamplingError
  /-- `B*S` must be divisible by tensor parallel size. -/
  | batchSequence (bs worldSize : ℕ)
  /-- The effective chunk size must be divisible by the tensor parallel size. -/
  | effectiveChunkSize (effectiveChunkSize chunkSize b worldSize : ℕ)
  /-- The vocabulary size must be divisible by the tensor parallel size. -/
  | vocabulary (v worldSize : ℕ)
  /-- `torch.gather` reads outside of the row. -/
  | gather (target : ℕ)
  /-- `ZeroDivisionError`, from a chunk of no positions. -/
  | zeroDivision
  /-- `torch.cat` of no tensors. -/
  | emptyCat
  deriving DecidableEq, Repr

section Collectives

/-! The tensors of a group, flattened, by rank. -/

def allToAllSingle (worldSize : ℕ) (input : ℕ → List α) (rank : ℕ) : List α :=
  (List.range worldSize).flatMap fun source ↦
    block ((input source).length / worldSize) (input source) rank

def allGather (worldSize : ℕ) (input : ℕ → List α) (_rank : ℕ) : List α :=
  (List.range worldSize).flatMap input

def permute102 (a b c : ℕ) (data : List α) : List α :=
  (List.range b).flatMap fun j ↦ (List.range a).flatMap fun i ↦ block c data (i * b + j)

def allToAllVp2sq (worldSize bs vLocal : ℕ) (vocabParallelLogits : ℕ → List α) :
    Except SamplingError (ℕ → List α) :=
  if bs % worldSize ≠ 0 then .error (.batchSequence bs worldSize)
  else .ok fun rank ↦
    permute102 worldSize (bs / worldSize) vLocal (allToAllSingle worldSize vocabParallelLogits rank)

def allToAllSq2vp (worldSize bsLocal v : ℕ) (seqParallelLogits : ℕ → List α) :
    Except SamplingError (ℕ → List α) :=
  if v % worldSize ≠ 0 then .error (.vocabulary v worldSize)
  else .ok (allToAllSingle worldSize fun rank ↦
    permute102 bsLocal worldSize (v / worldSize) (seqParallelLogits rank))

end Collectives

/-- What is done to one row of logits: the filter, with the mask of what it keeps unless
it is off, and the normalisation. -/
structure RowSampling (α β : Type) where
  applyTopKTopP : List α → List α
  keepMask : Option (List α → List Bool)
  logSoftmax : List α → List β
  exp : β → β
  length_logSoftmax : ∀ row, (logSoftmax (applyTopKTopP row)).length = row.length
  length_keepMask : ∀ mask ∈ keepMask, ∀ row, (mask row).length = row.length

variable (sampling : RowSampling α β)

def RowSampling.logProbs (row : List α) : List β :=
  sampling.logSoftmax (sampling.applyTopKTopP row)

/-- What one rank keeps for the backward pass. -/
structure Saved (β : Type) where
  softmaxOutput : List (List β)
  targetLocal : List ℕ
  keepMask : Option (List (List Bool))

section Local

def rows (n c : ℕ) (data : List α) : List (List α) := (List.range n).map (block c data)

def gather (logProbs : List (List β)) (target : List ℕ) : Except SamplingError (List β) :=
  (logProbs.zip target).mapM fun (row, t) ↦ (row[t]?).elim (.error (.gather t)) .ok

def saved (n v : ℕ) (seqParallelLogits : List α) (targetLocal : List ℕ) : Saved β :=
  let logits := rows n v seqParallelLogits
  { softmaxOutput := logits.map fun row ↦ (sampling.logProbs row).map sampling.exp
    targetLocal := targetLocal
    keepMask := sampling.keepMask.map logits.map }

variable [Zero β] [One β] [Sub β] [Mul β]

def chosenGradient (softmax : List β) (target : ℕ) (gradOutput : β) : List β :=
  softmax.zipIdx.map fun (x, token) ↦ ((if token = target then 1 else 0) - x) * gradOutput

def maskGradient (gradLogits : List β) (keep : List Bool) : List β :=
  List.zipWith (fun x kept ↦ x * if kept then 1 else 0) gradLogits keep

def gradLogitsLocal (ctx : Saved β) (gradOutputLocal : List β) : List (List β) :=
  let gradLogits := List.zipWith (fun softmax (x : ℕ × β) ↦ chosenGradient softmax x.1 x.2)
    ctx.softmaxOutput (ctx.targetLocal.zip gradOutputLocal)
  ctx.keepMask.elim gradLogits (List.zipWith maskGradient gradLogits)

end Local

namespace DistributedLogprobWithSampling

variable (worldSize b s vLocal : ℕ)

def forward (vocabParallelLogits : ℕ → List α) (target : List ℕ) :
    Except SamplingError ((ℕ → List β) × (ℕ → Saved β)) :=
  let bs := b * s
  if bs % worldSize ≠ 0 then .error (.batchSequence bs worldSize)
  else do
    let bsLocal := bs / worldSize
    let targetLocal := fun rank ↦ slice target (rank * bsLocal) ((rank + 1) * bsLocal)
    let seqParallelLogits ← allToAllVp2sq worldSize bs vLocal vocabParallelLogits
    let tokenLogprobs ← (List.range worldSize).mapM fun rank ↦
      gather ((rows bsLocal (worldSize * vLocal) (seqParallelLogits rank)).map sampling.logProbs)
        (targetLocal rank)
    return (allGather worldSize fun rank ↦ tokenLogprobs.getD rank [], fun rank ↦
      saved sampling bsLocal (worldSize * vLocal) (seqParallelLogits rank) (targetLocal rank))

variable [Zero β] [One β] [Sub β] [Mul β]

def backward (ctx : ℕ → Saved β) (gradOutput : List β) : Except SamplingError (ℕ → List β) :=
  let bsLocal := b * s / worldSize
  -- The last dimension of `softmax_output` is the whole vocabulary.
  allToAllSq2vp worldSize bsLocal (worldSize * vLocal) fun rank ↦
    (gradLogitsLocal (ctx rank)
      (slice gradOutput (rank * bsLocal) ((rank + 1) * bsLocal))).flatten

end DistributedLogprobWithSampling

namespace ChunkedDistributedLogprobWithSampling

variable (worldSize b s vLocal chunkSize : ℕ)

def forwardChunk (vocabParallelLogits : ℕ → List α) (target : List ℕ) (chunkStart chunkEnd : ℕ) :
    Except SamplingError (ℕ → List β) := do
  let currentChunkSize := chunkEnd - chunkStart
  let localChunkSize := currentChunkSize / worldSize
  let targetChunk := slice target chunkStart chunkEnd
  let seqParallelLogits ← allToAllVp2sq worldSize currentChunkSize vLocal fun rank ↦
    slice (vocabParallelLogits rank) (chunkStart * vLocal) (chunkEnd * vLocal)
  let tokenLogprobs ← (List.range worldSize).mapM fun rank ↦
    gather ((rows localChunkSize (worldSize * vLocal) (seqParallelLogits rank)).map
      sampling.logProbs) (slice targetChunk (rank * localChunkSize) ((rank + 1) * localChunkSize))
  return allGather worldSize fun rank ↦ tokenLogprobs.getD rank []

def overChunks {γ : Type} (chunk : ℕ → ℕ → Except SamplingError (ℕ → List γ)) :
    Except SamplingError (ℕ → List γ) :=
  let bs := b * s
  let effectiveChunkSize := chunkSize * b
  if effectiveChunkSize = 0 then .error .zeroDivision
  else if bs = 0 then .error .emptyCat
  else do
    let numChunks := (bs + effectiveChunkSize - 1) / effectiveChunkSize
    let chunks ← (List.range numChunks).mapM fun chunkIdx ↦
      chunk (chunkIdx * effectiveChunkSize) (min bs ((chunkIdx + 1) * effectiveChunkSize))
    return fun rank ↦ chunks.flatMap (· rank)

def forward (vocabParallelLogits : ℕ → List α) (target : List ℕ) :
    Except SamplingError (ℕ → List β) :=
  if b * s % worldSize ≠ 0 then .error (.batchSequence (b * s) worldSize)
  else if chunkSize * b % worldSize ≠ 0 then
    .error (.effectiveChunkSize (chunkSize * b) chunkSize b worldSize)
  else overChunks b s chunkSize (forwardChunk sampling worldSize vLocal vocabParallelLogits target)

variable [Zero β] [One β] [Sub β] [Mul β]

/-- One chunk of the backward pass, its forward pass done again. -/
def backwardChunk (vocabParallelLogits : ℕ → List α) (target : List ℕ) (gradOutput : List β)
    (chunkStart chunkEnd : ℕ) : Except SamplingError (ℕ → List β) := do
  let currentChunkSize := chunkEnd - chunkStart
  let localChunkSize := currentChunkSize / worldSize
  let targetChunk := slice target chunkStart chunkEnd
  let gradChunk := slice gradOutput chunkStart chunkEnd
  let seqParallelLogits ← allToAllVp2sq worldSize currentChunkSize vLocal fun rank ↦
    slice (vocabParallelLogits rank) (chunkStart * vLocal) (chunkEnd * vLocal)
  allToAllSq2vp worldSize localChunkSize (worldSize * vLocal) fun rank ↦
    (gradLogitsLocal
      (saved sampling localChunkSize (worldSize * vLocal) (seqParallelLogits rank)
        (slice targetChunk (rank * localChunkSize) ((rank + 1) * localChunkSize)))
      (slice gradChunk (rank * localChunkSize) ((rank + 1) * localChunkSize))).flatten

def backward (vocabParallelLogits : ℕ → List α) (target : List ℕ) (gradOutput : List β) :
    Except SamplingError (ℕ → List β) :=
  overChunks b s chunkSize
    (backwardChunk sampling worldSize vLocal vocabParallelLogits target gradOutput)

end ChunkedDistributedLogprobWithSampling

end NemoRL.Distributed.ModelUtils
