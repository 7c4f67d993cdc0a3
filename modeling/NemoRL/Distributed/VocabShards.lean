import Mathlib
import NemoRL.Distributed.ContextParallel

namespace NemoRL.Distributed.VocabShards

open Foundations.Blocks ContextParallel

variable {β γ R : Type}

inductive VocabError
  /-- `torch.gather` reads outside of the row. -/
  | gather (index : ℤ)
  /-- `torch.topk` is asked for more entries than there are. -/
  | topk (k n : ℕ)
  /-- `range()` with a step of zero. -/
  | zeroStep
  /-- The first chunk of no chunks. -/
  | noChunks
  /-- `assert vocab_end_index > vocab_start_index`. -/
  | emptyVocab
  deriving DecidableEq, Repr

def overChunks (chunkSize : Option ℕ) (S : ℕ) (chunk : ℕ → ℕ → Except VocabError (List γ)) :
    Except VocabError (List γ) :=
  let chunkSize := chunkSize.getD S
  if chunkSize = 0 then .error .zeroStep
  else if S = 0 then .error .noChunks
  else do
    let chunks ← (List.range ((S + chunkSize - 1) / chunkSize)).mapM fun c ↦
      chunk (c * chunkSize) (min S ((c + 1) * chunkSize))
    return chunks.flatten

structure VocabRange where
  start : ℤ
  stop : ℤ
  deriving DecidableEq, Repr

section Gather

variable [Zero R] [One R] [Add R] [Mul R]

def clamp (lo hi x : ℤ) : ℤ := min (max x lo) hi

def gatherEntry (row : List R) (index : ℤ) : Except VocabError R :=
  if 0 ≤ index then ((row[index.toNat]?).map .ok).getD (.error (.gather index))
  else .error (.gather index)

def localVals (range : VocabRange) (logits : List R) (gi : List ℤ) : Except VocabError (List R) :=
  gi.mapM fun index ↦ do
    let inRange : R := if range.start ≤ index ∧ index < range.stop then 1 else 0
    let li := clamp 0 (logits.length - 1) (index - range.start)
    return (← gatherEntry logits li) * inRange

def allReduceSum : List (List (List R)) → List (List R)
  | [] => []
  | [tensor] => tensor
  | tensor :: tensors => List.zipWith (List.zipWith (· + ·)) tensor (allReduceSum tensors)

/-- One window of positions on a context parallel rank, after the reduction over the tensor
parallel group; without a group the rank has all of the vocabulary. -/
def gatherChunk (tpGroup : Option ℕ) (ranges : ℕ → VocabRange) (logits : ℕ → List (List R))
    (gi : List (List ℤ)) (s0 s1 : ℕ) : Except VocabError (List (List R)) := do
  let vals ← (List.range (tpGroup.getD 1)).mapM fun tpRank ↦
    ((slice (logits tpRank) s0 s1).zip (slice gi s0 s1)).mapM fun x ↦
      localVals (ranges tpRank) x.1 x.2
  return allReduceSum vals

/-- One sequence of the batch: its logits by tensor parallel and context parallel rank, `S`
positions on each, and its indices, `k` at each position of the whole sequence. -/
def gatherRow (tpGroup cpGroup chunkSize : Option ℕ) (ranges : ℕ → VocabRange) (S k : ℕ)
    (logits : ℕ → ℕ → List (List R)) (globalIndices : List (List ℤ)) :
    Except VocabError (List (List R)) := do
  let cpSize := cpGroup.getD 1
  let padLen := if cpSize > 1 then S * cpSize - globalIndices.length else 0
  let padded := globalIndices ++ List.replicate padLen (List.replicate k 0)
  let gathered ← (List.range cpSize).mapM fun cpRank ↦
    let gi := if cpSize > 1 then getTokensOnThisCpRank cpRank cpSize padded else globalIndices
    overChunks chunkSize S (gatherChunk tpGroup ranges (logits · cpRank) gi)
  if cpSize > 1 then
    let gathered := allgatherCpShardedTensor cpSize fun cpRank ↦ gathered.getD cpRank []
    return if padLen > 0 then gathered.take (gathered.length - padLen) else gathered
  else return gathered.getD 0 []

/-- What every rank returns; `logits tpRank cpRank` is the tensor of a rank, a row of logits for
each of its positions, for each sequence. -/
def gatherLogitsAtGlobalIndices (tpGroup cpGroup chunkSize : Option ℕ) (ranges : ℕ → VocabRange)
    (vocabParallelLogits : ℕ → ℕ → List (List (List R))) (globalIndices : List (List (List ℤ))) :
    Except VocabError (List (List (List R))) :=
  let S := ((vocabParallelLogits 0 0).headD []).length
  let k := ((globalIndices.headD []).headD []).length
  globalIndices.zipIdx.mapM fun x ↦
    gatherRow tpGroup cpGroup chunkSize ranges S k
      (fun tpRank cpRank ↦ (vocabParallelLogits tpRank cpRank).getD x.2 []) x.1

end Gather

section Topk

abbrev Topk (β : Type) := List β → ℕ → Except VocabError (List (β × ℕ))

variable (topk : Topk β)

def topkPosition (worldSize k vLocal : ℕ) (ranges : ℕ → VocabRange) (logits : ℕ → List β) :
    Except VocabError (List (β × ℤ)) := do
  let kEff := min k (max 1 (vLocal * worldSize))
  let candidates ← (List.range worldSize).mapM fun rank ↦ do
    let picked ← topk (logits rank) (min k vLocal)
    return picked.map fun x ↦ (x.1, (x.2 : ℤ) + (ranges rank).start)
  let all := candidates.flatten
  let sel ← topk (all.map Prod.fst) kEff
  return sel.map fun x ↦ (x.1, (all.map Prod.snd).getD x.2 0)

def distributedVocabTopk (worldSize k : ℕ) (ranges : ℕ → VocabRange) (chunkSize : Option ℕ)
    (vocabParallelLogits : ℕ → List (List (List β))) :
    Except VocabError (List (List (List (β × ℤ)))) :=
  if (List.range worldSize).any fun rank ↦ (ranges rank).stop ≤ (ranges rank).start then
    .error .emptyVocab
  else
    let S := ((vocabParallelLogits 0).headD []).length
    let vLocal := (((vocabParallelLogits 0).headD []).headD []).length
    (List.range (vocabParallelLogits 0).length).mapM fun b ↦
      overChunks chunkSize S fun s0 s1 ↦ (List.range' s0 (s1 - s0)).mapM fun s ↦
        topkPosition topk worldSize k vLocal ranges fun rank ↦
          ((vocabParallelLogits rank).getD b []).getD s []

end Topk

end NemoRL.Distributed.VocabShards
