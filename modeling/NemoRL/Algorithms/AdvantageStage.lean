import Mathlib
import NemoRL.Algorithms.AdvantageEstimator

namespace NemoRL.Algorithms

/-- The settings that `_advantage_stage` reads off the PPO path. -/
structure AdvantageStageConfig (K : Type) extends AdvEstimatorConfig K where
  policyLogprobsRequired : Bool
  referenceLogprobsRequired : Bool
  teacherLogprobsRequired : Bool
  seqLogprobErrorThreshold : Option K

structure AdvantageSample (κ K : Type) where
  promptIds : κ
  reward : K
  field : String → K
  width : ℕ
  tokenMask : ℕ → K
  sampleMask : K
  policyLogprobs : ℕ → K
  generationLogprobs : ℕ → K
  referenceLogprobs : ℕ → K
  teacherLogprobs : ℕ → K

/-- What the stage writes back of a batch, and whether it has a token to train on. -/
structure StageResult (K : Type) where
  advantages : List (ℕ → K)
  sampleMask : Option (List K)
  hasValidTrainingTokens : Bool

variable {κ K : Type} [DecidableEq κ] [Field K] [LinearOrder K] (m : TensorMath K)
  (cfg : AdvantageStageConfig K)

def trainedPositions (width : ℕ) : List ℕ := (List.range (width - 1)).map Nat.succ

def seqMultProbError (row : AdvantageSample κ K) : K :=
  let mask t := row.tokenMask t * row.sampleMask
  let denom := ((trainedPositions row.width).map mask).sum
  if 0 < denom then
    ((trainedPositions row.width).map fun t ↦
      m.exp (|row.generationLogprobs t - row.policyLogprobs t| * mask t) * mask t).sum / max denom 1
  else 0

def maskedSample (row : AdvantageSample κ K) : K :=
  match cfg.policyLogprobsRequired, cfg.seqLogprobErrorThreshold with
  | true, some threshold => (if seqMultProbError m row ≤ threshold then 1 else 0) * row.sampleMask
  | _, _ => row.sampleMask

def estimatorRow (row : AdvantageSample κ K) : EstimatorRow κ K where
  promptIds := row.promptIds
  reward := row.reward
  field := row.field
  width := row.width
  mask t := row.tokenMask t * maskedSample m cfg row
  logprobsPolicy :=
    if cfg.policyLogprobsRequired && !cfg.teacherLogprobsRequired then some row.policyLogprobs
    else none
  logprobsReference := if cfg.referenceLogprobsRequired then some row.referenceLogprobs else none
  prevLogprobs :=
    if cfg.policyLogprobsRequired && cfg.teacherLogprobsRequired then some row.policyLogprobs
    else none
  teacherLogprobs := if cfg.teacherLogprobsRequired then some row.teacherLogprobs else none

def hasValidTrainingTokens (rows : List (EstimatorRow κ K)) : Bool :=
  rows.any fun row ↦ (trainedPositions row.width).any fun t ↦ row.mask t ≠ 0

def advantageStage (rows : List (AdvantageSample κ K)) : Except AdvantageError (StageResult K) := do
  let inputs := rows.map (estimatorRow m cfg)
  let valid := hasValidTrainingTokens inputs
  let advantages ←
    if valid then computeAdvantage m cfg.toAdvEstimatorConfig inputs
    else .ok (inputs.map fun _ _ ↦ 0)
  return {
    advantages := advantages
    sampleMask := cfg.seqLogprobErrorThreshold.map fun _ ↦ rows.map (maskedSample m cfg)
    hasValidTrainingTokens := valid }

def streamedStage (chunks : List (List (AdvantageSample κ K))) :
    Except AdvantageError (List (StageResult K)) := chunks.mapM (advantageStage m cfg)

end NemoRL.Algorithms
