import Mathlib
import NemoRL.Algorithms.PromptStatistics
import NemoRL.Algorithms.TensorMath

namespace NemoRL.Algorithms

/-- The estimators that `_create_advantage_estimator` knows. -/
inductive AdvantageEstimator
  | grpo
  | gdpo
  | opd
  | reinforcePlusPlus
  deriving DecidableEq

/-- `AdvEstimatorConfig`, what the estimators read of the loss's settings, and
the columns of `repeated_batch`. -/
structure AdvEstimatorConfig (K : Type) where
  name : AdvantageEstimator
  normalizeRewards : Bool
  useLeaveOneOutBaseline : Bool
  rewardWeights : Option (List K)
  minusBaseline : Bool
  useKlInReward : Bool
  klCoef : K
  klType : KlType
  repeatedBatchFields : List String

inductive AdvantageError
  | multipleComponentsRequired (keys : List String)
  | wrongNumberOfWeights (weights : ℕ) (keys : List String)
  | teacherLogprobsRequired
  | prevLogprobsRequired
  deriving DecidableEq

structure EstimatorRow (κ K : Type) where
  promptIds : κ
  reward : K
  field : String → K
  width : ℕ
  mask : ℕ → K
  logprobsPolicy : Option (ℕ → K)
  logprobsReference : Option (ℕ → K)
  prevLogprobs : Option (ℕ → K)
  teacherLogprobs : Option (ℕ → K)

variable {κ K : Type} [DecidableEq κ] [Field K] [LinearOrder K] (m : TensorMath K)
  (cfg : AdvEstimatorConfig K) (rows : List (EstimatorRow κ K))

/-- A reward less its baseline, over its spread where that is not zero: what
`GRPOAdvantageEstimator` computes of the reward and `GDPOAdvantageEstimator` of
each component. -/
def promptAdvantage (reward : EstimatorRow κ K → K) (row : EstimatorRow κ K) : K :=
  let statistic := promptStatistic EstimatorRow.promptIds reward reward cfg.useLeaveOneOutBaseline
    rows row
  let advantage := reward row - statistic.baseline
  let std := m.sqrt statistic.variance
  if cfg.normalizeRewards ∧ 0 < std then advantage / (std + 1 / 10 ^ 6) else advantage

section Grpo

def grpoComputeAdvantage : List (ℕ → K) :=
  rows.map fun row _ ↦ promptAdvantage m cfg rows EstimatorRow.reward row

end Grpo

section Gdpo

def getGdpoRewardComponentKeys (fields : List String) : List String :=
  (fields.dedup.filter fun key ↦ key.startsWith "reward/").mergeSort (· ≤ ·)

def AdvEstimatorConfig.weightedKeys : Except AdvantageError (List (String × K)) :=
  let keys := getGdpoRewardComponentKeys cfg.repeatedBatchFields
  if keys.length < 2 then .error (.multipleComponentsRequired keys)
  else match cfg.rewardWeights with
    | none => .ok (keys.map fun key ↦ (key, 1))
    | some weights =>
      if weights.length ≠ keys.length then .error (.wrongNumberOfWeights weights.length keys)
      else .ok (keys.zip weights)

def gdpoCombined (keys : List (String × K)) (row : EstimatorRow κ K) : K :=
  (keys.map fun key ↦ key.2 * promptAdvantage m cfg rows (fun r ↦ r.field key.1) row).sum

def gdpoNormalize (combined : List K) (advantage : K) : K :=
  let mean := combined.sum / combined.length
  let advStd := m.sqrt ((combined.map fun x ↦ (x - mean) ^ 2).sum / (combined.length - 1))
  if 0 < advStd then (advantage - mean) / advStd else advantage - mean

def gdpoComputeAdvantage : Except AdvantageError (List (ℕ → K)) := do
  let keys ← cfg.weightedKeys
  let combined := rows.map (gdpoCombined m cfg rows keys)
  return rows.map fun row _ ↦ gdpoNormalize m combined (gdpoCombined m cfg rows keys row)

end Gdpo

section ReinforcePlusPlus

def reinforcePenalized (row : EstimatorRow κ K) (t : ℕ) : K :=
  let adv := if cfg.minusBaseline then
      row.reward - (promptStatistic EstimatorRow.promptIds EstimatorRow.reward EstimatorRow.reward
        false rows row).baseline
    else row.reward
  match cfg.useKlInReward, row.logprobsPolicy, row.logprobsReference with
  | true, some policy, some reference =>
    adv - cfg.klCoef * calculateKl m cfg.klType (some 20) (some 10) none (policy t) (reference t)
  | _, _, _ => adv

def tokenSum (rows : List (EstimatorRow κ K)) (f : EstimatorRow κ K → ℕ → K) : K :=
  (rows.map fun row ↦ ((List.range row.width).map (f row)).sum).sum

def reinforceNormalize (adv : EstimatorRow κ K → ℕ → K) (advantage : K) : K :=
  let maskSum := tokenSum rows EstimatorRow.mask
  let advMean := tokenSum rows (fun row t ↦ adv row t * row.mask t) / maskSum
  let advVar := tokenSum rows (fun row t ↦ (adv row t - advMean) ^ 2 * row.mask t) / maskSum
  (advantage - advMean) * (m.sqrt (max advVar (1 / 10 ^ 8)))⁻¹

def reinforceComputeAdvantage : List (ℕ → K) :=
  rows.map fun row t ↦
    reinforceNormalize m rows (reinforcePenalized m cfg rows) (reinforcePenalized m cfg rows row t)

end ReinforcePlusPlus

section Opd

def opdComputeAdvantage (rows : List (EstimatorRow κ K)) : Except AdvantageError (List (ℕ → K)) :=
  rows.mapM fun row ↦
    match row.teacherLogprobs, row.prevLogprobs with
    | none, _ => .error .teacherLogprobsRequired
    | some _, none => .error .prevLogprobsRequired
    | some teacher, some prev => .ok fun t ↦ (teacher t - prev t) * row.mask t

end Opd

def computeAdvantage : Except AdvantageError (List (ℕ → K)) :=
  match cfg.name with
  | .grpo => .ok (grpoComputeAdvantage m cfg rows)
  | .gdpo => gdpoComputeAdvantage m cfg rows
  | .opd => opdComputeAdvantage rows
  | .reinforcePlusPlus => .ok (reinforceComputeAdvantage m cfg rows)

end NemoRL.Algorithms
