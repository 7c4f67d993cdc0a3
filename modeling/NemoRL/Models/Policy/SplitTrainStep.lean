import Mathlib
import NemoRL.Algorithms.Loss.Normalization

namespace NemoRL.Models.Policy

open Algorithms Algorithms.Loss

/-- The rows of a global batch: of each data parallel rank the `train_microbatch`
calls, and of each call its pipeline microbatches. -/
abbrev RankCalls (ρ : Type) := List (List (List ρ))

/-- The forward pass at the parameters of a step, and what `backward` deposits
of a loss: gradients are linear in it. -/
structure Forward (ρ Θ G K : Type) [Field K] [AddCommGroup G] [Module K G] where
  logprobs : Θ → ρ → Logprobs K
  params : Θ
  grad : (Θ → K) →ₗ[K] G

variable {ρ Θ G K : Type} [Field K] [LinearOrder K] [AddCommGroup G] [Module K G]
  (m : TensorMath K) (fn : ClippedPGLossFn K) (data : ρ → LossRow K) (f : Forward ρ Θ G K)

section Microbatch

def lossInputs (θ : Θ) (rows : List ρ) : List (LossInput K) :=
  rows.map fun r ↦ ⟨data r, f.logprobs θ r, f.logprobs f.params r⟩

abbrev Metrics (K : Type) := List (MetricKey × MetricValue K)

def forwardBackward (n : GlobalValid K) (rows : List ρ) : Except LossError (G × Metrics K) := do
  fn.check
  return (f.grad fun θ ↦ fn.loss m n (lossInputs data f θ rows),
    fn.metrics m n (lossInputs data f f.params rows))

def localValidSeqs (rows : List ρ) : K :=
  (rows.map fun r ↦ if (data r).sampleMask then 1 else 0).sum

def localValidToks (rows : List ρ) : K :=
  (rows.map fun r ↦ ((List.range ((data r).width - 1)).map fun t ↦
    if (data r).tokenMask (t + 1) ∧ (data r).sampleMask then (1 : K) else 0).sum).sum

def lossMetric (metrics : Metrics K) : K :=
  match metrics.lookup .loss with
  | some (.finite value) => value
  | _ => 0

end Microbatch

structure StepResult (G K : Type) where
  gradient : G
  allMbMetrics : List (List (Metrics K))
  globalLoss : K
  globalValidSeqs : K
  globalValidToks : K

section OneShot

def processGlobalBatch (ranks : List (RankCalls ρ)) : GlobalValid K where
  seqs := (ranks.map fun calls ↦ localValidSeqs data calls.flatten.flatten).sum
  toks := (ranks.map fun calls ↦ localValidToks data calls.flatten.flatten).sum

def train (ranks : List (RankCalls ρ)) : Except LossError (StepResult G K) := do
  let n := processGlobalBatch data ranks
  let results ← ranks.mapM fun calls ↦ calls.flatten.mapM (forwardBackward m fn data f n)
  return {
    gradient := (results.map fun rank ↦ (rank.map Prod.fst).sum).sum
    allMbMetrics := results.map fun rank ↦ rank.map Prod.snd
    globalLoss := (results.map fun rank ↦ (rank.map fun mb ↦ lossMetric mb.2).sum).sum
    globalValidSeqs := n.seqs
    globalValidToks := n.toks }

end OneShot

section Split

structure TrainStepState (G K : Type) where
  localValidSeqs : K
  localValidToks : K
  mainGrad : G
  allMbMetrics : List (Metrics K)
  mbLosses : List K

def beginTrainStep : TrainStepState G K := ⟨0, 0, 0, [], []⟩

def trainMicrobatch (state : TrainStepState G K) (call : List (List ρ)) :
    Except LossError (TrainStepState G K) := do
  let results ← call.mapM (forwardBackward m fn data f .placeholder)
  return {
    localValidSeqs := state.localValidSeqs + localValidSeqs data call.flatten
    localValidToks := state.localValidToks + localValidToks data call.flatten
    mainGrad := state.mainGrad + (results.map Prod.fst).sum
    allMbMetrics := state.allMbMetrics ++ results.map Prod.snd
    mbLosses := state.mbLosses ++ results.map fun mb ↦ lossMetric mb.2 }

def isExtremum (key : MetricKey) : Bool :=
  "_min".toList <:+: key.name.toList ∨ "_max".toList <:+: key.name.toList

def scaleValue (scale : K) : MetricValue K → MetricValue K
  | .finite value => .finite (value * scale)
  | value => value

def scaleMetric (n : GlobalValid K) (item : MetricKey × MetricValue K) :
    MetricKey × MetricValue K :=
  if isExtremum item.1 then item
  else match fn.metricNormalizations item.1 with
    | some .none => item
    | some .tokens => (item.1, scaleValue n.toks⁻¹ item.2)
    | some .sequences => (item.1, scaleValue n.seqs⁻¹ item.2)
    | none => (item.1, scaleValue (n.normalizer fn.lossType)⁻¹ item.2)

def safeCount (count : K) : K := if 0 < count then count else 1

def finishTrainStep (states : List (TrainStepState G K)) : StepResult G K :=
  let n : GlobalValid K :=
    ⟨(states.map TrainStepState.localValidSeqs).sum, (states.map TrainStepState.localValidToks).sum⟩
  let safe : GlobalValid K := ⟨safeCount n.seqs, safeCount n.toks⟩
  let invN := (safe.normalizer fn.lossType)⁻¹
  { gradient := (states.map fun state ↦ invN • state.mainGrad).sum
    allMbMetrics := states.map fun state ↦ state.allMbMetrics.map fun metrics ↦
      metrics.map (scaleMetric fn safe)
    globalLoss := (states.map fun state ↦ (state.mbLosses.map fun loss ↦ loss * invN).sum).sum
    globalValidSeqs := n.seqs
    globalValidToks := n.toks }

/-- `begin_train_step`, the `train_microbatch` calls of every rank and `finish_train_step`. -/
def splitTrainStep (ranks : List (RankCalls ρ)) : Except LossError (StepResult G K) := do
  let states ← ranks.mapM fun calls ↦ calls.foldlM (trainMicrobatch m fn data f) beginTrainStep
  return finishTrainStep fn states

end Split

/-- The split step hands the optimizer the same gradient and reports the same
metrics as `train`, whatever the model is. -/
def SplitStepExact (ranks : List (RankCalls ρ)) : Prop :=
  ∀ (Θ G : Type) [AddCommGroup G] [Module K G] (f : Forward ρ Θ G K),
    splitTrainStep m fn data f ranks = train m fn data f ranks

end NemoRL.Models.Policy
