import Mathlib
import NemoRL.Algorithms.Loss.LossInput

namespace NemoRL.Algorithms.Loss

inductive TruncatedType
  | tis
  | icepop
  | seqMaskTis
  deriving DecidableEq

/-- `ClippedPGLossFn` as its constructor leaves it. -/
structure ClippedPGLossFn (K : Type) [Zero K] [LinearOrder K] where
  disablePpoRatio : Bool
  ratioClipMin : K
  ratioClipMax : K
  ratioClipC : Option K
  referencePolicyKlPenalty : K
  referencePolicyKlType : KlType
  klInputClampValue : Option K
  klOutputClampValue : Option K
  useImportanceSamplingCorrection : Bool
  truncatedImportanceSamplingType : Option TruncatedType
  truncatedImportanceSamplingRatio : Option K
  truncatedImportanceSamplingRatioMin : Option K
  useOnPolicyKlApproximation : Bool
  forceOnPolicyRatio : Bool
  sequenceLevelImportanceRatios : Bool
  positiveExampleNllWeight : K
  lossType : LossType
  useCispo : Bool
  lossType_sequence : sequenceLevelImportanceRatios = true → lossType = .sequenceLevel
  cispo : useCispo = true → disablePpoRatio = false ∧ forceOnPolicyRatio = false ∧
    sequenceLevelImportanceRatios = false ∧ ratioClipC = none ∧ lossType = .tokenLevel
  truncated : ∀ type ∈ truncatedImportanceSamplingType, useImportanceSamplingCorrection = true ∧
    ∃ ratio ∈ truncatedImportanceSamplingRatio, 0 < ratio ∧
      (∀ lower ∈ truncatedImportanceSamplingRatioMin, lower ≤ ratio) ∧
      (type ≠ .tis → truncatedImportanceSamplingRatioMin.isSome) ∧
      (type = .seqMaskTis → sequenceLevelImportanceRatios = false)

inductive LossError
  | ratioClipCNotAboveOne
  | invalidTruncatedType
  deriving DecidableEq

/-- The keys of the returned metrics. -/
inductive MetricKey
  | loss
  | probsRatio
  | probsRatioClamped
  | probsRatioMin
  | probsRatioMax
  | probsRatioClampedMin
  | probsRatioClampedMax
  | klPenalty
  | tokenMultProbError
  | genKlError
  | policyKlError
  | jsDivergenceError
  | samplingImportanceRatio
  | numValidSamples
  | approxEntropy
  | isOobRatio
  | positiveNllLoss
  deriving DecidableEq

def MetricKey.name : MetricKey → String
  | .loss => "loss"
  | .probsRatio => "probs_ratio"
  | .probsRatioClamped => "probs_ratio_clamped"
  | .probsRatioMin => "probs_ratio_min"
  | .probsRatioMax => "probs_ratio_max"
  | .probsRatioClampedMin => "probs_ratio_clamped_min"
  | .probsRatioClampedMax => "probs_ratio_clamped_max"
  | .klPenalty => "kl_penalty"
  | .tokenMultProbError => "token_mult_prob_error"
  | .genKlError => "gen_kl_error"
  | .policyKlError => "policy_kl_error"
  | .jsDivergenceError => "js_divergence_error"
  | .samplingImportanceRatio => "sampling_importance_ratio"
  | .numValidSamples => "num_valid_samples"
  | .approxEntropy => "approx_entropy"
  | .isOobRatio => "is_oob_ratio"
  | .positiveNllLoss => "positive_nll_loss"

namespace ClippedPGLossFn

variable {K : Type} [Field K] [LinearOrder K] (m : TensorMath K) (fn : ClippedPGLossFn K)

def metricNormalizations : MetricKey → Option MetricNormalizer
  | .loss | .klPenalty =>
    some (if fn.lossType = .tokenLevel then .tokens else .sequences)
  | .probsRatio | .probsRatioClamped | .tokenMultProbError | .genKlError | .policyKlError
  | .jsDivergenceError | .approxEntropy => some .tokens
  | .samplingImportanceRatio =>
    some (if fn.sequenceLevelImportanceRatios then .sequences else .tokens)
  | .numValidSamples | .positiveNllLoss | .probsRatioMin | .probsRatioMax | .probsRatioClampedMin
  | .probsRatioClampedMax => some .none
  | .isOobRatio => fn.truncatedImportanceSamplingType.map fun type ↦
      if type = .seqMaskTis then .sequences else .tokens

section Tokens

variable (i : LossInput K) (t : ℕ)

def prevLogprobs : K :=
  if fn.forceOnPolicyRatio then i.detached.curr t else i.row.prevLogprobs (t + 1)

def multProbError : K := m.exp |i.row.generationLogprobs (t + 1) - fn.prevLogprobs i t|

def genKlError : K :=
  calculateKl m fn.referencePolicyKlType none none none (i.row.generationLogprobs (t + 1))
    (fn.prevLogprobs i t)

def policyKlError : K :=
  calculateKl m fn.referencePolicyKlType none none none (fn.prevLogprobs i t)
    (i.row.generationLogprobs (t + 1))

theorem two_atLeastTwo : Nat.AtLeastTwo 2 := inferInstance

attribute [local instance] two_atLeastTwo in
def jsDivergenceError : K :=
  let prev := fn.prevLogprobs i t
  let gen := i.row.generationLogprobs (t + 1)
  let mixture := m.log (1 / 2 * m.exp prev + 1 / 2 * m.exp gen)
  1 / 2 * (m.exp (prev - mixture) - (prev - mixture) - 1) +
    1 / 2 * (m.exp (gen - mixture) - (gen - mixture) - 1)

def tokenKl : K :=
  let base := if fn.useOnPolicyKlApproximation then i.row.generationLogprobs (t + 1)
    else i.detached.unfiltered t
  fn.referencePolicyKlPenalty * calculateKl m fn.referencePolicyKlType fn.klInputClampValue
    fn.klOutputClampValue
    (some (m.exp (i.live.unfiltered t - base), m.exp (i.detached.unfiltered t - base)))
    (i.live.unfiltered t) (i.row.referencePolicyLogprobs (t + 1))

def ratios : K :=
  if fn.forceOnPolicyRatio then m.exp (i.live.curr t - i.detached.curr t)
  else if fn.disablePpoRatio then i.live.curr t
  else if fn.sequenceLevelImportanceRatios then
    m.exp (i.rowMean fun s ↦ i.live.curr s - fn.prevLogprobs i s)
  else m.exp (i.live.curr t - fn.prevLogprobs i t)

def ratiosClamped : K :=
  if fn.forceOnPolicyRatio ∨ fn.disablePpoRatio then fn.ratios m i t
  else clamp (1 - fn.ratioClipMin) (1 + fn.ratioClipMax) (fn.ratios m i t)

def clipLoss : K :=
  let advantage := i.row.advantages (t + 1)
  let clipLoss :=
    if fn.useCispo then -advantage * fn.ratiosClamped m i.frozen t * i.live.curr t
    else max (-advantage * fn.ratios m i t) (-advantage * fn.ratiosClamped m i t)
  match fn.ratioClipC with
  | none => clipLoss
  | some c => if advantage < 0 then min clipLoss (-advantage * c) else clipLoss

/-- The importance weight before it is truncated; one for the sequence where
the ratios are of sequences. -/
def actorImportanceWeight : K :=
  if fn.sequenceLevelImportanceRatios then
    m.exp (i.tokenSum fun s ↦ fn.prevLogprobs i s - i.row.generationLogprobs (s + 1))
  else m.exp (fn.prevLogprobs i t - i.row.generationLogprobs (t + 1))

/-- The geometric mean of a sequence's importance ratios lies within the bounds. -/
def seqKept (lower upper : K) : Prop :=
  let geomean := m.exp (i.rowMean fun s ↦ fn.prevLogprobs i s - i.row.generationLogprobs (s + 1))
  lower ≤ geomean ∧ geomean ≤ upper

instance (lower upper : K) : Decidable (fn.seqKept m i lower upper) :=
  inferInstanceAs (Decidable (_ ∧ _))

def truncatedWeight : K :=
  let weight := fn.actorImportanceWeight m i t
  let lower := fn.truncatedImportanceSamplingRatioMin.getD 0
  match fn.truncatedImportanceSamplingRatio, fn.truncatedImportanceSamplingType with
  | some upper, some .tis => clamp lower upper weight
  | some upper, some .icepop => if lower ≤ weight ∧ weight ≤ upper then weight else 0
  | some upper, some .seqMaskTis => weight * if fn.seqKept m i lower upper then 1 else 0
  | _, _ => weight

/-- The token is out of the bounds of the truncation. -/
def tokenOob (upper : K) : K :=
  let weight := fn.actorImportanceWeight m i t
  let lower := fn.truncatedImportanceSamplingRatioMin.getD 0
  if lower ≤ weight ∧ weight ≤ upper then 0 else 1

def weightedClipLoss : K :=
  (if fn.useImportanceSamplingCorrection then fn.truncatedWeight m i t else 1) * fn.clipLoss m i t

def entropyTerm : K :=
  m.exp (i.live.curr t - i.row.generationLogprobs (t + 1)) * i.live.curr t

end Tokens

def correctPositions (i : LossInput K) : List ℕ :=
  if ∃ reward ∈ i.row.reward, 0 < reward then i.validPositions else []

section Call

variable (n : GlobalValid K) (inputs : List (LossInput K))

def check : Except LossError Unit :=
  if ∃ c ∈ fn.ratioClipC, c ≤ 1 then .error .ratioClipCNotAboveOne
  else if fn.truncatedImportanceSamplingRatio.isSome ∧
      fn.truncatedImportanceSamplingType.isNone then .error .invalidTruncatedType
  else .ok ()

def klLoss : K :=
  if fn.referencePolicyKlPenalty ≠ 0 then reduceLoss n inputs fn.lossType (fn.tokenKl m) else 0

def actorLoss : K := reduceLoss n inputs fn.lossType (fn.weightedClipLoss m)

/-- The loss of the positive examples, by the call's own count of their tokens. -/
def nllLoss : K :=
  let correctValidToks : K := ((inputs.map fun i ↦ (correctPositions i).length).sum : ℕ)
  if 0 < fn.positiveExampleNllWeight ∧ 0 < correctValidToks then
    (inputs.map fun i ↦ ((correctPositions i).map fun t ↦ -i.live.curr t).sum).sum /
      correctValidToks
  else 0

def loss : K :=
  fn.actorLoss m n inputs + fn.klLoss m n inputs +
    fn.positiveExampleNllWeight * fn.nllLoss inputs

def maskedRatios (ratio : LossInput K → ℕ → K) : List K :=
  inputs.flatMap fun i ↦ i.validPositions.map (ratio i)

def minimum (values : List K) : MetricValue K := values.min?.elim .posInf .finite

def maximum (values : List K) : MetricValue K := values.max?.elim .negInf .finite

def isOobRatio : Option K :=
  match fn.truncatedImportanceSamplingRatio, fn.truncatedImportanceSamplingType with
  | some upper, some .tis | some upper, some .icepop =>
    some (maskedMean inputs n.toks fun i t ↦ fn.tokenOob m i t upper)
  | some upper, some .seqMaskTis =>
    some (sampleMean inputs n.seqs fun i ↦
      1 - if fn.seqKept m i (fn.truncatedImportanceSamplingRatioMin.getD 0) upper then 1 else 0)
  | _, _ => none

def samplingImportanceRatio : K :=
  if fn.sequenceLevelImportanceRatios then
    sampleMean inputs n.seqs fun i ↦ fn.truncatedWeight m i 0
  else maskedMean inputs n.toks (fn.truncatedWeight m)

/-- The metrics that `__call__` returns, of the forward values. -/
def metrics : List (MetricKey × MetricValue K) :=
  let inputs := inputs.map LossInput.frozen
  let kl := fn.klLoss m n inputs
  [(.loss, .finite (fn.loss m n inputs)),
    (.probsRatio, .finite (maskedMean inputs n.toks (fn.ratios m))),
    (.probsRatioClamped, .finite (maskedMean inputs n.toks (fn.ratiosClamped m))),
    (.probsRatioMin, minimum (maskedRatios inputs (fn.ratios m))),
    (.probsRatioMax, maximum (maskedRatios inputs (fn.ratios m))),
    (.probsRatioClampedMin, minimum (maskedRatios inputs (fn.ratiosClamped m))),
    (.probsRatioClampedMax, maximum (maskedRatios inputs (fn.ratiosClamped m))),
    (.klPenalty, .finite (if kl ≠ 0 then kl / fn.referencePolicyKlPenalty else 0)),
    (.tokenMultProbError, .finite (maskedMean inputs n.toks (fn.multProbError m))),
    (.genKlError, .finite (maskedMean inputs n.toks (fn.genKlError m))),
    (.policyKlError, .finite (maskedMean inputs n.toks (fn.policyKlError m))),
    (.jsDivergenceError, .finite (maskedMean inputs n.toks (fn.jsDivergenceError m))),
    (.samplingImportanceRatio, .finite (fn.samplingImportanceRatio m n inputs)),
    (.numValidSamples, .finite (inputs.map fun i ↦ i.sampleTerm 1).sum),
    (.approxEntropy, .finite (-maskedMean inputs n.toks (entropyTerm m)))] ++
  (fn.isOobRatio m n inputs).toList.map (fun ratio ↦ (.isOobRatio, .finite ratio)) ++
  [(.positiveNllLoss, .finite (fn.nllLoss inputs))]

end Call

end ClippedPGLossFn

end NemoRL.Algorithms.Loss
