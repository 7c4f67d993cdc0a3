import Mathlib
import NemoRL.Algorithms.Loss.ClippedPGLoss

namespace NemoRL.Algorithms.Loss

variable {K : Type} [Field K] {inputs : List (LossInput K)} {n : GlobalValid K}

/-- The placeholder counts of a call whose result is rescaled later. -/
def GlobalValid.placeholder : GlobalValid K := ⟨1, 1⟩

def GlobalValid.normalizer (n : GlobalValid K) : LossType → K
  | .tokenLevel => n.toks
  | .sequenceLevel => n.seqs

theorem maskedMean_scale (normalization : K) (values : LossInput K → ℕ → K) :
    maskedMean inputs 1 values * normalization⁻¹ = maskedMean inputs normalization values := by
  rw [maskedMean, maskedMean, div_one, div_eq_mul_inv]

theorem sampleMean_scale (normalization : K) (values : LossInput K → K) :
    sampleMean inputs 1 values * normalization⁻¹ = sampleMean inputs normalization values := by
  rw [sampleMean, sampleMean, div_one, div_eq_mul_inv]

theorem reduceLoss_scale (n : GlobalValid K) (lossType : LossType)
    (values : LossInput K → ℕ → K) :
    reduceLoss .placeholder inputs lossType values * (n.normalizer lossType)⁻¹ =
      reduceLoss n inputs lossType values := by
  cases lossType with
  | tokenLevel => exact maskedMean_scale n.toks values
  | sequenceLevel => exact sampleMean_scale n.seqs _

namespace ClippedPGLossFn

variable [LinearOrder K] {m : TensorMath K} {fn : ClippedPGLossFn K}

theorem actorLoss_scale (inputs : List (LossInput K)) (n : GlobalValid K) :
    fn.actorLoss m .placeholder inputs * (n.normalizer fn.lossType)⁻¹ = fn.actorLoss m n inputs :=
  reduceLoss_scale n fn.lossType _

theorem klLoss_scale (inputs : List (LossInput K)) (n : GlobalValid K) :
    fn.klLoss m .placeholder inputs * (n.normalizer fn.lossType)⁻¹ = fn.klLoss m n inputs := by
  rw [klLoss, klLoss]
  split_ifs
  · exact reduceLoss_scale n fn.lossType _
  · exact zero_mul _

/-- What the rescaled loss of a call differs by from the loss by the global counts. -/
theorem loss_scale (inputs : List (LossInput K)) (n : GlobalValid K) :
    fn.loss m .placeholder inputs * (n.normalizer fn.lossType)⁻¹ =
      fn.loss m n inputs +
        fn.positiveExampleNllWeight * fn.nllLoss inputs * ((n.normalizer fn.lossType)⁻¹ - 1) := by
  rw [loss, loss, ← actorLoss_scale inputs n, ← klLoss_scale inputs n]
  ring

end ClippedPGLossFn

end NemoRL.Algorithms.Loss
