import Mathlib

namespace NemoRL.Algorithms

structure TensorMath (K : Type) [Zero K] where
  sqrt : K → K
  exp : K → K
  log : K → K
  sqrt_zero : sqrt 0 = 0

variable {K : Type} [Field K] [LinearOrder K]

def clamp (lo hi x : K) : K := min (max x lo) hi

inductive KlType
  | k1
  | k2
  | k3
  deriving DecidableEq

/-- `calculate_kl` of one token. The weight stands with its detached copy, which
replaces it where the input is clamped. -/
def calculateKl (m : TensorMath K) (klType : KlType) (inputClampValue outputClampValue : Option K)
    (importanceSamplingWeights : Option (K × K)) (logprobs logprobsReference : K) : K :=
  let unclamped := logprobsReference - logprobs
  let logr := match inputClampValue with
    | some c => clamp (-c) c unclamped
    | none => unclamped
  let kl := match klType with
    | .k1 => -logr
    | .k2 => logr ^ 2 / 2
    | .k3 => m.exp logr - 1 - logr
  let kl := match importanceSamplingWeights with
    | some (w, detached) => (if unclamped = logr then w else detached) * kl
    | none => kl
  match outputClampValue with
  | some c => clamp (-c) c kl
  | none => kl

def rationalSqrt (x : ℚ) : ℚ := (Nat.sqrt x.num.toNat : ℚ) / Nat.sqrt x.den

theorem rationalSqrt_zero : rationalSqrt 0 = 0 := by simp [rationalSqrt]

def rationalMath : TensorMath ℚ := ⟨rationalSqrt, fun _ ↦ 1, fun _ ↦ 0, rationalSqrt_zero⟩

end NemoRL.Algorithms
