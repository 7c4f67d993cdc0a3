import Mathlib
import NemoRL.Algorithms.TensorMath

namespace NemoRL.Algorithms.Loss

structure LossRow (K : Type) where
  width : ℕ
  tokenMask : ℕ → Bool
  sampleMask : Bool
  advantages : ℕ → K
  prevLogprobs : ℕ → K
  generationLogprobs : ℕ → K
  referencePolicyLogprobs : ℕ → K
  reward : Option K

/-- `next_token_logprobs` and `curr_logprobs_unfiltered` of a sequence: position
`t` predicts token `t + 1`. -/
structure Logprobs (K : Type) where
  curr : ℕ → K
  unfiltered : ℕ → K

/-- A sequence with its log-probabilities, and with their detached copy. -/
structure LossInput (K : Type) where
  row : LossRow K
  live : Logprobs K
  detached : Logprobs K

namespace LossInput

variable {K : Type} [Field K]

def frozen (i : LossInput K) : LossInput K := { i with live := i.detached }

def positions (i : LossInput K) : List ℕ := List.range (i.row.width - 1)

def mask (i : LossInput K) (t : ℕ) : Bool := i.row.tokenMask (t + 1) && i.row.sampleMask

def validPositions (i : LossInput K) : List ℕ := i.positions.filter i.mask

def tokenSum (i : LossInput K) (values : ℕ → K) : K := (i.validPositions.map values).sum

def rowMean (i : LossInput K) (values : ℕ → K) : K :=
  let tokens := i.positions.filter fun t ↦ i.row.tokenMask (t + 1)
  (tokens.map values).sum / tokens.length

def sampleTerm (i : LossInput K) (value : K) : K := if i.row.sampleMask then value else 0

end LossInput

inductive LossType
  | tokenLevel
  | sequenceLevel
  deriving DecidableEq

structure GlobalValid (K : Type) where
  seqs : K
  toks : K

section MaskedMean

variable {K : Type} [Field K] (n : GlobalValid K) (inputs : List (LossInput K))

def maskedMean (normalization : K) (values : LossInput K → ℕ → K) : K :=
  (inputs.map fun i ↦ i.tokenSum (values i)).sum / normalization

def sampleMean (normalization : K) (values : LossInput K → K) : K :=
  (inputs.map fun i ↦ i.sampleTerm (values i)).sum / normalization

def reduceLoss (lossType : LossType) (values : LossInput K → ℕ → K) : K :=
  match lossType with
  | .tokenLevel => maskedMean inputs n.toks values
  | .sequenceLevel => sampleMean inputs n.seqs fun i ↦ i.rowMean (values i)

end MaskedMean

/-- A number that a metric is reported as; the extrema of no values are infinite. -/
inductive MetricValue (K : Type)
  | finite (value : K)
  | posInf
  | negInf
  deriving DecidableEq

inductive MetricNormalizer
  | tokens
  | sequences
  | none
  deriving DecidableEq

end NemoRL.Algorithms.Loss
