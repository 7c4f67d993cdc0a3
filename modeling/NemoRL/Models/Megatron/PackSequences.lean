import Mathlib
import NemoRL.Distributed.ContextParallel

namespace NemoRL.Models.Megatron

open Distributed.ContextParallel

variable {α : Type}

def roundUpToMultiple (value multiple : ℕ) : ℕ :=
  if value % multiple ≠ 0 then (value + multiple - 1) / multiple * multiple else value

inductive PackError
  /-- `make_sequence_length_divisible_by` is not a multiple of `minimum_pad_factor`. -/
  | minimumPadFactor (padIndividualSeqsToMultipleOf minimumPadFactor : ℕ)
  /-- `pad_packed_seq_to` is not a multiple of `pad_packed_seq_to_multiple_of`. -/
  | padPackedSeqTo (padPackedSeqTo padPackedSeqToMultipleOf : ℕ)
  /-- `max()` of no lengths. -/
  | emptyBatch
  deriving DecidableEq, Repr

section Parameters

structure Fp8Cfg where
  enabled : Bool := false
  fp8Recipe : String

structure MegatronCfg where
  tensorModelParallelSize : ℕ
  sequenceParallel : Bool
  pipelineModelParallelSize : ℕ
  contextParallelSize : ℕ
  fp8Cfg : Option Fp8Cfg := none
  moeTokenDispatcherType : Option String := none
  moeFlexDispatcherBackend : Option String := none

def getFp8TokenAlignment (cfg : MegatronCfg) : ℕ :=
  match cfg.fp8Cfg with
  | none => 1
  | some fp8 =>
    if !fp8.enabled then 1
    else if fp8.fp8Recipe = "blockwise" then 128
    else if fp8.fp8Recipe = "mxfp8" then 32
    else 16

def minimumPadFactor (cfg : MegatronCfg) : ℕ :=
  let factor := if cfg.contextParallelSize > 1 then cfg.contextParallelSize * 2 else 1
  if cfg.tensorModelParallelSize > 1 ∧ cfg.sequenceParallel then
    factor * cfg.tensorModelParallelSize
  else factor

def packedMultiple (cfg : MegatronCfg) : ℕ :=
  let divisor := getFp8TokenAlignment cfg
  let divisor := if cfg.moeTokenDispatcherType = some "flex" ∧
    cfg.moeFlexDispatcherBackend = some "hybridep" then max divisor 128 else divisor
  if divisor > 1 then
    let multiple := if cfg.contextParallelSize > 1 then divisor * (cfg.contextParallelSize * 2)
      else divisor
    if cfg.tensorModelParallelSize > 1 ∧ cfg.sequenceParallel then
      multiple * cfg.tensorModelParallelSize
    else multiple
  else 1

/-- `(pad_individual_seqs_to_multiple_of, pad_packed_seq_to_multiple_of, pad_packed_seq_to)`. -/
def getPackSequenceParametersForMegatron (cfg : MegatronCfg)
    (padIndividualSeqsToMultipleOf maxSeqLenInBatch : ℕ) : Except PackError (ℕ × ℕ × Option ℕ) :=
  if padIndividualSeqsToMultipleOf % minimumPadFactor cfg ≠ 0 then
    .error (.minimumPadFactor padIndividualSeqsToMultipleOf (minimumPadFactor cfg))
  else
    let padPackedSeqTo := if cfg.pipelineModelParallelSize > 1 then
      some (roundUpToMultiple maxSeqLenInBatch (packedMultiple cfg)) else none
    .ok (padIndividualSeqsToMultipleOf, packedMultiple cfg, padPackedSeqTo)

end Parameters

section Pack

structure PackedSequences (α : Type) where
  allInputIds : List α
  packedInputIds : List α
  maxSeqlen : ℕ
  cuSeqlens : List ℕ
  cuSeqlensPadded : List ℕ

def cumulative (lengths : List ℕ) : List ℕ :=
  lengths.foldl (fun cuSeqlens n ↦ cuSeqlens ++ [cuSeqlens.getLastD 0 + n]) [0]

variable (padFactor padPackedSeqToMultipleOf : ℕ) (padPackedSeqTo : Option ℕ)

def needsPadding : Bool :=
  padFactor > 1 ∨ padPackedSeqToMultipleOf > 1 ∨ padPackedSeqTo.isSome

/-- The packed length that a length without the padding of the pack is padded to. -/
def packedLength (n : ℕ) : ℕ :=
  match padPackedSeqTo with
  | some length => length
  | none => if padPackedSeqToMultipleOf > 1 then roundUpToMultiple n padPackedSeqToMultipleOf else n

def paddedBoundaries (seqLengths : List ℕ) : List ℕ :=
  let cuSeqlensPadded := cumulative (seqLengths.map (roundUpToMultiple · padFactor))
  cuSeqlensPadded.set (cuSeqlensPadded.length - 1)
    (packedLength padPackedSeqToMultipleOf padPackedSeqTo (cuSeqlensPadded.getLastD 0))

def padSequences (pad : α) : ℕ → List (List α × ℕ) → List (List α)
  | _, [] => []
  | runningSeqLen, (inputIds, seqLen) :: rest =>
    let paddedSeqLen := roundUpToMultiple seqLen padFactor
    let paddedSeqLen := if rest.isEmpty then
      packedLength padPackedSeqToMultipleOf padPackedSeqTo (runningSeqLen + paddedSeqLen) -
        runningSeqLen
      else paddedSeqLen
    (inputIds.take seqLen ++ List.replicate (paddedSeqLen - seqLen) pad) ::
      padSequences pad (runningSeqLen + paddedSeqLen) rest

/-- A row of input ids and its length, for each sample, packed for one rank. -/
def packSequencesForMegatron (pad : α) (samples : List (List α × ℕ)) (cpRank cpSize : ℕ) :
    Except PackError (PackedSequences α) :=
  let seqLengths := samples.map Prod.snd
  let cuSeqlens := cumulative seqLengths
  let cuSeqlensPadded := if needsPadding padFactor padPackedSeqToMultipleOf padPackedSeqTo then
    paddedBoundaries padFactor padPackedSeqToMultipleOf padPackedSeqTo seqLengths else cuSeqlens
  let maxSeqlen := (List.zipWith (· - ·) cuSeqlensPadded.tail cuSeqlensPadded).foldl max 0
  match padPackedSeqTo.filter (· % padPackedSeqToMultipleOf ≠ 0) with
  | some length => .error (.padPackedSeqTo length padPackedSeqToMultipleOf)
  | none =>
    if samples = [] then .error .emptyBatch
    else if padFactor > 1 then
      let allInputIds := padSequences padFactor padPackedSeqToMultipleOf padPackedSeqTo pad 0 samples
      .ok { allInputIds := allInputIds.flatten
            packedInputIds := allInputIds.flatMap fun seqTokens ↦
              if cpSize > 1 then getTokensOnThisCpRank cpRank cpSize seqTokens else seqTokens
            maxSeqlen, cuSeqlens, cuSeqlensPadded }
    else
      let validTokens := samples.flatMap fun x ↦ x.1.take x.2
      let padLen := packedLength padPackedSeqToMultipleOf padPackedSeqTo validTokens.length -
        validTokens.length
      let allInputIds := validTokens ++ List.replicate padLen pad
      .ok { allInputIds, packedInputIds := allInputIds, maxSeqlen, cuSeqlens, cuSeqlensPadded }

end Pack

end NemoRL.Models.Megatron
