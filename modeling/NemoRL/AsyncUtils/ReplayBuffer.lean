import Mathlib
import NemoRL.Foundations.Positions

namespace NemoRL.AsyncUtils

open Foundations.Positions

/-- Per-prompt groups with the version that generated each of them and the
training step it is meant for, in three parallel lists. -/
structure ReplayBufferImpl (τ : Type) where
  maxSize : ℕ
  dropIncompleteTargetsOnRestore : Bool
  trajectories : List τ
  trajectoryVersions : List ℕ
  targetWeightVersions : List ℕ
  lastTargetWeightAlreadyGenerated : ℤ
  maxSize_pos : 0 < maxSize

inductive AddStatus
  | success
  | full
  deriving DecidableEq

inductive SampleResult (τ : Type)
  | insufficient
  | data (trajectories : List τ) (avgTrajectoryAge : ℚ)
  /-- The average age of an empty selection. -/
  | zeroDivision

def SampleResult.items {τ : Type} : SampleResult τ → List τ
  | .data trajectories _ => trajectories
  | _ => []

/-- A saved state, of which any key may be missing. -/
structure ReplayState (τ : Type) where
  trajectories : Option (List τ)
  trajectoryVersions : Option (List ℕ)
  targetWeightVersions : Option (List ℕ)
  lastTargetWeightAlreadyGenerated : Option ℤ

inductive ReplayLoadError
  | missingKeys (keys : List String)
  | inconsistentLengths (trajectories trajectoryVersions targetWeightVersions : ℕ)
  deriving DecidableEq

namespace ReplayBufferImpl

variable {τ : Type}

def empty (maxSize : ℕ) (dropIncomplete : Bool) (h : 0 < maxSize) : ReplayBufferImpl τ :=
  ⟨maxSize, dropIncomplete, [], [], [], -1, h⟩

def add (b : ReplayBufferImpl τ) (trajectory : τ) (weightVersion targetWeightVersion : ℕ) :
    ReplayBufferImpl τ × AddStatus :=
  if b.trajectories.length ≥ b.maxSize then (b, .full)
  else
    ({ b with
        trajectories := b.trajectories ++ [trajectory]
        trajectoryVersions := b.trajectoryVersions ++ [weightVersion]
        targetWeightVersions := b.targetWeightVersions ++ [targetWeightVersion] }, .success)

def removeIndices (b : ReplayBufferImpl τ) (idxs : List ℕ) : ReplayBufferImpl τ :=
  { b with
    trajectories := dropAll b.trajectories idxs
    trajectoryVersions := dropAll b.trajectoryVersions idxs
    targetWeightVersions := dropAll b.targetWeightVersions idxs }

def keepIndices (b : ReplayBufferImpl τ) (idxs : List ℕ) : ReplayBufferImpl τ :=
  { b with
    trajectories := entriesAt b.trajectories idxs
    trajectoryVersions := entriesAt b.trajectoryVersions idxs
    targetWeightVersions := entriesAt b.targetWeightVersions idxs }

/-- The rows `sample` may hand out at a version: the positions within the age
window, and those of them whose target is the version. -/
def intendedIndices (b : ReplayBufferImpl τ) (minValidVersion currentWeightVersion : ℕ) :
    List ℕ × List ℕ :=
  let valid := indicesWhere (fun v ↦ decide (minValidVersion ≤ v ∧ v ≤ currentWeightVersion))
    b.trajectoryVersions
  (valid, valid.filter fun i ↦
    (b.targetWeightVersions[i]?).any fun t ↦ decide (t = currentWeightVersion))

def takeIntended (b : ReplayBufferImpl τ) (numPromptGroups minValidVersion
    currentWeightVersion : ℕ) : ReplayBufferImpl τ × SampleResult τ :=
  let (valid, intended) := b.intendedIndices minValidVersion currentWeightVersion
  if valid = [] ∨ valid.length < numPromptGroups then (b, .insufficient)
  else if intended.length < numPromptGroups then (b, .insufficient)
  else
    let selected := intended.take numPromptGroups
    let sampledWeights := entriesAt b.trajectoryVersions selected
    if sampledWeights = [] then (b, .zeroDivision)
    else
      ({ b.removeIndices selected with
          lastTargetWeightAlreadyGenerated :=
            max b.lastTargetWeightAlreadyGenerated currentWeightVersion },
        .data (entriesAt b.trajectories selected)
          (currentWeightVersion - (sampledWeights.sum : ℚ) / sampledWeights.length))

def sample (b : ReplayBufferImpl τ) (numPromptGroups currentWeightVersion maxAgeSteps : ℕ) :
    ReplayBufferImpl τ × SampleResult τ :=
  if b.trajectories = [] then (b, .insufficient)
  else
    let minValidVersion := currentWeightVersion - maxAgeSteps
    let oldIndices := indicesWhere (fun v ↦ decide (v < minValidVersion)) b.trajectoryVersions
    (b.removeIndices oldIndices).takeIntended numPromptGroups minValidVersion currentWeightVersion

def clear (b : ReplayBufferImpl τ) : ReplayBufferImpl τ :=
  { b with trajectories := [], trajectoryVersions := [], targetWeightVersions := [] }

def isValidForTarget (trajectoryVersion targetStep : ℕ) (maxAgeSteps : Option ℕ) : Bool :=
  match maxAgeSteps with
  | none => true
  | some age => decide (targetStep - age ≤ trajectoryVersion ∧ trajectoryVersion ≤ targetStep)

def removeStaleTrajectories (b : ReplayBufferImpl τ) (maxAgeSteps : ℕ) : ReplayBufferImpl τ :=
  b.removeIndices (indicesWhere (fun x ↦ !isValidForTarget x.1 x.2 (some maxAgeSteps))
    (b.trajectoryVersions.zip b.targetWeightVersions))

def completeIndices (b : ReplayBufferImpl τ) (numPromptsPerStep : ℕ) : List ℕ :=
  indicesWhere (fun t ↦ decide (numPromptsPerStep ≤ b.targetWeightVersions.count t))
    b.targetWeightVersions

def prepareForTrainingStep (b : ReplayBufferImpl τ) (currentStep numPromptsPerStep : ℕ) :
    ReplayBufferImpl τ :=
  let b := b.keepIndices (indicesWhere (fun t ↦ decide (currentStep ≤ t)) b.targetWeightVersions)
  let b := if b.dropIncompleteTargetsOnRestore then
      b.keepIndices (b.completeIndices numPromptsPerStep) else b
  { b with lastTargetWeightAlreadyGenerated := (currentStep : ℤ) - 1 }

def removeIncompleteTargetSteps (b : ReplayBufferImpl τ) (numPromptsPerStep : ℕ) :
    ReplayBufferImpl τ :=
  if b.targetWeightVersions.all fun t ↦
      decide (numPromptsPerStep ≤ b.targetWeightVersions.count t) then b
  else
    let b := b.keepIndices (b.completeIndices numPromptsPerStep)
    { b with lastTargetWeightAlreadyGenerated :=
        match b.targetWeightVersions.min? with
        | some first => min b.lastTargetWeightAlreadyGenerated ((first : ℤ) - 1)
        | none => -1 }

/-- The order of `prioritized_indices`: smaller target first, then position. -/
def Prior (targets : List ℕ) (i j : ℕ) : Prop :=
  let target := fun k ↦ (targets[k]?).getD 0
  target i < target j ∨ (target i = target j ∧ i ≤ j)

instance (targets : List ℕ) (i j : ℕ) : Decidable (Prior targets i j) :=
  inferInstanceAs (Decidable (_ ∨ _))

def truncateToMaxSize (b : ReplayBufferImpl τ) (currentTrainingStep : Option ℕ) :
    ReplayBufferImpl τ :=
  let size := b.trajectories.length
  if size ≤ b.maxSize then b
  else match currentTrainingStep with
    | none => b.keepIndices (List.range' (size - b.maxSize) b.maxSize)
    | some _ => b.keepIndices
        ((((List.range size).insertionSort (Prior b.targetWeightVersions)).take
          b.maxSize).insertionSort (· ≤ ·))

/-- The filter of stale rows, which a restore may go without. -/
def filterStale (b : ReplayBufferImpl τ) (maxAgeSteps : Option ℕ) : ReplayBufferImpl τ :=
  match maxAgeSteps with
  | some age => b.removeStaleTrajectories age
  | none => b

/-- The treatment of incomplete targets that the arguments of a restore select. -/
def prepareTargets (b : ReplayBufferImpl τ) (currentTrainingStep numPromptsPerStep : Option ℕ) :
    ReplayBufferImpl τ :=
  match currentTrainingStep, numPromptsPerStep with
  | some currentStep, some num => b.prepareForTrainingStep currentStep num
  | none, some num => if b.trajectories = [] then b else b.removeIncompleteTargetSteps num
  | _, none => b

def loadStateDict (b : ReplayBufferImpl τ) (state : ReplayState τ)
    (numPromptsPerStep currentTrainingStep maxAgeSteps : Option ℕ) :
    Except ReplayLoadError (ReplayBufferImpl τ) :=
  match state with
  | ⟨some trajectories, some trajectoryVersions, some targetWeightVersions, some last⟩ =>
    if trajectories.length = trajectoryVersions.length ∧
        trajectoryVersions.length = targetWeightVersions.length then
      let b := { b with
        trajectories := trajectories
        trajectoryVersions := trajectoryVersions
        targetWeightVersions := targetWeightVersions
        lastTargetWeightAlreadyGenerated := last }
      .ok (((b.filterStale maxAgeSteps).prepareTargets currentTrainingStep
        numPromptsPerStep).truncateToMaxSize currentTrainingStep)
    else .error (.inconsistentLengths trajectories.length trajectoryVersions.length
      targetWeightVersions.length)
  | ⟨ts, vs, gs, last⟩ =>
    .error (.missingKeys ((if ts.isNone then ["trajectories"] else []) ++
      (if vs.isNone then ["trajectory_versions"] else []) ++
      (if gs.isNone then ["target_weight_versions"] else []) ++
      if last.isNone then ["last_target_weight_already_generated"] else []))

end ReplayBufferImpl

end NemoRL.AsyncUtils
