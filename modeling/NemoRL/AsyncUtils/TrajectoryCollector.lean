import Mathlib
import NemoRL.Experience.Failures
import NemoRL.Foundations.Positions
import NemoRL.Foundations.Transition

namespace NemoRL.AsyncUtils.TrajectoryCollector

open Experience Foundations.Positions Foundations.Transition

/-- The exceptions of `_collect_rollout_batch` and of its push tasks. -/
inductive CollectError
  | indivisibleBatch
  | missingTaskIndex (groupIndex : ℕ) (rawTaskIndices : List (Option ℤ))
  | mixedTaskIndices (groupIndex : ℕ) (taskIndices : List ℤ)
  | duplicateTaskIndex (taskIndex : ℤ)
  | unexpectedGroup (groupIndex : ℤ)
  | wrongGroupSize (groupIndex : ℤ) (size numGenerations : ℕ)
  | yieldedTwice (groupIndex : ℤ)
  | stream (error : Exc)
  | push (error : Exc)
  | unexpectedStatus (status : String)
  | stopped
  | streamEnded (pending : List ℕ)

section TaskIndices

/-- `_build_task_index_map`, from the task index of each row. -/
def buildTaskIndexMap (taskIndices : List (Option ℤ)) (numGenerations promptGroupCount : ℕ) :
    Except CollectError (List (ℤ × ℕ)) :=
  (List.range promptGroupCount).foldlM (fun map groupIndex ↦
    let raw := (taskIndices.drop (groupIndex * numGenerations)).take numGenerations
    if none ∈ raw then .error (.missingTaskIndex groupIndex raw)
    else match raw.reduceOption.dedup with
      | [taskIndex] =>
        if taskIndex ∈ map.map Prod.fst then .error (.duplicateTaskIndex taskIndex)
        else .ok (map ++ [(taskIndex, groupIndex)])
      | indices => .error (.mixedTaskIndices groupIndex indices)) []

end TaskIndices

/-- Where a push task is: before a call of `add`, waiting for its answer, or done. -/
inductive PushPhase
  | waiting
  | adding
  | buffered
  | failed (error : CollectError)

structure Push where
  groupIndex : ℕ
  phase : PushPhase

def PushPhase.isDone : PushPhase → Bool
  | waiting | adding => false
  | buffered | failed _ => true

def PushPhase.error? : PushPhase → Option CollectError
  | failed error => some error
  | _ => none

inductive CollectPhase
  | streaming
  | gathering (streamError : Option CollectError)
  | sleeping
  | returned
  | raised (missing : List ℕ) (lastError : CollectError)

/-- One batch that is collected. The groups that `add` answered `success` for are
listed as the answers come. -/
structure CollectBatch where
  expectedPromptGroups : ℕ
  numGenerations : ℕ
  maxAttempts : ℕ
  running : Bool
  attempt : ℕ
  pushTasks : List Push
  scheduledGroupIndices : Finset ℕ
  bufferedGroupIndices : Finset ℕ
  phase : CollectPhase
  added : List ℕ

def maxNemoGymStreamRetries : ℕ := 3

def CollectBatch.start (repeatedBatchSize : ℕ) (numGenerations : ℤ) (useNemoGym : Bool)
    (taskIndices : List (Option ℤ)) : Except CollectError CollectBatch :=
  if numGenerations ≤ 0 ∨ (repeatedBatchSize : ℤ) % numGenerations ≠ 0 then
    .error .indivisibleBatch
  else do
    let expectedPromptGroups := repeatedBatchSize / numGenerations.toNat
    if useNemoGym then
      let _ ← buildTaskIndexMap taskIndices numGenerations.toNat expectedPromptGroups
    return {
      expectedPromptGroups := expectedPromptGroups
      numGenerations := numGenerations.toNat
      maxAttempts := 1 + if useNemoGym then maxNemoGymStreamRetries else 0
      running := true
      attempt := 1
      pushTasks := []
      scheduledGroupIndices := ∅
      bufferedGroupIndices := ∅
      phase := .streaming
      added := [] }

inductive AddAnswer
  | success
  | full
  | other (status : String)
  | error (error : Exc)

inductive CollectEvent
  /-- The stream yields a group of some size, or ends. -/
  | yielded (groupIndex : ℤ) (size : ℕ)
  | streamError (error : Exc)
  | streamEnd
  /-- A push task comes to its loop, or fails before it. -/
  | submit (task : ℕ)
  | prepareError (task : ℕ) (error : Exc)
  | answer (task : ℕ) (answer : AddAnswer)
  | stop
  /-- All push tasks are done. -/
  | gathered
  | awake

namespace CollectBatch

def receive (s : CollectBatch) (groupIndex : ℤ) (size : ℕ) : CollectBatch :=
  if ¬ (0 ≤ groupIndex ∧ groupIndex < s.expectedPromptGroups) then
    { s with phase := .gathering (some (.unexpectedGroup groupIndex)) }
  else if size ≠ s.numGenerations then
    { s with phase := .gathering (some (.wrongGroupSize groupIndex size s.numGenerations)) }
  else if groupIndex.toNat ∈ s.bufferedGroupIndices then s
  else if groupIndex.toNat ∈ s.scheduledGroupIndices then
    { s with phase := .gathering (some (.yieldedTwice groupIndex)) }
  else
    { s with
      scheduledGroupIndices := insert groupIndex.toNat s.scheduledGroupIndices
      pushTasks := s.pushTasks ++ [⟨groupIndex.toNat, .waiting⟩] }

def setPush (s : CollectBatch) (task : ℕ) (push : Push) (phase : PushPhase) : CollectBatch :=
  { s with pushTasks := s.pushTasks.set task { push with phase := phase } }

def answered (s : CollectBatch) (task : ℕ) (push : Push) : AddAnswer → CollectBatch
  | .success =>
    { s.setPush task push .buffered with
      bufferedGroupIndices := insert push.groupIndex s.bufferedGroupIndices
      added := s.added ++ [push.groupIndex] }
  | .full => s.setPush task push .waiting
  | .other status => s.setPush task push (.failed (.unexpectedStatus status))
  | .error error => s.setPush task push (.failed (.push error))

def pendingGroupIndices (s : CollectBatch) : List ℕ :=
  (List.range s.expectedPromptGroups).filter (· ∉ s.bufferedGroupIndices)

def finish (s : CollectBatch) (streamError : Option CollectError) : CollectBatch :=
  let pending := s.pendingGroupIndices
  if pending = [] then { s with phase := .returned }
  else
    let pushErrors := s.pushTasks.filterMap fun push ↦ push.phase.error?
    let lastError := (streamError.or pushErrors.head?).getD (.streamEnded pending)
    if s.attempt = s.maxAttempts ∨ s.running = false then
      { s with phase := .raised pending lastError }
    else { s with phase := .sleeping }

def step (s : CollectBatch) : CollectEvent → Option CollectBatch
  | .yielded groupIndex size =>
    match s.phase with
    | .streaming => some (s.receive groupIndex size)
    | _ => none
  | .streamError error =>
    match s.phase with
    | .streaming => some { s with phase := .gathering (some (.stream error)) }
    | _ => none
  | .streamEnd =>
    match s.phase with
    | .streaming => some { s with phase := .gathering none }
    | _ => none
  | .submit task =>
    match s.pushTasks[task]? with
    | some ⟨groupIndex, .waiting⟩ =>
      some (s.setPush task ⟨groupIndex, .waiting⟩
        (if s.running then .adding else .failed .stopped))
    | _ => none
  | .prepareError task error =>
    match s.pushTasks[task]? with
    | some ⟨groupIndex, .waiting⟩ =>
      some (s.setPush task ⟨groupIndex, .waiting⟩ (.failed (.push error)))
    | _ => none
  | .answer task answer =>
    match s.pushTasks[task]? with
    | some ⟨groupIndex, .adding⟩ => some (s.answered task ⟨groupIndex, .adding⟩ answer)
    | _ => none
  | .stop => some { s with running := false }
  | .gathered =>
    match s.phase with
    | .gathering streamError =>
      if s.pushTasks.all fun push ↦ push.phase.isDone then some (s.finish streamError) else none
    | _ => none
  | .awake =>
    match s.phase with
    | .sleeping =>
      some { s with
        attempt := s.attempt + 1
        pushTasks := []
        scheduledGroupIndices := ∅
        phase := .streaming }
    | _ => none

end CollectBatch

end NemoRL.AsyncUtils.TrajectoryCollector
