import Mathlib
import NemoRL.AsyncUtils.Commit
import NemoRL.Foundations.Transition

namespace NemoRL.Opd

open DataPlane Experience Foundations AsyncUtils

def teacherLogprobsField : String := "teacher_reference_logprobs"

/-- The settings of `TQTeacherLogprobCoordinator`, and of the buffer whose
`commit` calls it. A teacher group is known by its alias and has the size of
its data-parallel axis. -/
structure CoordinatorConfig where
  partitionId : String
  requireRoutedExperts : Bool
  teacherModelByAgentName : List (String × String)
  defaultTeacherAlias : Option String
  strictAgentNameMatch : Bool
  aliasToGroupAlias : List (String × String)
  teacherWorkerGroups : List (String × ℤ)

namespace CoordinatorConfig

def buffer (cfg : CoordinatorConfig) : BufferConfig :=
  ⟨cfg.partitionId, cfg.requireRoutedExperts, some teacherLogprobsField⟩

end CoordinatorConfig

inductive AgentRef
  | missing
  | unnamed
  | named (name : String)
  deriving DecidableEq

def keyError : Exc := .ofClasses [.other "KeyError", .other "LookupError"] none

def resolveReferenceAlias (cfg : CoordinatorConfig) (name : String) : Except Exc String :=
  if (cfg.teacherModelByAgentName.lookup name).isSome then .ok name
  else if cfg.strictAgentNameMatch then .error .valueError
  else match cfg.defaultTeacherAlias with
    | some fallback => if fallback ≠ "" then .ok fallback else .error .valueError
    | none => .error .valueError

def resolveTeacher (cfg : CoordinatorConfig) : AgentRef → Except Exc (String × String)
  | .missing => .error .valueError
  | .unnamed => .error keyError
  | .named name => do
    let teacherAlias ← resolveReferenceAlias cfg name
    let groupAlias := (cfg.aliasToGroupAlias.lookup teacherAlias).getD teacherAlias
    if (cfg.teacherWorkerGroups.lookup groupAlias).isSome then .ok (teacherAlias, groupAlias)
    else .error .valueError

/-- The key of a temporary row, `{last}__teacher_pad_{uuid}_{index}`. The
`uuid4` is a serial number. -/
structure PadId where
  last : SampleId
  uuid : ℕ
  index : ℕ
  deriving DecidableEq

def padIds (m : KVBatchMeta) (uuid padCount : ℕ) : List PadId :=
  m.sampleIds.getLast?.toList.flatMap fun last ↦ (List.range padCount).map (⟨last, uuid, ·⟩)

inductive ThreadStage (ρ : Type*)
  | entered
  | read (padCount : ℕ)
  | write (temporarySampleIds : List PadId) (source : ρ)
  | infer (temporarySampleIds : List PadId)
  | clear (temporarySampleIds : List PadId) (enrichmentError : Option Exc)

/-- The task made by `create_task(to_thread(...))`. It is `submitted` until a
thread of the executor takes it, and `withdrawn` if it is cancelled before. -/
inductive Worker (ρ : Type*)
  | absent
  | submitted
  | running (stage : ThreadStage ρ)
  | ended (temporarySampleIds : List PadId) (result : Except Exc Unit)
  | withdrawn

inductive Stage
  | locking
  | shielded
  | draining
  | returned
  | raised (error : Exc)

/-- One call of `enrich` and the `commit` that awaits it. -/
structure Enrichment (ρ : Type*) where
  commit : Commit ρ
  groupAlias : String
  stage : Stage
  worker : Worker ρ
  progress : Progress (Commit ρ) KVBatchMeta

/-- The data plane and the calls made so far. No key of a temporary row is the
key of a sample, so the temporary rows stand in a store of their own. A lock
keeps the position of the call that holds it. -/
structure Coordinator (ρ : Type*) where
  plane : Plane ρ
  pads : KeyedStore PadId ρ
  teacherLocks : String → Option ℕ
  enrichments : List (Enrichment ρ)
  uuids : ℕ

variable {ρ : Type*}

namespace ThreadStage

def temporarySampleIds : ThreadStage ρ → List PadId
  | .entered | .read _ => []
  | .write ids _ | .infer ids | .clear ids _ => ids

end ThreadStage

namespace Worker

def isRunning : Worker ρ → Bool
  | .running _ => true
  | _ => false

def isInferring : Worker ρ → Bool
  | .running (.infer _) => true
  | _ => false

def isLive : Worker ρ → Bool
  | .submitted | .running _ => true
  | _ => false

def temporarySampleIds : Worker ρ → List PadId
  | .running t => t.temporarySampleIds
  | .ended ids _ => ids
  | _ => []

end Worker

namespace Stage

def isEnded : Stage → Bool
  | .returned | .raised _ => true
  | _ => false

end Stage

namespace Enrichment

def kvMeta (cfg : CoordinatorConfig) (e : Enrichment ρ) : KVBatchMeta := e.commit.kvMeta cfg.buffer

def RollsBack (e : Enrichment ρ) : Prop :=
  ∃ c error, e.progress = .suspended c ∧ c.stage = .clear error

end Enrichment

namespace Coordinator

def set (s : Coordinator ρ) (i : ℕ) (e : Enrichment ρ) : Coordinator ρ :=
  { s with enrichments := s.enrichments.set i e }

def release (s : Coordinator ρ) (groupAlias : String) : Coordinator ρ :=
  { s with teacherLocks := Function.update s.teacherLocks groupAlias none }

def conclude (cfg : CoordinatorConfig) (s : Coordinator ρ) (i : ℕ) (e : Enrichment ρ)
    (reply : Reply) : Coordinator ρ :=
  let r := e.commit.resume cfg.buffer s.plane reply
  let stage := match reply with
    | .ok => Stage.returned
    | .raise error => Stage.raised error
  Coordinator.set { s with plane := r.1 } i { e with stage := stage, progress := r.2 }

def leave (cfg : CoordinatorConfig) (s : Coordinator ρ) (i : ℕ) (e : Enrichment ρ)
    (reply : Reply) : Coordinator ρ :=
  (s.release e.groupAlias).conclude cfg i e reply

end Coordinator

inductive Event (ρ : Type*)
  /-- The rest of the SingleController changes the buffer and the sample rows. -/
  | environment (plane : Plane ρ)
  /-- A `commit` has written its rows and calls the enricher. -/
  | call (groupId : GroupId) (record : PromptGroupRecord ρ) (agentRef : AgentRef)
      (startWeightVersion endWeightVersion : ℕ)
  | acquire (i : ℕ)
  /-- A thread of the executor takes the job. -/
  | pickUp (i : ℕ)
  /-- One temporary row lands while `write_columns` runs. -/
  | padWrite (i : ℕ) (k : PadId)
  /-- The blocking call the thread is in returns or raises. -/
  | thread (i : ℕ) (reply : Reply)
  /-- The awaited task is done. -/
  | wake (i : ℕ)
  | cancel (i : ℕ)
  /-- The `clear_samples` of the rollback returns or raises. -/
  | rollback (i : ℕ) (reply : Reply)

open Coordinator

def enrichSync (cfg : CoordinatorConfig) (s : Coordinator ρ) (i : ℕ) (e : Enrichment ρ) :
    ThreadStage ρ → Reply → Coordinator ρ
  | .entered, _ =>
    let m := e.kvMeta cfg
    let dpSize := (cfg.teacherWorkerGroups.lookup e.groupAlias).getD 0
    let remainder := (m.sampleIds.length : ℤ) % dpSize
    let worker : Worker ρ :=
      if (m.sequenceLengths.getD []).isEmpty then .ended [] (.error .valueError)
      else if dpSize ≤ 0 then .ended [] (.error .valueError)
      else if remainder ≠ 0 then .running (.read (dpSize - remainder).toNat)
      else .running (.infer [])
    s.set i { e with worker := worker }
  | .read padCount, .ok =>
    let m := e.kvMeta cfg
    let source := m.sampleIds.getLast?.bind s.plane.dp
    let worker := match source with
      | some row => .running (.write (padIds m s.uuids padCount) row.payload)
      | none => .ended [] (.error keyError)
    Coordinator.set { s with uuids := s.uuids + 1 } i { e with worker := worker }
  | .read _, .raise error => s.set i { e with worker := .ended [] (.error error) }
  | .write ids source, .ok =>
    let pads := s.pads.put (ids.map fun k ↦ (k, source))
    Coordinator.set { s with pads := pads } i
      { e with worker := .running (.infer ids) }
  | .infer [], .ok => s.set i { e with worker := .ended [] (.ok ()) }
  | .infer [], .raise error => s.set i { e with worker := .ended [] (.error error) }
  | .infer ids, .ok => s.set i { e with worker := .running (.clear ids none) }
  | .write ids _, .raise error | .infer ids, .raise error =>
    s.set i { e with worker := .running (.clear ids (some error)) }
  | .clear ids enrichmentError, .ok =>
    let result : Except Exc Unit := match enrichmentError with
      | some error => .error error
      | none => .ok ()
    Coordinator.set { s with pads := s.pads.clear ids } i { e with worker := .ended ids result }
  | .clear ids enrichmentError, .raise cleanupError =>
    let error := match enrichmentError with
      | some error => Exc.group [error, cleanupError]
      | none => cleanupError
    s.set i { e with worker := .ended ids (.error error) }

def enrich (cfg : CoordinatorConfig) (s : Coordinator ρ) (c : Commit ρ) (agentRef : AgentRef) :
    Coordinator ρ :=
  let called (groupAlias : String) : Enrichment ρ :=
    ⟨c, groupAlias, .locking, .absent, .suspended c⟩
  match resolveTeacher cfg agentRef with
  | .ok (_, groupAlias) =>
    { s with enrichments := s.enrichments ++ [called groupAlias] }
  | .error error =>
    conclude cfg { s with enrichments := s.enrichments ++ [called ""] } s.enrichments.length
      (called "") (.raise error)

/-- A `CancelledError` is thrown into the call at its suspension point. At the
drain it is `enrichment_task` that is cancelled, and with it the job if no
thread has taken it yet. A thread that runs is not reached. -/
def cancel (cfg : CoordinatorConfig) (s : Coordinator ρ) (i : ℕ) (e : Enrichment ρ) :
    Option (Coordinator ρ) :=
  match e.stage with
  | .locking => some (s.conclude cfg i e (.raise .cancelled))
  | .shielded => some (s.set i { e with stage := .draining })
  | .draining =>
    let worker := match e.worker with
      | .submitted => .withdrawn
      | w => w
    some (s.leave cfg i { e with worker := worker } (.raise .cancelled))
  | _ => none

def step (cfg : CoordinatorConfig) (s : Coordinator ρ) : Event ρ → Option (Coordinator ρ)
  | .environment plane => some { s with plane := plane }
  | .call groupId record agentRef startWeightVersion endWeightVersion =>
    -- Group ids are drawn fresh.
    if ∃ e ∈ s.enrichments, e.commit.groupId = groupId then none
    else match Commit.start cfg.buffer s.plane groupId record startWeightVersion
        endWeightVersion with
      | .suspended c =>
        match c.resume cfg.buffer s.plane .ok with
        | (plane, .suspended c) => some (enrich cfg { s with plane := plane } c agentRef)
        | _ => none
      | _ => none
  | .acquire i =>
    match s.enrichments[i]? with
    | some e =>
      match e.stage, e.worker, s.teacherLocks e.groupAlias with
      | .locking, .absent, none =>
        let s := { s with
          teacherLocks := Function.update s.teacherLocks e.groupAlias (some i) }
        some (s.set i { e with stage := .shielded, worker := .submitted })
      | _, _, _ => none
    | none => none
  | .pickUp i =>
    match s.enrichments[i]? with
    | some e =>
      match e.worker with
      | .submitted => some (s.set i { e with worker := .running .entered })
      | _ => none
    | none => none
  | .padWrite i k =>
    match s.enrichments[i]? with
    | some ⟨_, _, _, .running (.write ids source), _⟩ =>
      if k ∈ ids then some { s with pads := s.pads.write k source } else none
    | _ => none
  | .thread i reply =>
    match s.enrichments[i]? with
    | some e =>
      match e.worker with
      | .running t => some (enrichSync cfg s i e t reply)
      | _ => none
    | none => none
  | .wake i =>
    match s.enrichments[i]? with
    | some e =>
      match e.stage, e.worker with
      | .shielded, .ended _ (.ok _) => some (s.leave cfg i e .ok)
      | .shielded, .ended _ (.error error) => some (s.leave cfg i e (.raise error))
      | .draining, .ended _ _ => some (s.leave cfg i e (.raise .cancelled))
      | _, _ => none
    | none => none
  | .cancel i =>
    match s.enrichments[i]? with
    | some e => cancel cfg s i e
    | none => none
  | .rollback i reply =>
    match s.enrichments[i]? with
    | some e =>
      match e.progress with
      | .suspended c =>
        match c.stage with
        | .clear _ =>
          let r := c.resume cfg.buffer s.plane reply
          some (Coordinator.set { s with plane := r.1 } i { e with progress := r.2 })
        | _ => none
      | _ => none
    | none => none

def Initial (s : Coordinator ρ) : Prop :=
  s.pads = .empty ∧ s.teacherLocks = (fun _ ↦ none) ∧ s.enrichments = []

end NemoRL.Opd
