import Mathlib
import NemoRL.AsyncUtils.BufferCheckpoint
import NemoRL.AsyncUtils.StalenessSampler
import NemoRL.Experience.RolloutManager
import NemoRL.Foundations.Doubles
import NemoRL.Foundations.Transition

namespace NemoRL.SingleController

open DataPlane AsyncUtils Experience Experience.RolloutManager Foundations Foundations.Positions

/-- The settings the pumps read, with what `validate_single_controller_config`
and the config classes have checked of them. -/
structure Config where
  buffer : BufferConfig
  policy : RetryPolicy
  sampler : SamplerConfig
  numPromptsPerStep : ℕ
  numGenerationsPerPrompt : ℕ
  maxNumSteps : ℕ
  maxBufferedRollouts : ℕ
  maxInflightPrompts : ℕ
  minGroupsForStreamingTrain : ℕ
  isPpo : Bool
  policyTrainingStartStep : ℕ
  useNemoGym : Bool
  /-- `on_dropped_prompt = "replace"` -/
  replace : Bool
  maxReplacementAttempts : ℕ
  replacementReservePrompts : ℕ
  minStepBatchFraction : ℚ
  groups_le : minGroupsForStreamingTrain ≤ numPromptsPerStep
  fraction_pos : 0 < minStepBatchFraction
  capacity : ∀ c ∈ Sampler.requiredBufferCapacity sampler numPromptsPerStep,
    c ≤ maxBufferedRollouts
  unstamped : sampler.stamps = false →
    policy.maxSkippedPrompts + policy.maxConsecutiveDroppedPrompts = 0
  warmup : ∀ w ∈ sampler.warmupLookaheadVersions,
    Sampler.steadyWindow sampler ≤ w ∧ isPpo = true ∧ 0 < policyTrainingStartStep
  ppo : isPpo = true → sampler.stamps = true ∧
    minGroupsForStreamingTrain = numPromptsPerStep ∧
    policy.maxSkippedPrompts + policy.maxConsecutiveDroppedPrompts = 0

inductive TaskPhase (ρ : Type)
  | created (prompt : ℕ) (target : Option ℕ)
  | calling (call : Call ρ)
  /-- Parked at `_rollout_permitted.wait()` with a substituted prompt. -/
  | waiting (prompt : ℕ) (target : Option ℕ) (granted : Bool)

structure Task (ρ : Type) where
  replacements : ℕ
  cancelRequested : Bool
  phase : TaskPhase ρ

/-- The `await` of `_launch` the pump stands at. -/
inductive LaunchStage
  | buffer
  | sem
  | permitted (granted : Bool)
  deriving DecidableEq

inductive PumpPhase
  | unstarted
  | idle
  | admitting (prompts : List ℕ)
  | launching (prompts : List ℕ) (target : Option ℕ) (stage : LaunchStage)
  /-- Leaving a task group, which waits for its tasks. -/
  | settling
  | finished
  | aborted
  deriving DecidableEq

structure SaveState where
  currentStep : ℕ
  dataloader : ℕ
  reserve : List ℕ

structure Checkpoint (ρ : Type) extends SaveState where
  buffer : Envelope ρ

inductive TrainPhase (ρ : Type)
  | restoring (groups : List (SavedGroup ρ)) (restored : ℕ) (reserve : List ℕ)
  | loadingReserve (reserve : List ℕ)
  | polling
  | evicting (ids : List SampleId) (evicted : ℕ)
  | napping
  | training (chunk : List Slot)
  | closing
  | syncing
  | stepped
  | saving (save : SaveState) (stop : Bool)
  | fetching (save : SaveState) (slots : List Slot) (stop : Bool)
  | done

/-- One return of `admit`: the whole batch, and the prompts of it to launch. -/
structure Admission where
  target : Option ℕ
  batch : List ℕ
  dispatched : List ℕ
  deriving DecidableEq

structure State (ρ : Type) where
  rm : RolloutManager.State ρ
  sampler : Sampler
  trainerVersion : ℕ
  trainSteps : ℕ
  rolloutPermitted : Bool
  bufferCapacity : ℕ
  sem : ℕ
  batchShortfall : ℕ → ℕ
  batchReplacements : ℕ → ℕ
  batchPromotions : ℕ → ℕ
  replacementReserve : List ℕ
  samplerStampsTargetSteps : Bool
  rolloutExhausted : Bool
  /-- The prompt the dataloader yields next. -/
  dataloader : ℕ
  tasks : List (Task ρ)
  pump : PumpPhase
  /-- Whether the epochs are over and the spare pool is drained. -/
  draining : Bool
  train : TrainPhase ρ
  versionDuringStep : ℕ
  groupsDispatched : ℕ
  stepOpen : Bool
  /-- A pump has raised or returned, and `run` cancels what is left. -/
  stopping : Bool
  admissions : List Admission
  /-- Every group `select` has handed out, with the step it was selected at. -/
  selected : List (ℕ × Slot)
  checkpoints : List (Checkpoint ρ)

variable {ρ : Type}

namespace Task

def prompt (t : Task ρ) : ℕ :=
  match t.phase with
  | .created p _ => p
  | .calling c => c.prompt
  | .waiting p _ _ => p

def target (t : Task ρ) : Option ℕ :=
  match t.phase with
  | .created _ target => target
  | .calling c => c.target
  | .waiting _ target _ => target

def held (t : Task ρ) : Option Slot :=
  match t.phase with
  | .calling c => c.held
  | _ => none

def registered (t : Task ρ) : Option (GroupId × ℕ) :=
  match t.phase with
  | .calling c => c.registered
  | _ => none

def granted (t : Task ρ) : Task ρ :=
  match t.phase with
  | .waiting p target _ => { t with phase := .waiting p target true }
  | _ => t

end Task

def bump (counts : ℕ → ℕ) (target : Option ℕ) : ℕ → ℕ :=
  match target with
  | none => counts
  | some t => Function.update counts t (counts t + 1)

def pruned (counts : ℕ → ℕ) (version : ℕ) : ℕ → ℕ :=
  fun step ↦ if step > version then counts step else 0

/-! The dispatch tasks. -/

def takeReplacement (cfg : Config) (s : State ρ) (target : Option ℕ) (replacementsUsed : ℕ) :
    Option (ℕ × List ℕ) :=
  if cfg.replace = false ∨ target = none ∨ replacementsUsed ≥ cfg.maxReplacementAttempts then none
  else match s.replacementReserve with
    | [] => none
    | spare :: rest => some (spare, rest)

/-- `_promote_into_step`, with the step the task is aimed at afterwards. -/
def promoteIntoStep (s : State ρ) (target : Option ℕ) : State ρ × Option ℕ :=
  match target with
  | none => (s, none)
  | some step =>
    if step < s.trainerVersion then (s, some step)
    else match s.rm.plane.buffer.promoteReadyGroup step with
      | (_, none) => (s, some step)
      | (b, some lender) =>
        ({ s with
            rm := withBuffer s.rm b
            batchPromotions := bump s.batchPromotions target }, some lender)

/-- Enter `generate_and_push`, which always reaches its rollout. -/
def startCall (s : State ρ) (i : ℕ) (t : Task ρ) (prompt : ℕ) (target : Option ℕ) : State ρ :=
  match RolloutManager.start s.rm prompt target with
  | (rm, .suspended c) => { s with rm := rm, tasks := s.tasks.set i { t with phase := .calling c } }
  | (rm, _) => { s with rm := rm }

def endTask (s : State ρ) (i : ℕ) : State ρ :=
  { s with tasks := s.tasks.eraseIdx i, sem := s.sem + 1 }

def release (s : State ρ) (permits : ℕ) : State ρ :=
  { s with bufferCapacity := s.bufferCapacity + permits }

def dropped (cfg : Config) (s : State ρ) (i : ℕ) (t : Task ρ) : State ρ :=
  match takeReplacement cfg s t.target t.replacements with
  | none =>
    let s := endTask (release s 1) i
    { s with batchShortfall := bump s.batchShortfall t.target }
  | some (spare, reserve) =>
    let (s, target) := promoteIntoStep { s with replacementReserve := reserve } t.target
    let t := { t with replacements := t.replacements + 1 }
    if s.rolloutPermitted then startCall s i t spare target
    else { s with tasks := s.tasks.set i { t with phase := .waiting spare target false } }

def afterCall (cfg : Config) (s : State ρ) (i : ℕ) (t : Task ρ) :
    RolloutManager.State ρ × Progress (Call ρ) Outcome → State ρ
  | (rm, .suspended c) => { s with rm := rm, tasks := s.tasks.set i { t with phase := .calling c } }
  | (rm, .returned .committed) =>
    let s := endTask { s with rm := rm } i
    { s with batchReplacements :=
        if t.replacements = 0 then s.batchReplacements else bump s.batchReplacements t.target }
  | (rm, .returned (.skipped _)) => dropped cfg { s with rm := rm } i t
  | (rm, .raised e) =>
    let s := endTask (release { s with rm := rm } 1) i
    { s with stopping := s.stopping || !e.isCancelled }

/-! The train pump. -/

/-- The least number of groups a step may train on; the product is one of doubles. -/
def minStepGroups (cfg : Config) : ℤ :=
  ⌈Doubles.toDouble (Doubles.toDouble cfg.numPromptsPerStep * cfg.minStepBatchFraction)⌉

/-- `_target_groups_for_step`, or nothing where it raises. -/
def targetGroupsForStep (cfg : Config) (s : State ρ) (step : ℕ) : Option ℕ :=
  let target : ℤ := cfg.numPromptsPerStep - s.batchShortfall step
  if target < minStepGroups cfg then none
  else some target.toNat

def finishRun (s : State ρ) : State ρ := { s with train := .done, stopping := true }

def loopHead (cfg : Config) (s : State ρ) : State ρ :=
  match targetGroupsForStep cfg s s.versionDuringStep with
  | none => finishRun s
  | some target =>
    { s with train := if s.groupsDispatched < target then .polling else .closing }

def beginStep (cfg : Config) (s : State ρ) : State ρ :=
  if s.trainSteps < cfg.maxNumSteps then
    loopHead cfg { s with
      versionDuringStep := s.trainerVersion
      groupsDispatched := 0
      stepOpen := false }
  else finishRun s

def choose (cfg : Config) (s : State ρ) : State ρ :=
  match targetGroupsForStep cfg s s.versionDuringStep with
  | none => finishRun s
  | some target =>
    let maxPromptGroups := target - s.groupsDispatched
    if maxPromptGroups = 0 then { s with train := .closing }
    else
      let minPromptGroups := min cfg.minGroupsForStreamingTrain maxPromptGroups
      match s.sampler.select s.rm.slots s.trainerVersion minPromptGroups maxPromptGroups with
      | none => finishRun s
      | some none => if s.rolloutExhausted then finishRun s else { s with train := .napping }
      | some (some idxs) =>
        let chunk := entriesAt s.rm.slots idxs
        match s.rm.plane.buffer.remove idxs with
        | (_, none) => finishRun s
        | (b, some _) =>
          { release s chunk.length with
            rm := withBuffer s.rm b
            train := .training chunk
            selected := s.selected ++ chunk.map fun x ↦ (s.trainerVersion, x) }

def evict (cfg : Config) (s : State ρ) : State ρ :=
  match s.sampler.staleIdxs s.rm.slots s.trainerVersion with
  | [] => choose cfg s
  | idxs =>
    match s.rm.plane.buffer.remove idxs with
    | (_, none) => finishRun s
    | (b, some ids) => { s with rm := withBuffer s.rm b, train := .evicting ids idxs.length }

def clearSamples (s : State ρ) (ids : List SampleId) : State ρ :=
  { s with rm.plane.dp := s.rm.plane.dp.clear ids }

def lookaheadVersions (cfg : Config) (version : ℕ) : ℕ :=
  let steady := Sampler.steadyWindow cfg.sampler
  match cfg.sampler.warmupLookaheadVersions with
  | none => steady
  | some warmup =>
    if version ≥ cfg.policyTrainingStartStep then steady
    else max steady (min warmup (cfg.policyTrainingStartStep + steady - version))

def retuneLookaheadVersions (cfg : Config) (sampler : Sampler) (trainerVersion : ℕ) : Sampler :=
  if cfg.isPpo then sampler.setGateWindow (lookaheadVersions cfg trainerVersion) else sampler

def policyStart (cfg : Config) : ℕ := if cfg.isPpo then cfg.policyTrainingStartStep else 0

def settleStep (cfg : Config) (s : State ρ) : State ρ :=
  { s with
    sampler := retuneLookaheadVersions cfg s.sampler s.trainerVersion
    rm.weightVersion := s.trainerVersion
    train := .stepped }

def abortStaleInflight (s : State ρ) : State ρ :=
  let stale := s.rm.registry.filter fun r ↦ s.sampler.shouldAbortInflight r.2 s.trainerVersion
  { s with tasks := s.tasks.map fun t ↦
      if t.registered.any fun r ↦ decide (r ∈ stale) then { t with cancelRequested := true }
      else t }

/-- The version bump, with the entries of the closed step pruned. -/
def advanceVersion (s : State ρ) : State ρ :=
  { s with
    trainerVersion := s.trainerVersion + 1
    trainSteps := s.trainSteps + 1
    batchShortfall := pruned s.batchShortfall s.versionDuringStep
    batchReplacements := pruned s.batchReplacements s.versionDuringStep
    batchPromotions := pruned s.batchPromotions s.versionDuringStep }

def closeStep (cfg : Config) (s : State ρ) : State ρ :=
  if !cfg.isPpo && !s.stepOpen then finishRun s
  else if policyStart cfg ≤ s.trainSteps then
    let next := { advanceVersion s with rolloutPermitted := false, train := .syncing }
    if cfg.useNemoGym then next else abortStaleInflight next
  else settleStep cfg (advanceVersion s)

def PumpPhase.granted : PumpPhase → PumpPhase
  | .launching prompts target (.permitted _) => .launching prompts target (.permitted true)
  | p => p

/-- `_rollout_permitted.set()`, which wakes everyone parked at it. -/
def permit (s : State ρ) : State ρ :=
  { s with
    rolloutPermitted := true
    tasks := s.tasks.map Task.granted
    pump := s.pump.granted }

/-! The rollout pump. -/

def launchNext (prompts : List ℕ) (target : Option ℕ) : PumpPhase :=
  if prompts = [] then .idle else .launching prompts target .buffer

def divertBatchToReserve (cfg : Config) (s : State ρ) : Bool :=
  cfg.replace && s.samplerStampsTargetSteps &&
    decide (s.replacementReserve.length < cfg.replacementReservePrompts)

/-- How many prompts of a batch are launched: a stamped batch of the dataloader
leaves out as many as are buffered for its step, a drained one does not. -/
def numPrompts (s : State ρ) (target : Option ℕ) (size : ℕ) : ℕ :=
  match target with
  | none => size
  | some t => if s.draining then size else size - s.rm.plane.buffer.countForTargetStep t

/-- The end of `admit` and the lines up to the first `_launch`. -/
def admitBatch (s : State ρ) (prompts : List ℕ) : State ρ :=
  let (sampler, target) := s.sampler.admitBatch
  let dispatched := prompts.take (numPrompts s target prompts.length)
  { s with
    sampler := sampler
    samplerStampsTargetSteps :=
      s.samplerStampsTargetSteps || (!s.draining && target.isSome)
    pump := launchNext dispatched target
    admissions := s.admissions ++ [⟨target, prompts, dispatched⟩] }

/-! A whole run, across restarts. -/

def freshStats : RolloutStats := ⟨0, 0, fun _ ↦ 0, fun _ ↦ 0, fun _ ↦ 0, fun _ ↦ 0, 0⟩

def freshSerial (nextSerial : ℕ) (groups : List (SavedGroup ρ)) : ℕ :=
  groups.foldr (fun g n ↦ max (g.groupId.serial + 1) n) nextSerial

/-- A process that has synchronized its weights and not yet started its pumps. -/
def boot (cfg : Config) (nextSerial : ℕ) (save : SaveState) (groups : List (SavedGroup ρ))
    (checkpoints : List (Checkpoint ρ)) : State ρ where
  rm := ⟨⟨.empty, .empty⟩, save.currentStep, 0, 0, freshStats, [], freshSerial nextSerial groups⟩
  sampler := retuneLookaheadVersions cfg (.create cfg.sampler save.currentStep) save.currentStep
  trainerVersion := save.currentStep
  trainSteps := save.currentStep
  rolloutPermitted := true
  bufferCapacity := cfg.maxBufferedRollouts
  sem := cfg.maxInflightPrompts
  batchShortfall := fun _ ↦ 0
  batchReplacements := fun _ ↦ 0
  batchPromotions := fun _ ↦ 0
  replacementReserve := []
  samplerStampsTargetSteps := false
  rolloutExhausted := false
  dataloader := save.dataloader
  tasks := []
  pump := .unstarted
  draining := false
  train := .restoring groups 0 save.reserve
  versionDuringStep := save.currentStep
  groupsDispatched := 0
  stepOpen := false
  stopping := false
  admissions := []
  selected := []
  checkpoints := checkpoints

def startPumps (cfg : Config) (s : State ρ) : State ρ := beginStep cfg { s with pump := .idle }

def fresh (cfg : Config) : State ρ :=
  { boot cfg 0 ⟨0, 0, []⟩ [] [] with train := .loadingReserve [] }

def init (cfg : Config) : State ρ := startPumps cfg (fresh cfg)

inductive Event (ρ : Type)
  | pull (size : ℕ)
  | endEpochs
  | admitted
  | acquireBuffer
  | acquireSem
  | launch
  | settle
  | drain
  | startTask (i : ℕ)
  | resumeTask (i : ℕ) (answer : Answer ρ)
  | resumeWaiting (i : ℕ)
  | requestCancel (i : ℕ)
  | cancelCreated (i : ℕ)
  | cancelWaiting (i : ℕ)
  | cancelLaunch
  | poll
  | evicted
  | wake
  | trained (valid : Bool)
  | closeStep
  | synced
  | endStep (save stop : Bool)
  | snapshot
  | saved
  | fail
  | restart (k : ℕ)
  | restored
  | acquireRestored
  | startPumps

def nextStep (cfg : Config) (s : State ρ) (stop : Bool) : State ρ :=
  if stop then finishRun s else beginStep cfg s

def step (cfg : Config) (s : State ρ) : Event ρ → Option (State ρ)
  | .pull size =>
    match s.pump, s.draining with
    | .idle, false =>
      let prompts := List.range' s.dataloader size
      let s := { s with dataloader := s.dataloader + size }
      if divertBatchToReserve cfg s then
        some { s with replacementReserve := s.replacementReserve ++ prompts }
      else some { s with pump := .admitting prompts }
    | _, _ => none
  | .endEpochs =>
    match s.pump, s.draining with
    | .idle, false => some { s with pump := .settling }
    | _, _ => none
  | .admitted =>
    match s.pump with
    | .admitting prompts =>
      if s.sampler.admits s.trainerVersion then some (admitBatch s prompts) else none
    | _ => none
  | .acquireBuffer =>
    match s.pump with
    | .launching prompts target .buffer =>
      if 0 < s.bufferCapacity then
        some { s with
          bufferCapacity := s.bufferCapacity - 1
          pump := .launching prompts target .sem }
      else none
    | _ => none
  | .acquireSem =>
    match s.pump with
    | .launching prompts target .sem =>
      if 0 < s.sem then
        some { s with
          sem := s.sem - 1
          pump := .launching prompts target (.permitted s.rolloutPermitted) }
      else none
    | _ => none
  | .launch =>
    match s.pump with
    | .launching (prompt :: rest) target (.permitted true) =>
      some { s with
        tasks := s.tasks ++ [⟨0, false, .created prompt target⟩]
        pump := launchNext rest target }
    | _ => none
  | .settle =>
    match s.pump, s.tasks with
    | .settling, [] =>
      if s.draining then some { s with pump := .finished, rolloutExhausted := true }
      else some { s with pump := .idle, draining := true }
    | _, _ => none
  | .drain =>
    match s.pump, s.draining with
    | .idle, true =>
      if cfg.numPromptsPerStep ≤ s.replacementReserve.length then
        some { s with
          replacementReserve := s.replacementReserve.drop cfg.numPromptsPerStep
          pump := .admitting (s.replacementReserve.take cfg.numPromptsPerStep) }
      else some { s with pump := .settling }
    | _, _ => none
  | .startTask i =>
    match s.tasks[i]? with
    | some ⟨n, false, .created prompt target⟩ =>
      some (startCall s i ⟨n, false, .created prompt target⟩ prompt target)
    | _ => none
  | .resumeTask i answer =>
    match s.tasks[i]? with
    | some ⟨n, cancelled, .calling c⟩ =>
      if answer.cancels = cancelled then
        (RolloutManager.resume cfg.buffer cfg.policy s.rm c answer).map
          (afterCall cfg s i ⟨n, false, .calling c⟩)
      else none
    | _ => none
  | .resumeWaiting i =>
    match s.tasks[i]? with
    | some ⟨n, false, .waiting prompt target true⟩ =>
      some (startCall s i ⟨n, false, .waiting prompt target true⟩ prompt target)
    | _ => none
  | .requestCancel i =>
    match s.tasks[i]?, s.stopping with
    | some t, true => some { s with tasks := s.tasks.set i { t with cancelRequested := true } }
    | _, _ => none
  | .cancelCreated i =>
    match s.tasks[i]? with
    | some ⟨_, true, .created _ _⟩ => some (endTask (release s 1) i)
    | _ => none
  | .cancelWaiting i =>
    match s.tasks[i]? with
    | some ⟨_, true, .waiting _ _ _⟩ => some (endTask s i)
    | _ => none
  | .cancelLaunch =>
    match s.pump, s.stopping with
    | .launching _ _ _, true => some { s with pump := .aborted }
    | _, _ => none
  | .poll =>
    match s.train with
    | .polling => some (evict cfg s)
    | _ => none
  | .evicted =>
    match s.train with
    | .evicting ids n => some (choose cfg (release (clearSamples s ids) n))
    | _ => none
  | .wake =>
    match s.train with
    | .napping => some (loopHead cfg s)
    | _ => none
  | .trained valid =>
    match s.train with
    | .training chunk =>
      if cfg.isPpo && !valid then some (finishRun s)
      else some (loopHead cfg { clearSamples s (chunk.flatMap Slot.rowIds) with
        groupsDispatched := s.groupsDispatched + chunk.length
        stepOpen := s.stepOpen || valid })
    | _ => none
  | .closeStep =>
    match s.train with
    | .closing => some (closeStep cfg s)
    | _ => none
  | .synced =>
    match s.train with
    | .syncing =>
      if s.tasks.any Task.cancelRequested then none else some (settleStep cfg (permit s))
    | _ => none
  | .endStep save stop =>
    match s.train with
    | .stepped =>
      if save then
        some { s with train := .saving ⟨s.trainSteps, s.dataloader, s.replacementReserve⟩ stop }
      else some (nextStep cfg s stop)
    | _ => none
  | .snapshot =>
    match s.train with
    | .saving save stop =>
      some { s with train := .fetching save s.rm.plane.buffer.snapshot stop }
    | _ => none
  | .saved =>
    match s.train with
    | .fetching save slots stop =>
      match slots.mapM (TQReplayBuffer.fetchGroup s.rm.plane.dp) with
      | none => some (finishRun s)
      | some groups =>
        let checkpoint : Checkpoint ρ :=
          ⟨save, Envelope.ofSaved cfg.buffer.partitionId cfg.maxBufferedRollouts groups⟩
        some (nextStep cfg { s with checkpoints := s.checkpoints ++ [checkpoint] } stop)
    | _ => none
  | .fail => some { s with stopping := true }
  | .restart k =>
    match s.checkpoints[k]? with
    | none => none
    | some checkpoint =>
      match TQReplayBuffer.preflight checkpoint.buffer cfg.maxBufferedRollouts
          cfg.buffer.partitionId cfg.numGenerationsPerPrompt with
      | .error _ => none
      | .ok groups =>
        some (boot cfg s.rm.nextSerial checkpoint.toSaveState groups s.checkpoints)
  | .restored =>
    match s.train with
    | .restoring (g :: rest) n reserve =>
      some { s with
        rm.plane := TQReplayBuffer.restoreGroup s.rm.plane g
        train := .restoring rest (n + 1) reserve }
    | _ => none
  | .acquireRestored =>
    match s.train with
    | .restoring [] n reserve =>
      if n ≤ s.bufferCapacity then
        some { s with
          bufferCapacity := s.bufferCapacity - n
          train := .loadingReserve reserve }
      else none
    | _ => none
  | .startPumps =>
    match s.train with
    | .loadingReserve reserve =>
      some (startPumps cfg { s with replacementReserve := s.replacementReserve ++ reserve })
    | _ => none

def Initial (cfg : Config) (s : State ρ) : Prop := s = init cfg

theorem initial_init (cfg : Config) : Initial cfg (init cfg : State ρ) := rfl

end NemoRL.SingleController
