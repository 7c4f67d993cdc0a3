import Mathlib
import NemoRL.Algorithms.AdvantageEstimator
import NemoRL.Foundations.ActiveRows
import NemoRL.Foundations.Blocks
import NemoRL.Foundations.Classes

namespace NemoRL.Experience.Rollouts

open Foundations Foundations.ActiveRows Foundations.Blocks Foundations.Classes

structure Message where
  role : String
  content : String
  tokenIds : List ℕ
  generationLogprobs : Option (List ℚ)
  deriving DecidableEq

abbrev MessageLog := List Message

/-- A message as an environment sees it, by `get_keys_from_message_log`. -/
structure View where
  role : String
  content : String
  deriving DecidableEq

def Message.view (m : Message) : View := ⟨m.role, m.content⟩

/-- One row of `generation_outputs`; an engine that reports no `truncated` column reports no
row as truncated. -/
structure GenerationOutput where
  outputIds : List ℕ
  unpaddedSequenceLength : ℕ
  logprobs : Option (List ℚ)
  truncated : Bool

inductive Rewards
  | scalar (values : List ℚ)
  | named (columns : Dict String (List ℚ))

section Environments

variable (ι σ : Type)

structure EnvironmentReturn where
  observations : List View
  metadata : List (Option ι)
  nextStopStrings : Option (List (Option σ))
  rewards : Rewards
  terminateds : List Bool
  answers : Option (List (Option String))

/-- What `calculate_rewards` gives back for one row, its reward apart. -/
structure Feedback where
  observation : View
  metadata : Option ι
  nextStops : Option σ
  terminated : Bool
  answer : Option String

/-- The lists `calculate_rewards` gathers over the task groups. -/
structure Collected where
  indices : List ℕ
  scalars : List ℚ
  named : Option (Dict String (List ℚ))
  feedback : List (Feedback ι σ)

/-- The engine, the tokenizer and the environments of a rollout. -/
structure Setup where
  generate : List (List ℕ × Option σ) → Option (List GenerationOutput)
  decode : List ℕ → String
  encode : String → List ℕ
  taskToEnv : String → Option (List (List View) → List ι → EnvironmentReturn ι σ)
  maxSeqLen : ℕ

structure Prompt where
  messageLog : MessageLog
  extraEnvInfo : ι
  taskName : String
  stopStrings : Option σ

/-- A batch without a column of stop strings has none in its rows. -/
structure InputBatch where
  rows : List (Prompt ι σ)
  hasStopStrings : Bool
  plain : hasStopStrings = false → ∀ p ∈ rows, p.stopStrings = none

structure Sample extends Prompt ι σ where
  totalReward : ℚ
  truncated : Bool
  turnCount : ℕ
  assistantTokenCount : ℕ
  envTokenCount : ℕ

end Environments

section Turns

variable {ι σ : Type}

def flatTokens (log : MessageLog) : List ℕ := log.flatMap Message.tokenIds

/-- The assistant's message, the tokens it was generated with and whether it was cut. -/
structure Response where
  message : Message
  generatedIds : List ℕ
  truncated : Bool

def respond (R : Setup ι σ) (inputLength : ℕ) (out : GenerationOutput) : Response :=
  let ids := slice out.outputIds inputLength out.unpaddedSequenceLength
  { message :=
      { role := "assistant"
        content := R.decode ids
        tokenIds := ids
        generationLogprobs :=
          out.logprobs.map (slice · inputLength out.unpaddedSequenceLength) }
    generatedIds := ids
    truncated := out.truncated }

def generateResponses (R : Setup ι σ) (hasStopStrings : Bool) (rows : List (Prompt ι σ)) :
    Option (List Response) := do
  let outputs ← R.generate (rows.map fun p ↦
    (flatTokens p.messageLog, if hasStopStrings then p.stopStrings else none))
  rows.zipIdx.mapM fun x ↦
    (outputs[x.2]?).map (respond R (flatTokens x.1.messageLog).length)

def EnvironmentReturn.feedback (r : EnvironmentReturn ι σ) (i : ℕ) : Option (Feedback ι σ) := do
  let blank {α : Type} : List (Option α) := List.replicate r.terminateds.length none
  let observation ← r.observations[i]?
  let terminated ← r.terminateds[i]?
  let nextStops ← (r.nextStopStrings.getD blank)[i]?
  let metadata ← r.metadata[i]?
  let answer ← (r.answers.getD blank)[i]?
  pure ⟨observation, metadata, nextStops, terminated, answer⟩

def collectReward (named : Option (Dict String (List ℚ))) (scalars : List ℚ) (i : ℕ) :
    Rewards → Option (Option (Dict String (List ℚ)) × List ℚ)
  | .scalar values => (values[i]?).map fun r ↦ (named, scalars ++ [r])
  | .named columns => do
    let start := named.getD (columns.map fun c ↦ (c.1, []))
    let all ← columns.foldlM (fun d c ↦ do
      let values ← Dict.get d c.1
      let r ← c.2[i]?
      pure (Dict.set d c.1 (values ++ [r]))) start
    pure (some all, scalars)

def collectGroup (c : Collected ι σ) (result : List ℕ × EnvironmentReturn ι σ) :
    Option (Collected ι σ) :=
  result.1.zipIdx.foldlM (fun c x ↦ do
    let f ← result.2.feedback x.2
    let rewards ← collectReward c.named c.scalars x.2 result.2.rewards
    pure ⟨c.indices ++ [x.1], rewards.2, rewards.1, c.feedback ++ [f]⟩) c

def Collected.sorted (c : Collected ι σ) : Option (Rewards × List (Feedback ι σ)) := do
  let order := sortBy (c.indices.getD · 0) (List.range c.indices.length)
  let rewards ← match c.named with
    | some columns =>
      if c.scalars = [] then
        (columns.mapM fun col ↦ (order.mapM (col.2[·]?)).map fun vals ↦ (col.1, vals)).map .named
      else none
    | none => (order.mapM (c.scalars[·]?)).map .scalar
  let feedback ← order.mapM (c.feedback[·]?)
  pure (rewards, feedback)

def calculateRewards (R : Setup ι σ) (rows : List (Prompt ι σ)) :
    Option (Rewards × List (Feedback ι σ)) := do
  let groups := groupBy (fun x : Prompt ι σ × ℕ ↦ x.1.taskName) rows.zipIdx
  let results ← groups.mapM fun group ↦ (R.taskToEnv group.1).map fun env ↦
    (group.2.map Prod.snd, env (group.2.map fun x ↦ x.1.messageLog.map Message.view)
      (group.2.map fun x ↦ x.1.extraEnvInfo))
  let c ← results.foldlM collectGroup ⟨[], [], none, []⟩
  c.sorted

def Sample.reply (s : Sample ι σ) (r : Response) : Sample ι σ :=
  { s with
    messageLog := s.messageLog ++ [r.message]
    assistantTokenCount := s.assistantTokenCount + r.generatedIds.length }

def Sample.observe (s : Sample ι σ) (v : View) (tokens : List ℕ) : Sample ι σ :=
  { s with
    messageLog := s.messageLog ++ [⟨v.role, v.content, tokens, none⟩]
    envTokenCount := s.envTokenCount + tokens.length }

def Rewards.row (rewards : Rewards) (i : ℕ) : ℚ :=
  match rewards with
  | .scalar values => values.getD i 0
  | .named columns => (columns.map fun c ↦ c.2.getD i 0).sum

end Turns

/-! ### One loop for the whole batch -/

section Sync

variable {ι σ : Type}

structure Batch (ι σ : Type) where
  samples : List (Sample ι σ)
  activeIndices : List ℕ
  multiRewards : Option (Dict String (List ℚ))

def accumulate (multiRewards : Option (Dict String (List ℚ))) (batchSize : ℕ)
    (activeIndices : List ℕ) : Rewards → Option (Option (Dict String (List ℚ)))
  | .scalar _ => some multiRewards
  | .named columns =>
    (columns.foldlM (fun d c ↦ (Dict.get d c.1).map fun total ↦
      Dict.set d c.1 (modifyAt (· + ·) activeIndices c.2 total))
      (multiRewards.getD (columns.map fun c ↦ (c.1, List.replicate batchSize 0)))).map some

def syncSample (R : Setup ι σ) (s : Sample ι σ) (r : Response) (reward : ℚ) (f : Feedback ι σ) :
    Option (Sample ι σ × Bool) :=
  let used := r.generatedIds.length + (flatTokens s.messageLog).length
  let tokens := R.encode f.observation.content
  let overflows := decide (R.maxSeqLen ≤ tokens.length + used)
  -- the loop asserts that some room is left for a truncated observation
  if overflows ∧ R.maxSeqLen < used then none
  else
    let tokens := if overflows then tokens.take (R.maxSeqLen - used) else tokens
    let s := { (s.reply r).observe f.observation tokens with
      totalReward := s.totalReward + reward
      truncated := s.truncated || r.truncated || overflows
      turnCount := s.turnCount + 1 }
    let done := overflows || f.terminated
    some (if done then s
      else { s with
        stopStrings := f.nextStops
        extraEnvInfo := f.metadata.getD s.extraEnvInfo }, done)

def syncTurn (R : Setup ι σ) (hasStopStrings : Bool) (b : Batch ι σ) : Option (Batch ι σ) := do
  let active ← b.activeIndices.mapM (b.samples[·]?)
  let responses ← generateResponses R hasStopStrings (active.map Sample.toPrompt)
  let replied := active.zipWith (fun s r ↦ (s.reply r).toPrompt) responses
  let (rewards, feedback) ← calculateRewards R replied
  let multiRewards ← accumulate b.multiRewards b.samples.length b.activeIndices rewards
  let ended ← ((active.zip responses).zip feedback).zipIdx.mapM fun x ↦
    syncSample R x.1.1.1 x.1.1.2 (rewards.row x.2) x.1.2
  pure
    { samples := modifyAt (fun _ s ↦ s) b.activeIndices (ended.map Prod.fst) b.samples
      activeIndices := ((b.activeIndices.zip ended).filter fun x ↦ !x.2.2).map Prod.fst
      multiRewards := multiRewards }

def syncTurns (R : Setup ι σ) (hasStopStrings : Bool) : ℕ → Batch ι σ → Option (Batch ι σ)
  | 0, b => some b
  | n + 1, b =>
    if b.activeIndices = [] then some b
    else (syncTurn R hasStopStrings b).bind (syncTurns R hasStopStrings n)

structure RolloutBatch (ι : Type) where
  messageLog : List MessageLog
  extraEnvInfo : List ι
  totalReward : List ℚ
  truncated : List Bool
  rewardComponents : Dict String (List ℚ)

def Prompt.start (p : Prompt ι σ) : Sample ι σ := ⟨p, 0, false, 0, 0, 0⟩

def Batch.start (rows : List (Prompt ι σ)) : Batch ι σ :=
  ⟨rows.map Prompt.start, List.range rows.length, none⟩

def Batch.final (b : Batch ι σ) : RolloutBatch ι :=
  { messageLog := b.samples.map fun s ↦ s.messageLog
    extraEnvInfo := b.samples.map fun s ↦ s.extraEnvInfo
    totalReward := b.samples.map fun s ↦ s.totalReward
    truncated := b.samples.map fun s ↦ s.truncated
    rewardComponents := b.multiRewards.getD [] }

def runMultiTurnRollout (R : Setup ι σ) (inputBatch : InputBatch ι σ) (maxRolloutTurns : ℕ) :
    Option (RolloutBatch ι) :=
  if inputBatch.rows = [] then none
  else (syncTurns R inputBatch.hasStopStrings maxRolloutTurns (.start inputBatch.rows)).map
    Batch.final

end Sync

/-! ### One loop for each sample -/

section Async

variable {ι σ : Type}

structure AsyncSample (ι σ : Type) where
  sample : Sample ι σ
  rewardAcc : Option (Dict String ℚ)
  terminated : Bool

def accumulateSample (acc : Option (Dict String ℚ)) : Rewards → Option (Dict String ℚ)
  | .scalar _ => acc
  | .named columns => some (columns.foldl
      (fun d c ↦ Dict.set d c.1 ((Dict.get d c.1).getD 0 + c.2.getD 0 0)) (acc.getD []))

/-- The end of a turn: here a cut response ends the sample, and the stop strings of a turn
that gives none stay. -/
def asyncSample (R : Setup ι σ) (a : AsyncSample ι σ) (r : Response) (rewards : Rewards)
    (f : Feedback ι σ) : AsyncSample ι σ :=
  let used := (flatTokens a.sample.messageLog).length + r.generatedIds.length
  let tokens := R.encode f.observation.content
  let overflows := decide (R.maxSeqLen ≤ used + tokens.length)
  let tokens := if overflows then tokens.take (R.maxSeqLen - used) else tokens
  let s := { (a.sample.reply r).observe f.observation tokens with
    totalReward := a.sample.totalReward + rewards.row 0
    truncated := a.sample.truncated || r.truncated || overflows
    turnCount := a.sample.turnCount + 1 }
  { sample :=
      if f.terminated || s.truncated then s
      else { s with
        stopStrings := f.nextStops.or s.stopStrings
        extraEnvInfo := f.metadata.getD s.extraEnvInfo }
    rewardAcc := accumulateSample a.rewardAcc rewards
    terminated := f.terminated }

/-- An exception of the engine ends the sample as it stands, its turn counted. The batch of one
row made for a turn always has a column of stop strings. -/
def runSampleMultiTurnRollout (R : Setup ι σ) : ℕ → AsyncSample ι σ → Option (AsyncSample ι σ)
  | 0, a => some a
  | n + 1, a =>
    if a.terminated || a.sample.truncated then some a
    else match generateResponses R true [a.sample.toPrompt] with
      | some [r] => do
        let (rewards, feedback) ← calculateRewards R [(a.sample.reply r).toPrompt]
        let f ← feedback[0]?
        runSampleMultiTurnRollout R n (asyncSample R a r rewards f)
      | _ => some { a with sample := { a.sample with turnCount := a.sample.turnCount + 1 } }

def Prompt.startAsync (p : Prompt ι σ) : AsyncSample ι σ := ⟨p.start, none, false⟩

def AsyncSample.component (a : AsyncSample ι σ) (name : String) : ℚ :=
  ((Dict.get (a.rewardAcc.getD []) name).getD 0)

def asyncFinal (states : List (AsyncSample ι σ)) : RolloutBatch ι :=
  let names := states.flatMap fun a ↦
    Algorithms.getGdpoRewardComponentKeys ((a.rewardAcc.getD []).map Prod.fst)
  { messageLog := states.map fun a ↦ a.sample.messageLog
    extraEnvInfo := states.map fun a ↦ a.sample.extraEnvInfo
    totalReward := states.map fun a ↦ a.sample.totalReward
    truncated := states.map fun a ↦ a.sample.truncated
    rewardComponents := (names.dedup.mergeSort (· ≤ ·)).map fun name ↦
      (name, states.map fun a ↦ a.component name) }

def runMultiTurnRolloutAsync (R : Setup ι σ) (inputBatch : InputBatch ι σ)
    (maxRolloutTurns : ℕ) : Option (RolloutBatch ι) :=
  if inputBatch.rows = [] then none
  else (inputBatch.rows.mapM fun p ↦ runSampleMultiTurnRollout R maxRolloutTurns p.startAsync).map
    asyncFinal

end Async

end NemoRL.Experience.Rollouts
