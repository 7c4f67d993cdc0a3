import Mathlib
import NemoRL.AsyncUtils.TQReplayBuffer
import NemoRL.Experience.Failures
import NemoRL.Foundations.KeyedStore

namespace NemoRL.AsyncUtils

open DataPlane Experience Foundations

/-- What an `await` gives back: its result, or the exception it raises. -/
inductive Reply
  | ok
  | raise (error : Exc)

/-- Where a coroutine stands after running to its next suspension. -/
inductive Progress (γ α : Type*)
  | suspended (coroutine : γ)
  | returned (value : α)
  | raised (error : Exc)

structure BufferConfig where
  partitionId : String
  requireRoutedExperts : Bool
  /-- The field the installed post-write enricher adds, if there is one. -/
  enricherField : Option String

structure Plane (ρ : Type*) where
  buffer : TQReplayBuffer
  dp : KeyedStore SampleId (Row ρ)

inductive CommitStage
  | put
  | enrich
  | clear (commitError : Exc)

structure Commit (ρ : Type*) where
  groupId : GroupId
  record : PromptGroupRecord ρ
  startWeightVersion : ℕ
  endWeightVersion : ℕ
  stage : CommitStage

variable {ρ : Type*}

namespace Commit

def sampleIds (c : Commit ρ) : List SampleId := c.record.sampleIds c.groupId

def rows (c : Commit ρ) : List (SampleId × Row ρ) := c.record.rows c.groupId c.startWeightVersion

def kvMeta (cfg : BufferConfig) (c : Commit ρ) : KVBatchMeta :=
  c.record.toMeta cfg.partitionId c.groupId c.startWeightVersion

def start (cfg : BufferConfig) (p : Plane ρ) (groupId : GroupId) (record : PromptGroupRecord ρ)
    (startWeightVersion endWeightVersion : ℕ) : Progress (Commit ρ) KVBatchMeta :=
  if groupId ∉ p.buffer.groupIds then .raised .valueError
  else if record.completions.isEmpty then .raised .assertionError
  else if cfg.requireRoutedExperts && !decide (routedExpertsField ∈ record.fieldNames) then
    .raised .runtimeError
  else .suspended ⟨groupId, record, startWeightVersion, endWeightVersion, .put⟩

/-- Fill the slot found again under the group id. A slot that has vanished
makes `index` raise inside the `try`, so the rows are rolled back. -/
def finish (p : Plane ρ) (c : Commit ρ) (m : KVBatchMeta) :
    Plane ρ × Progress (Commit ρ) KVBatchMeta :=
  match p.buffer.index c.groupId with
  | none => (p, .suspended { c with stage := .clear .valueError })
  | some idx => ({ p with buffer := p.buffer.fill idx m c.endWeightVersion }, .returned m)

def resume (cfg : BufferConfig) (p : Plane ρ) (c : Commit ρ) (reply : Reply) :
    Plane ρ × Progress (Commit ρ) KVBatchMeta :=
  match c.stage, reply with
  | .put, .ok =>
    let q := { p with dp := p.dp.put c.rows }
    match cfg.enricherField with
    | some _ => (q, .suspended { c with stage := .enrich })
    | none => finish q c (c.kvMeta cfg)
  | .put, .raise e => (p, .suspended { c with stage := .clear e })
  | .enrich, .ok => finish p c ((c.kvMeta cfg).withFields cfg.enricherField.toList)
  | .enrich, .raise e =>
    (p, .suspended { c with
      stage := .clear (if e.isException then .postWriteEnrichment e else e) })
  | .clear commitError, .ok =>
    ({ p with dp := p.dp.clear c.sampleIds }, .raised commitError)
  | .clear commitError, .raise rollbackError =>
    if commitError.isCancelled then
      (p, .raised (.mk commitError.mro commitError.status (some rollbackError)
        commitError.exceptions))
    else (p, .raised (.group [commitError, rollbackError]))

def Describes (c : Commit ρ) (m : KVBatchMeta) : Prop :=
  m.sampleIds = c.sampleIds ∧ m.tags = some (c.record.tags c.startWeightVersion) ∧
    m.sequenceLengths = some (c.record.completions.map Completion.inputLength)

theorem start_eq_suspended {cfg : BufferConfig} {p : Plane ρ} {g : GroupId}
    {record : PromptGroupRecord ρ} {v w : ℕ} {c : Commit ρ}
    (h : start cfg p g record v w = .suspended c) :
    c = ⟨g, record, v, w, .put⟩ ∧ g ∈ p.buffer.groupIds ∧ record.completions ≠ [] := by
  unfold start at h
  split_ifs at h with h₁ h₂ h₃
  obtain rfl := Progress.suspended.inj h
  refine ⟨rfl, h₁, fun hn ↦ h₂ ?_⟩
  rw [hn]
  rfl

theorem start_ne_returned {cfg : BufferConfig} {p : Plane ρ} {g : GroupId}
    {record : PromptGroupRecord ρ} {v w : ℕ} {m : KVBatchMeta} :
    start cfg p g record v w ≠ .returned m := by
  unfold start
  split_ifs <;> simp

/-- What a resumption does to the buffer: it fills the commit's own slot and
returns, or leaves the buffer alone. -/
inductive Effect (p : Plane ρ) (c : Commit ρ) :
    Plane ρ × Progress (Commit ρ) KVBatchMeta → Prop
  | filled {q : Plane ρ} {m : KVBatchMeta} (i : ℕ) (s : Slot) :
      p.buffer.slots[i]? = some s → s.groupId = c.groupId → c.Describes m →
      q.buffer.slots = p.buffer.slots.set i (s.filled m c.endWeightVersion) →
      Effect p c (q, .returned m)
  | suspended {q : Plane ρ} (stage : CommitStage) : q.buffer = p.buffer →
      Effect p c (q, .suspended { c with stage := stage })
  | raised {q : Plane ρ} (e : Exc) : q.buffer = p.buffer → Effect p c (q, .raised e)

theorem describes_kvMeta (cfg : BufferConfig) (c : Commit ρ) : c.Describes (c.kvMeta cfg) :=
  ⟨rfl, rfl, rfl⟩

theorem describes_withFields {c : Commit ρ} {m : KVBatchMeta} (h : c.Describes m)
    (names : List String) : c.Describes (m.withFields names) := h

theorem finish_effect {p q : Plane ρ} {c : Commit ρ} {m : KVBatchMeta}
    (hq : q.buffer = p.buffer) (hm : c.Describes m) : Effect p c (finish q c m) := by
  unfold finish
  cases hi : q.buffer.index c.groupId with
  | none => exact .suspended _ hq
  | some i =>
    obtain ⟨s, hs, hg⟩ := TQReplayBuffer.index_eq_some hi
    have hf := TQReplayBuffer.slots_fill hs m c.endWeightVersion
    exact .filled i s (hq ▸ hs) hg hm (by rw [hf, hq])

theorem resume_effect (cfg : BufferConfig) (p : Plane ρ) (c : Commit ρ) (reply : Reply) :
    Effect p c (resume cfg p c reply) := by
  unfold resume
  cases c.stage with
  | put =>
    cases reply with
    | ok =>
      cases cfg.enricherField with
      | none => exact finish_effect rfl (c.describes_kvMeta cfg)
      | some f => exact .suspended _ rfl
    | raise e => exact .suspended _ rfl
  | enrich =>
    cases reply with
    | ok => exact finish_effect rfl (describes_withFields (c.describes_kvMeta cfg) _)
    | raise e => exact .suspended _ rfl
  | clear err =>
    cases reply with
    | ok => exact .raised _ rfl
    | raise rb =>
      simp only
      split_ifs
      · exact .raised _ rfl
      · exact .raised _ rfl

end Commit

end NemoRL.AsyncUtils
