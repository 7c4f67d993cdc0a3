import Mathlib

namespace NemoRL.DataPlane

/-- A fresh `uuid4` prefix: a serial number, kept with the index of the prompt
it was drawn for so that a history can be read off the ids. -/
structure GroupId where
  serial : ℕ
  prompt : ℕ
  deriving DecidableEq, Repr

structure SampleId where
  group : GroupId
  row : ℕ
  deriving DecidableEq, Repr

structure Tag where
  weightVersion : ℕ
  deriving DecidableEq, Repr

/-- Tags stand one to one with the sample ids whenever they are present. -/
structure KVBatchMeta where
  partitionId : String
  taskName : Option String
  sampleIds : List SampleId
  fields : Option (List String)
  sequenceLengths : Option (List ℕ)
  tags : Option (List Tag)
  tags_aligned : ∀ ts ∈ tags, ts.length = sampleIds.length
  deriving DecidableEq

namespace KVBatchMeta

def mergeFields (names more : List String) : List String :=
  more.foldl (fun acc name ↦ if name ∈ acc then acc else acc ++ [name]) names

def withFields (m : KVBatchMeta) (fieldNames : List String) : KVBatchMeta :=
  { m with fields := some (mergeFields [] ((m.fields.getD []) ++ fieldNames)) }

@[simp] theorem withFields_sampleIds (m : KVBatchMeta) (names : List String) :
    (m.withFields names).sampleIds = m.sampleIds := rfl

@[simp] theorem withFields_tags (m : KVBatchMeta) (names : List String) :
    (m.withFields names).tags = m.tags := rfl

@[simp] theorem withFields_sequenceLengths (m : KVBatchMeta) (names : List String) :
    (m.withFields names).sequenceLengths = m.sequenceLengths := rfl

end KVBatchMeta

structure Completion (ρ : Type*) where
  payload : ρ
  inputLength : ℕ
  routedExperts : Bool
  deriving DecidableEq, Repr

structure PromptGroupRecord (ρ : Type*) where
  completions : List (Completion ρ)
  deriving DecidableEq, Repr

/-- What a stored row carries: its tensors and its tag. -/
structure Row (ρ : Type*) where
  payload : ρ
  tag : Tag
  deriving DecidableEq, Repr

variable {ρ : Type*}

def routedExpertsField : String := "routed_experts"

namespace PromptGroupRecord

/-- The tensor fields of the batch flattened from a record. The routes of one
completion are backfilled into all the others. -/
def fieldNames (record : PromptGroupRecord ρ) : List String :=
  ["input_ids", "input_lengths", "generation_logprobs", "token_mask", "sample_mask",
    "prompt_ids_for_adv", "total_reward"] ++
  if record.completions.any Completion.routedExperts then [routedExpertsField] else []

def sampleIds (record : PromptGroupRecord ρ) (groupId : GroupId) : List SampleId :=
  (List.range record.completions.length).map fun i ↦ ⟨groupId, i⟩

def tags (record : PromptGroupRecord ρ) (weightVersion : ℕ) : List Tag :=
  record.completions.map fun _ ↦ ⟨weightVersion⟩

def rows (record : PromptGroupRecord ρ) (groupId : GroupId) (weightVersion : ℕ) :
    List (SampleId × Row ρ) :=
  record.completions.zipIdx.map fun c ↦ (⟨groupId, c.2⟩, ⟨c.1.payload, ⟨weightVersion⟩⟩)

def toMeta (record : PromptGroupRecord ρ) (partitionId : String) (groupId : GroupId)
    (weightVersion : ℕ) : KVBatchMeta where
  partitionId := partitionId
  taskName := some "train"
  sampleIds := record.sampleIds groupId
  fields := some record.fieldNames
  sequenceLengths := some (record.completions.map Completion.inputLength)
  tags := some (record.tags weightVersion)
  tags_aligned := by simp [sampleIds, tags]

theorem mem_sampleIds {record : PromptGroupRecord ρ} {groupId : GroupId} {k : SampleId} :
    k ∈ record.sampleIds groupId ↔ k.group = groupId ∧ k.row < record.completions.length := by
  obtain ⟨g, i⟩ := k
  simp only [sampleIds, List.mem_map, List.mem_range, SampleId.mk.injEq]
  constructor
  · rintro ⟨j, hj, rfl, rfl⟩
    exact ⟨rfl, hj⟩
  · rintro ⟨rfl, hi⟩
    exact ⟨i, hi, rfl, rfl⟩

theorem map_fst_rows (record : PromptGroupRecord ρ) (groupId : GroupId) (weightVersion : ℕ) :
    (record.rows groupId weightVersion).map Prod.fst = record.sampleIds groupId := by
  have h : record.completions.zipIdx.map Prod.snd = List.range record.completions.length := by
    rw [List.zipIdx_map_snd, List.range_eq_range']
  simp only [rows, sampleIds, List.map_map, ← h]
  rfl

end PromptGroupRecord

end NemoRL.DataPlane
