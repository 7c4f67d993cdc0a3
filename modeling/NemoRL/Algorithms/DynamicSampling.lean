import Mathlib
import NemoRL.Algorithms.PromptStatistics

namespace NemoRL.Algorithms

open Foundations.Spread

/-- The settings of `grpo` that dynamic sampling reads. A data loader has
batches of at least one prompt, and a prompt has at least one generation. -/
structure SamplingConfig where
  numPromptsPerStep : ℕ
  numGenerationsPerPrompt : ℕ
  dynamicSamplingMaxGenBatches : ℤ
  useLeaveOneOutBaseline : Bool
  prompts_pos : 0 < numPromptsPerStep
  generations_pos : 0 < numGenerationsPerPrompt

def SamplingConfig.trainPromptsSize (config : SamplingConfig) : ℕ :=
  config.numPromptsPerStep * config.numGenerationsPerPrompt

inductive SamplingError
  | maxGenBatchesNotPositive
  | maxGenBatchesReached
  | sliceBeyondEnd
  deriving DecidableEq

/-- A row of a generation batch with its `baseline` and `std`. -/
structure SampledRow (ρ : Type) where
  row : ρ
  statistic : PromptStatistic ℚ

variable {ρ κ : Type} [DecidableEq κ] (prompt : ρ → κ) (reward stdReward : ρ → ℚ)

def sampledRows (leaveOneOut : Bool) (rows : List ρ) : List (SampledRow ρ) :=
  rows.map fun row ↦ ⟨row, promptStatistic prompt reward stdReward leaveOneOut rows row⟩

def keepNonZeroStd (rows : List (SampledRow ρ)) : List (SampledRow ρ) :=
  rows.filter fun r ↦ r.statistic.variance ≠ 0

section Legacy

/-- A filtered batch: its rows carry `filtered_reward`, while its column
`total_reward` is that of the batches before the filter. -/
structure FilteredBatch (ρ : Type) where
  rows : List (SampledRow ρ)
  totalReward : List ℚ

def FilteredBatch.append (a b : FilteredBatch ρ) : FilteredBatch ρ :=
  ⟨a.rows ++ b.rows, a.totalReward ++ b.totalReward⟩

def FilteredBatch.slice (batch : FilteredBatch ρ) (n : ℕ) :
    Except SamplingError (FilteredBatch ρ) :=
  if batch.totalReward.length < n ∨ batch.rows.length < n then .error .sliceBeyondEnd
  else .ok ⟨batch.rows.take n, batch.totalReward.take n⟩

structure SamplingResult (ρ : Type) where
  batch : FilteredBatch ρ
  isBatchComplete : Bool
  batchCache : Option (FilteredBatch ρ)
  numDiscardedValidSamples : Option ℕ

def FilteredBatch.merge (cache : Option (FilteredBatch ρ)) (filtered : FilteredBatch ρ) :
    FilteredBatch ρ :=
  match cache with
  | none => filtered
  | some cache => cache.append filtered

def finishSampling (config : SamplingConfig) (numGenBatches : ℕ) (filtered : FilteredBatch ρ)
    (batchCache : Option (FilteredBatch ρ)) : Except SamplingError (SamplingResult ρ) :=
  if filtered.rows.length < config.trainPromptsSize then
    if config.dynamicSamplingMaxGenBatches ≤ 0 then .error .maxGenBatchesNotPositive
    else if numGenBatches ≤ config.dynamicSamplingMaxGenBatches then
      .ok ⟨filtered, false, batchCache, none⟩
    else .error .maxGenBatchesReached
  else do
    let batch ← filtered.slice config.trainPromptsSize
    return ⟨batch, true, batchCache, some (filtered.rows.length - config.trainPromptsSize)⟩

def dynamicSampling (config : SamplingConfig) (repeatedBatch : List (SampledRow ρ))
    (numGenBatches : ℕ) (batchCache : Option (FilteredBatch ρ)) :
    Except SamplingError (SamplingResult ρ) :=
  let filtered : FilteredBatch ρ :=
    ⟨keepNonZeroStd repeatedBatch, repeatedBatch.map fun r ↦ reward r.row⟩
  if filtered.rows = [] then finishSampling config numGenBatches filtered batchCache
  else
    let cache := FilteredBatch.merge batchCache filtered
    finishSampling config numGenBatches cache (some cache)

structure GrpoTrain (ρ : Type) where
  batchCache : Option (FilteredBatch ρ)
  numGenBatches : ℕ
  trained : List (FilteredBatch ρ)

namespace GrpoTrain

def init : GrpoTrain ρ := ⟨none, 0, []⟩

def newEpoch (st : GrpoTrain ρ) : GrpoTrain ρ := { st with batchCache := none, numGenBatches := 0 }

/-- One generation batch of `grpo_train`, and the training step if it completes one. -/
def generate (config : SamplingConfig) (st : GrpoTrain ρ) (rows : List ρ) :
    Except SamplingError (GrpoTrain ρ) := do
  let result ← dynamicSampling reward config
    (sampledRows prompt reward stdReward config.useLeaveOneOutBaseline rows)
    (st.numGenBatches + 1) st.batchCache
  if result.isBatchComplete then return ⟨none, 0, st.trained ++ [result.batch]⟩
  else return ⟨result.batchCache, st.numGenBatches + 1, st.trained⟩

end GrpoTrain

end Legacy

section DataPlane

/-- The survivors and the rewards before the filter that a step has accumulated. -/
structure Pending (ρ : Type) where
  rows : Option (List (SampledRow ρ))
  unfilteredRewards : List (List ℚ)

structure DataPlaneResult (ρ : Type) where
  pending : Pending ρ
  isComplete : Bool
  discarded : List (SampledRow ρ)
  unfilteredForLog : Option (List ℚ)

def mergeSurvivors (pending : Option (List (SampledRow ρ))) (keep : List (SampledRow ρ)) :
    Option (List (SampledRow ρ)) :=
  if keep = [] then pending
  else match pending with
    | none => some keep
    | some rows => some (rows ++ keep)

def applyDynamicSampling (config : SamplingConfig) (metadata : List (SampledRow ρ))
    (pending : Pending ρ) (numGenBatches : ℕ) : Except SamplingError (DataPlaneResult ρ) := do
  let unfilteredRewards := pending.unfilteredRewards ++ [metadata.map fun r ↦ reward r.row]
  let drop := metadata.filter fun r ↦ r.statistic.variance = 0
  let rows := mergeSurvivors pending.rows (keepNonZeroStd metadata)
  let n := (rows.getD []).length
  if n < config.trainPromptsSize then
    if numGenBatches > config.dynamicSamplingMaxGenBatches then throw .maxGenBatchesReached
    else return ⟨⟨rows, unfilteredRewards⟩, false, drop, none⟩
  else
    return ⟨⟨some ((rows.getD []).take config.trainPromptsSize), []⟩, true,
      drop ++ (rows.getD []).drop config.trainPromptsSize,
      some (unfilteredRewards.flatten.take config.trainPromptsSize)⟩

/-- What `grpo_train_sync` carries between generation batches. -/
structure GrpoTrainSync (ρ : Type) where
  pending : Pending ρ
  numGenBatches : ℕ
  trained : List (List (SampledRow ρ))

namespace GrpoTrainSync

def init : GrpoTrainSync ρ := ⟨⟨none, []⟩, 0, []⟩

def newEpoch (st : GrpoTrainSync ρ) : GrpoTrainSync ρ :=
  { st with pending := ⟨none, []⟩, numGenBatches := 0 }

/-- One generation batch of `grpo_train_sync`, and the training step if it completes one. -/
def generate (config : SamplingConfig) (st : GrpoTrainSync ρ) (rows : List ρ) :
    Except SamplingError (GrpoTrainSync ρ) := do
  let result ← applyDynamicSampling reward config
    (sampledRows prompt reward stdReward config.useLeaveOneOutBaseline rows) st.pending
    (st.numGenBatches + 1)
  if result.isComplete then
    return ⟨⟨none, result.pending.unfilteredRewards⟩, 0,
      st.trained ++ [result.pending.rows.getD []]⟩
  else return ⟨result.pending, st.numGenBatches + 1, st.trained⟩

end GrpoTrainSync

end DataPlane

section Groups

variable {prompt reward stdReward}

structure PromptBatch (prompt : ρ → κ) (size : ℕ) where
  groups : List (List ρ)
  length_group : ∀ g ∈ groups, g.length = size
  prompt_eq : ∀ g ∈ groups, ∀ r ∈ g, ∀ s ∈ g, prompt r = prompt s
  prompt_ne : groups.Pairwise fun g h ↦ ∀ r ∈ g, ∀ s ∈ h, prompt r ≠ prompt s

theorem sampledRows_flatten {leaveOneOut : Bool} {groups : List (List ρ)}
    (h : groups.Pairwise fun g h ↦ ∀ r ∈ g, ∀ s ∈ h, prompt r ≠ prompt s) :
    sampledRows prompt reward stdReward leaveOneOut groups.flatten =
      groups.flatMap (sampledRows prompt reward stdReward leaveOneOut) := by
  induction groups with
  | nil => rfl
  | cons g groups ih =>
    obtain ⟨hg, hrest⟩ := List.pairwise_cons.mp h
    have hapart : ∀ r ∈ g, ∀ s ∈ groups.flatten, prompt r ≠ prompt s := by
      intro r hr s hs
      obtain ⟨other, hother, hmem⟩ := List.mem_flatten.mp hs
      exact hg other hother r hr s hmem
    rw [List.flatten_cons, List.flatMap_cons, ← ih hrest, sampledRows, List.map_append]
    congr 1
    · refine List.map_congr_left fun r hr ↦ congrArg _ (promptStatistic_congr ?_)
      exact promptGroup_append_left fun s hs ↦ (hapart r hr s hs).symm
    · refine List.map_congr_left fun s hs ↦ congrArg _ (promptStatistic_congr ?_)
      exact promptGroup_append_right fun r hr ↦ hapart r hr s hs

def OddOneOut (stdReward : ρ → ℚ) (group : List ρ) : Prop :=
  Varied (group.map stdReward) ∧
    ∃ r ∈ group, ¬ Varied ((group.map stdReward).erase (stdReward r))

def FilteredWhole (stdReward : ρ → ℚ) (leaveOneOut : Bool) (group : List ρ) : Prop :=
  leaveOneOut = false ∨ ¬ OddOneOut stdReward group

variable {leaveOneOut : Bool} {group : List ρ}

theorem keep_row_iff (hprompt : ∀ r ∈ group, ∀ s ∈ group, prompt r = prompt s) {r : ρ}
    (hr : r ∈ group) :
    (promptStatistic prompt reward stdReward leaveOneOut group r).variance ≠ 0 ↔
      Varied (spreadValues stdReward leaveOneOut group r) := by
  have hgroup : promptGroup prompt group r = group :=
    List.filter_eq_self.mpr fun s hs ↦ decide_eq_true (hprompt s hs r hr)
  rw [variance_ne_zero_iff hr, hgroup]

theorem varied_of_spread {r : ρ} (h : Varied (spreadValues stdReward leaveOneOut group r)) :
    Varied (group.map stdReward) := by
  rw [spreadValues] at h
  split_ifs at h with hloo
  · obtain ⟨a, ha, b, hb, hne⟩ := h
    exact ⟨a, List.mem_of_mem_erase ha, b, List.mem_of_mem_erase hb, hne⟩
  · exact h

theorem length_sampledRows (leaveOneOut : Bool) (rows : List ρ) :
    (sampledRows prompt reward stdReward leaveOneOut rows).length = rows.length := List.length_map ..

theorem keep_of_not_varied (hprompt : ∀ r ∈ group, ∀ s ∈ group, prompt r = prompt s)
    (h : ¬ Varied (group.map stdReward)) :
    keepNonZeroStd (sampledRows prompt reward stdReward leaveOneOut group) = [] := by
  refine List.filter_eq_nil_iff.mpr fun sampled hsampled ↦ ?_
  obtain ⟨r, hr, rfl⟩ := List.mem_map.mp hsampled
  intro hkeep
  exact h (varied_of_spread ((keep_row_iff hprompt hr).mp (of_decide_eq_true hkeep)))

variable (reward) in
theorem keep_eq_self_iff (hprompt : ∀ r ∈ group, ∀ s ∈ group, prompt r = prompt s)
    (h : Varied (group.map stdReward)) :
    keepNonZeroStd (sampledRows prompt reward stdReward leaveOneOut group) =
        sampledRows prompt reward stdReward leaveOneOut group ↔
      FilteredWhole stdReward leaveOneOut group := by
  rw [keepNonZeroStd, List.filter_eq_self]
  have hrow : (∀ sampled ∈ sampledRows prompt reward stdReward leaveOneOut group,
      decide (sampled.statistic.variance ≠ 0) = true) ↔
        ∀ r ∈ group, Varied (spreadValues stdReward leaveOneOut group r) := by
    constructor
    · intro hall r hr
      exact (keep_row_iff hprompt hr).mp (of_decide_eq_true (hall _ (List.mem_map_of_mem hr)))
    · intro hall sampled hsampled
      obtain ⟨r, hr, rfl⟩ := List.mem_map.mp hsampled
      exact decide_eq_true ((keep_row_iff hprompt hr).mpr (hall r hr))
  rw [hrow, FilteredWhole, OddOneOut]
  cases leaveOneOut with
  | false => simpa [spreadValues] using fun _ _ ↦ h
  | true =>
    simp only [spreadValues, if_true, Bool.true_eq_false, false_or, not_and, not_exists, not_not]
    exact ⟨fun hall _ r hr ↦ hall r hr, fun hall r hr ↦ hall h r hr⟩

end Groups

end NemoRL.Algorithms
