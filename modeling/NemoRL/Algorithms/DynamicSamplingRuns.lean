import Mathlib
import NemoRL.Algorithms.DynamicSampling

namespace NemoRL.Algorithms

open Foundations.Spread

variable {ρ κ : Type} [DecidableEq κ] {prompt : ρ → κ} {reward stdReward : ρ → ℚ}

section Filter

variable {leaveOneOut : Bool}

def variedGroups (stdReward : ρ → ℚ) (groups : List (List ρ)) : List (List ρ) :=
  groups.filter fun g ↦ Varied (g.map stdReward)

theorem map_row_sampledRows (rows : List ρ) :
    (sampledRows prompt reward stdReward leaveOneOut rows).map SampledRow.row = rows := by
  rw [sampledRows, List.map_map]
  exact List.map_id _

def keptRows (prompt : ρ → κ) (reward stdReward : ρ → ℚ) (leaveOneOut : Bool) (rows : List ρ) :
    List ρ :=
  (keepNonZeroStd (sampledRows prompt reward stdReward leaveOneOut rows)).map SampledRow.row

variable (prompt reward stdReward leaveOneOut) in
theorem keptRows_sublist (rows : List ρ) :
    (keptRows prompt reward stdReward leaveOneOut rows).Sublist rows := by
  have hsub := (List.filter_sublist (p := fun r : SampledRow ρ ↦ r.statistic.variance ≠ 0)
    (l := sampledRows prompt reward stdReward leaveOneOut rows)).map SampledRow.row
  rwa [map_row_sampledRows] at hsub

theorem keptRows_flatten {size : ℕ} (batch : PromptBatch prompt size) :
    keptRows prompt reward stdReward leaveOneOut batch.groups.flatten =
      batch.groups.flatMap (keptRows prompt reward stdReward leaveOneOut) := by
  rw [keptRows, sampledRows_flatten batch.prompt_ne, keepNonZeroStd, List.filter_flatMap,
    List.map_flatMap]
  rfl

theorem keptRows_eq_self_iff {group : List ρ}
    (hprompt : ∀ r ∈ group, ∀ s ∈ group, prompt r = prompt s)
    (h : Varied (group.map stdReward)) :
    keptRows prompt reward stdReward leaveOneOut group = group ↔
      FilteredWhole stdReward leaveOneOut group := by
  rw [← keep_eq_self_iff reward hprompt h]
  constructor
  · intro hkept
    refine List.filter_sublist.eq_of_length ?_
    rw [length_sampledRows, ← congrArg List.length hkept, keptRows, List.length_map]
    rfl
  · intro hkeep
    rw [keptRows, hkeep, map_row_sampledRows]

theorem flatMap_keptRows_iff {groups : List (List ρ)}
    (hprompt : ∀ g ∈ groups, ∀ r ∈ g, ∀ s ∈ g, prompt r = prompt s) :
    groups.flatMap (keptRows prompt reward stdReward leaveOneOut) =
        (variedGroups stdReward groups).flatten ↔
      ∀ g ∈ groups, FilteredWhole stdReward leaveOneOut g := by
  have hconst : ∀ g ∈ groups, ¬ Varied (g.map stdReward) →
      keptRows prompt reward stdReward leaveOneOut g = [] := by
    intro g hg hvaried
    rw [keptRows, keep_of_not_varied (hprompt g hg) hvaried, List.map_nil]
  have hwhole : ∀ g ∈ groups, ¬ Varied (g.map stdReward) → FilteredWhole stdReward leaveOneOut g :=
    fun g _ hvaried ↦ .inr fun hodd ↦ hvaried hodd.1
  constructor
  · intro heq
    -- what is kept of each group is at most the group, so equal totals are equal terms
    have hterm : ∀ gs ⊆ groups,
        (gs.flatMap (keptRows prompt reward stdReward leaveOneOut)).length ≤
            ((variedGroups stdReward gs).flatten).length ∧
          ((gs.flatMap (keptRows prompt reward stdReward leaveOneOut)).length =
            ((variedGroups stdReward gs).flatten).length →
            ∀ g ∈ gs, Varied (g.map stdReward) →
              keptRows prompt reward stdReward leaveOneOut g = g) := by
      intro gs
      induction gs with
      | nil => exact fun _ ↦ ⟨le_rfl, nofun⟩
      | cons g gs ih =>
        intro hgs
        obtain ⟨hg, hrest⟩ := List.cons_subset.mp hgs
        obtain ⟨hle, hall⟩ := ih hrest
        have hsub := (keptRows_sublist prompt reward stdReward leaveOneOut g).length_le
        rw [variedGroups] at hle hall ⊢
        by_cases hvaried : Varied (g.map stdReward)
        · rw [List.filter_cons_of_pos (by simpa using hvaried), List.flatMap_cons,
            List.flatten_cons, List.length_append, List.length_append]
          refine ⟨by omega, fun hsum ↦ List.forall_mem_cons.mpr ⟨fun _ ↦ ?_, hall (by omega)⟩⟩
          exact (keptRows_sublist prompt reward stdReward leaveOneOut g).eq_of_length (by omega)
        · rw [List.filter_cons_of_neg (by simpa using hvaried), List.flatMap_cons,
            hconst g hg hvaried, List.nil_append]
          exact ⟨hle, fun hsum ↦ List.forall_mem_cons.mpr ⟨fun h ↦ absurd h hvaried, hall hsum⟩⟩
    intro g hg
    by_cases hvaried : Varied (g.map stdReward)
    · have hself := (hterm groups (List.Subset.refl _)).2 (congrArg List.length heq) g hg hvaried
      exact (keptRows_eq_self_iff (hprompt g hg) hvaried).mp hself
    · exact hwhole g hg hvaried
  · intro hall
    rw [variedGroups]
    clear hwhole
    induction groups with
    | nil => rfl
    | cons g groups ih =>
      obtain ⟨hg, hrest⟩ := List.forall_mem_cons.mp hall
      have hnext := ih (fun g hg ↦ hprompt g (List.mem_cons_of_mem _ hg))
        (fun g hg ↦ hconst g (List.mem_cons_of_mem _ hg)) hrest
      rw [List.flatMap_cons, hnext]
      by_cases hvaried : Varied (g.map stdReward)
      · rw [List.filter_cons_of_pos (by simpa using hvaried), List.flatten_cons,
          (keptRows_eq_self_iff (hprompt g (List.mem_cons_self ..)) hvaried).mpr hg]
      · rw [List.filter_cons_of_neg (by simpa using hvaried),
          hconst g (List.mem_cons_self ..) hvaried, List.nil_append]

end Filter

section Sampler

/-- What both trainers do with the rows that survive the filter. -/
structure Sampler (ρ : Type) where
  pending : List ρ
  numGenBatches : ℕ
  trained : List (List ρ)

namespace Sampler

def init : Sampler ρ := ⟨[], 0, []⟩

def newEpoch (st : Sampler ρ) : Sampler ρ := { st with pending := [], numGenBatches := 0 }

/-- One generation batch; `none` when the limit of batches is exceeded. -/
def generate (config : SamplingConfig) (st : Sampler ρ) (kept : List ρ) : Option (Sampler ρ) :=
  let pending := st.pending ++ kept
  if pending.length < config.trainPromptsSize then
    if ((st.numGenBatches + 1 : ℕ) : ℤ) ≤ config.dynamicSamplingMaxGenBatches then
      some ⟨pending, st.numGenBatches + 1, st.trained⟩
    else none
  else some ⟨[], 0, st.trained ++ [pending.take config.trainPromptsSize]⟩

end Sampler

theorem SamplingConfig.trainPromptsSize_pos (config : SamplingConfig) :
    0 < config.trainPromptsSize := Nat.mul_pos config.prompts_pos config.generations_pos

def FilteredBatch.plain (batch : FilteredBatch ρ) : List ρ := batch.rows.map SampledRow.row

/-- `grpo_train` is at a state of the sampler. -/
structure GrpoTrain.Agrees (config : SamplingConfig) (st : GrpoTrain ρ) (a : Sampler ρ) :
    Prop where
  pending : (st.batchCache.map FilteredBatch.plain).getD [] = a.pending
  column : ∀ cache ∈ st.batchCache, cache.rows.length ≤ cache.totalReward.length
  incomplete : a.pending.length < config.trainPromptsSize
  numGenBatches : st.numGenBatches = a.numGenBatches
  trained : st.trained.map FilteredBatch.plain = a.trained

/-- `grpo_train_sync` is at a state of the sampler. -/
structure GrpoTrainSync.Agrees (config : SamplingConfig) (st : GrpoTrainSync ρ) (a : Sampler ρ) :
    Prop where
  pending : (st.pending.rows.getD []).map SampledRow.row = a.pending
  incomplete : a.pending.length < config.trainPromptsSize
  numGenBatches : st.numGenBatches = a.numGenBatches
  trained : st.trained.map (List.map SampledRow.row) = a.trained

theorem plain_merge (cache : Option (FilteredBatch ρ)) (filtered : FilteredBatch ρ) :
    (FilteredBatch.merge cache filtered).plain =
      (cache.map FilteredBatch.plain).getD [] ++ filtered.plain := by
  cases cache with
  | none => rfl
  | some cache => exact List.map_append

theorem column_merge {cache : Option (FilteredBatch ρ)} {filtered : FilteredBatch ρ}
    (h : ∀ c ∈ cache, c.rows.length ≤ c.totalReward.length)
    (hf : filtered.rows.length ≤ filtered.totalReward.length) :
    (FilteredBatch.merge cache filtered).rows.length ≤
      (FilteredBatch.merge cache filtered).totalReward.length := by
  cases cache with
  | none => exact hf
  | some cache =>
    have hc := h cache rfl
    simp only [FilteredBatch.merge, FilteredBatch.append, List.length_append]
    omega

theorem finishSampling_incomplete {config : SamplingConfig} {numGenBatches : ℕ}
    {filtered : FilteredBatch ρ} (batchCache : Option (FilteredBatch ρ)) (hpos : 0 < numGenBatches)
    (h : filtered.rows.length < config.trainPromptsSize) :
    if (numGenBatches : ℤ) ≤ config.dynamicSamplingMaxGenBatches then
      finishSampling config numGenBatches filtered batchCache =
        .ok ⟨filtered, false, batchCache, none⟩
    else ∃ e, finishSampling config numGenBatches filtered batchCache = .error e := by
  rw [finishSampling, if_pos h]
  split_ifs with hmax hzero
  · omega
  · rfl
  · exact ⟨_, rfl⟩
  · exact ⟨_, rfl⟩

theorem finishSampling_complete {config : SamplingConfig} (numGenBatches : ℕ)
    {filtered : FilteredBatch ρ} (batchCache : Option (FilteredBatch ρ))
    (hcolumn : filtered.rows.length ≤ filtered.totalReward.length)
    (h : ¬ filtered.rows.length < config.trainPromptsSize) :
    ∃ result, finishSampling config numGenBatches filtered batchCache = .ok result ∧
      result.isBatchComplete = true ∧
      result.batch.plain = filtered.plain.take config.trainPromptsSize := by
  rw [finishSampling, if_neg h, FilteredBatch.slice, if_neg (by omega)]
  exact ⟨_, rfl, rfl, List.map_take⟩

theorem GrpoTrain.generate_agrees {config : SamplingConfig} {st : GrpoTrain ρ} {a : Sampler ρ}
    (h : st.Agrees config a) (rows : List ρ) :
    match a.generate config (keptRows prompt reward stdReward config.useLeaveOneOutBaseline rows) with
    | some a' => ∃ st', st.generate prompt reward stdReward config rows = .ok st' ∧
        st'.Agrees config a'
    | none => ∃ e, st.generate prompt reward stdReward config rows = .error e := by
  obtain ⟨filtered, hfiltered⟩ : ∃ filtered : FilteredBatch ρ, filtered =
      ⟨keepNonZeroStd (sampledRows prompt reward stdReward config.useLeaveOneOutBaseline rows),
        (sampledRows prompt reward stdReward config.useLeaveOneOutBaseline rows).map
          fun r ↦ reward r.row⟩ := ⟨_, rfl⟩
  have hkept : keptRows prompt reward stdReward config.useLeaveOneOutBaseline rows =
      filtered.plain := by
    rw [hfiltered]
    rfl
  have hcolumn : filtered.rows.length ≤ filtered.totalReward.length := by
    rw [hfiltered, List.length_map]
    exact List.length_filter_le ..
  have hmerge := plain_merge st.batchCache filtered
  rw [h.pending] at hmerge
  have hlength : (FilteredBatch.merge st.batchCache filtered).rows.length =
      (a.pending ++ filtered.plain).length := by
    rw [← hmerge, FilteredBatch.plain, List.length_map]
  have hincomplete := h.incomplete
  rw [hkept, Sampler.generate, GrpoTrain.generate, dynamicSampling, h.numGenBatches, ← hfiltered]
  by_cases hempty : filtered.rows = []
  · -- nothing survives: the cache stays as it is
    have hnone : filtered.plain = [] := by rw [FilteredBatch.plain, hempty, List.map_nil]
    have hfew : filtered.rows.length < config.trainPromptsSize := by
      rw [hempty]
      exact config.trainPromptsSize_pos
    have hfinish := finishSampling_incomplete st.batchCache
      a.numGenBatches.succ_pos hfew
    rw [if_pos hempty, hnone, List.append_nil, if_pos hincomplete]
    by_cases hmax : ((a.numGenBatches + 1 : ℕ) : ℤ) ≤ config.dynamicSamplingMaxGenBatches
    · rw [if_pos hmax] at hfinish ⊢
      rw [hfinish]
      exact ⟨_, rfl, h.pending, h.column, hincomplete, rfl, h.trained⟩
    · rw [if_neg hmax] at hfinish ⊢
      obtain ⟨e, he⟩ := hfinish
      rw [he]
      exact ⟨e, rfl⟩
  · rw [if_neg hempty]
    have hall := column_merge h.column hcolumn
    dsimp only
    by_cases hsize : (a.pending ++ filtered.plain).length < config.trainPromptsSize
    · have hfinish := finishSampling_incomplete
        (some (FilteredBatch.merge st.batchCache filtered))
        a.numGenBatches.succ_pos (hlength ▸ hsize)
      rw [if_pos hsize]
      by_cases hmax : ((a.numGenBatches + 1 : ℕ) : ℤ) ≤ config.dynamicSamplingMaxGenBatches
      · rw [if_pos hmax] at hfinish ⊢
        rw [hfinish]
        refine ⟨_, rfl, hmerge, ?_, hsize, rfl, h.trained⟩
        intro cache hcache
        obtain rfl := Option.some.inj hcache
        exact hall
      · rw [if_neg hmax] at hfinish ⊢
        obtain ⟨e, he⟩ := hfinish
        rw [he]
        exact ⟨e, rfl⟩
    · obtain ⟨result, hfinish, hcomplete, hbatch⟩ := finishSampling_complete (a.numGenBatches + 1)
        (some (FilteredBatch.merge st.batchCache filtered)) hall (hlength ▸ hsize)
      rw [if_neg hsize, hfinish]
      refine ⟨⟨none, 0, st.trained ++ [result.batch]⟩, if_pos hcomplete, rfl, nofun,
        config.trainPromptsSize_pos, rfl, ?_⟩
      rw [List.map_append, h.trained, List.map_singleton, hbatch, hmerge]

theorem GrpoTrainSync.generate_agrees {config : SamplingConfig} {st : GrpoTrainSync ρ}
    {a : Sampler ρ} (h : st.Agrees config a) (rows : List ρ) :
    match a.generate config (keptRows prompt reward stdReward config.useLeaveOneOutBaseline rows) with
    | some a' => ∃ st', st.generate prompt reward stdReward config rows = .ok st' ∧
        st'.Agrees config a'
    | none => ∃ e, st.generate prompt reward stdReward config rows = .error e := by
  obtain ⟨pending, hpending⟩ : ∃ pending, pending = mergeSurvivors st.pending.rows
      (keepNonZeroStd (sampledRows prompt reward stdReward config.useLeaveOneOutBaseline rows)) :=
    ⟨_, rfl⟩
  have hrows : (pending.getD []).map SampledRow.row = a.pending ++
      keptRows prompt reward stdReward config.useLeaveOneOutBaseline rows := by
    rw [hpending, ← h.pending, keptRows, mergeSurvivors.eq_def]
    split_ifs with hempty
    · rw [hempty, List.map_nil, List.append_nil]
    · cases st.pending.rows with
      | none => rfl
      | some rows => exact List.map_append
  have hlength : (pending.getD []).length = (a.pending ++
      keptRows prompt reward stdReward config.useLeaveOneOutBaseline rows).length := by
    rw [← hrows, List.length_map]
  rw [Sampler.generate, GrpoTrainSync.generate, applyDynamicSampling, h.numGenBatches, ← hpending,
    hlength]
  by_cases hsize : (a.pending ++ keptRows prompt reward stdReward
      config.useLeaveOneOutBaseline rows).length < config.trainPromptsSize
  · rw [if_pos hsize, if_pos hsize]
    by_cases hmax : ((a.numGenBatches + 1 : ℕ) : ℤ) ≤ config.dynamicSamplingMaxGenBatches
    · rw [if_pos hmax, if_neg (by omega)]
      exact ⟨_, rfl, hrows, hsize, rfl, h.trained⟩
    · rw [if_neg hmax, if_pos (by omega)]
      exact ⟨_, rfl⟩
  · rw [if_neg hsize, if_neg hsize]
    refine ⟨_, rfl, rfl, config.trainPromptsSize_pos, rfl, ?_⟩
    rw [List.map_append, h.trained, List.map_singleton, ← hrows]
    exact congrArg (fun t ↦ a.trained ++ [t]) List.map_take

end Sampler

end NemoRL.Algorithms
