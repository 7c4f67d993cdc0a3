import Mathlib
import NemoRL.Algorithms.AdvantageStage
import NemoRL.Foundations.Blocks

namespace NemoRL.Algorithms

open Foundations.Blocks

variable {κ K : Type} [DecidableEq κ] [Field K] [LinearOrder K] (m : TensorMath K)

section Estimators

variable (cfg : AdvEstimatorConfig K) (rows : List (EstimatorRow κ K))

def AdvEstimatorConfig.usesPromptStatistics : Bool :=
  match cfg.name with
  | .grpo | .gdpo => true
  | .opd => false
  | .reinforcePlusPlus => cfg.minusBaseline

/-- The advantage of a token before the normalisation over the batch. -/
def rawAdvantage (row : EstimatorRow κ K) (t : ℕ) : K :=
  match cfg.name with
  | .grpo => promptAdvantage m cfg rows EstimatorRow.reward row
  | .gdpo => gdpoCombined m cfg rows (cfg.weightedKeys.toOption.getD []) row
  | .opd => ((row.teacherLogprobs.getD 0) t - (row.prevLogprobs.getD 0) t) * row.mask t
  | .reinforcePlusPlus => reinforcePenalized m cfg rows row t

/-- The normalisation over the batch, where the estimator has one. -/
def batchNormalize (advantage : K) : K :=
  match cfg.name with
  | .grpo | .opd => advantage
  | .gdpo =>
    gdpoNormalize m (rows.map (gdpoCombined m cfg rows (cfg.weightedKeys.toOption.getD [])))
      advantage
  | .reinforcePlusPlus => reinforceNormalize m rows (reinforcePenalized m cfg rows) advantage

def normalizedAdvantages : List (ℕ → K) :=
  rows.map fun row t ↦ batchNormalize m cfg rows (rawAdvantage m cfg rows row t)

variable {m cfg rows}

theorem promptAdvantage_congr {rows' : List (EstimatorRow κ K)} {row : EstimatorRow κ K}
    (reward : EstimatorRow κ K → K)
    (h : promptGroup EstimatorRow.promptIds rows row =
      promptGroup EstimatorRow.promptIds rows' row) :
    promptAdvantage m cfg rows reward row = promptAdvantage m cfg rows' reward row := by
  rw [promptAdvantage, promptAdvantage, promptStatistic_congr h]

theorem rawAdvantage_congr {rows' : List (EstimatorRow κ K)} {row : EstimatorRow κ K} {t : ℕ}
    (h : cfg.usesPromptStatistics → promptGroup EstimatorRow.promptIds rows row =
      promptGroup EstimatorRow.promptIds rows' row) :
    rawAdvantage m cfg rows row t = rawAdvantage m cfg rows' row t := by
  rw [AdvEstimatorConfig.usesPromptStatistics] at h
  cases hname : cfg.name with
  | grpo =>
    rw [hname] at h
    simp only [rawAdvantage, hname]
    exact promptAdvantage_congr EstimatorRow.reward (h rfl)
  | gdpo =>
    rw [hname] at h
    simp only [rawAdvantage, hname, gdpoCombined]
    refine congrArg List.sum (List.map_congr_left fun key _ ↦ ?_)
    rw [promptAdvantage_congr _ (h rfl)]
  | opd => simp only [rawAdvantage, hname]
  | reinforcePlusPlus =>
    rw [hname] at h
    simp only [rawAdvantage, hname, reinforcePenalized]
    cases hbaseline : cfg.minusBaseline with
    | false => rfl
    | true => rw [promptStatistic_congr (h hbaseline)]

theorem batchNormalize_eq_self (h : cfg.name = .grpo ∨ cfg.name = .opd) (advantage : K) :
    batchNormalize m cfg rows advantage = advantage := by
  rcases h with h | h <;> simp only [batchNormalize, h]

end Estimators

section Stage

variable {m} {cfg : AdvantageStageConfig K} {rows : List (AdvantageSample κ K)}

/-- Why the configured estimator fails on the samples of the stage, if it does. -/
def AdvantageStageConfig.estimatorError (cfg : AdvantageStageConfig K) : Option AdvantageError :=
  match cfg.name with
  | .grpo | .reinforcePlusPlus => none
  | .gdpo =>
    match cfg.weightedKeys with
    | .error e => some e
    | .ok _ => none
  | .opd =>
    if cfg.teacherLogprobsRequired = false then some .teacherLogprobsRequired
    else if cfg.policyLogprobsRequired = false then some .prevLogprobsRequired
    else none

theorem computeAdvantage_eq (hrows : rows ≠ []) :
    computeAdvantage m cfg.toAdvEstimatorConfig (rows.map (estimatorRow m cfg)) =
      match cfg.estimatorError with
      | some e => .error e
      | none => .ok (normalizedAdvantages m cfg.toAdvEstimatorConfig
          (rows.map (estimatorRow m cfg))) := by
  rw [computeAdvantage, AdvantageStageConfig.estimatorError]
  cases hname : cfg.name with
  | grpo => simp only [normalizedAdvantages, batchNormalize, rawAdvantage, hname,
      grpoComputeAdvantage]
  | reinforcePlusPlus => simp only [normalizedAdvantages, batchNormalize, rawAdvantage, hname,
      reinforceComputeAdvantage]
  | gdpo =>
    simp only [gdpoComputeAdvantage]
    cases hkeys : cfg.weightedKeys with
    | error e => rfl
    | ok keys =>
      simp only [normalizedAdvantages, batchNormalize, rawAdvantage, hname, hkeys]
      rfl
  | opd =>
    obtain ⟨row, rest, rfl⟩ := List.exists_cons_of_ne_nil hrows
    simp only [opdComputeAdvantage]
    cases hteacher : cfg.teacherLogprobsRequired with
    | false =>
      simp [estimatorRow, hteacher, List.mapM_cons]
      rfl
    | true =>
      cases hpolicy : cfg.policyLogprobsRequired with
      | false =>
        simp [estimatorRow, hteacher, hpolicy, List.mapM_cons]
        rfl
      | true =>
        have hlogprobs : ∀ sample : AdvantageSample κ K,
            (estimatorRow m cfg sample).teacherLogprobs = some sample.teacherLogprobs ∧
              (estimatorRow m cfg sample).prevLogprobs = some sample.policyLogprobs :=
          fun sample ↦ ⟨by simp [estimatorRow, hteacher], by simp [estimatorRow, hteacher, hpolicy]⟩
        refine mapM_pure_of_forall fun input hinput ↦ ?_
        obtain ⟨sample, -, rfl⟩ := List.mem_map.mp hinput
        obtain ⟨hteach, hprev⟩ := hlogprobs sample
        simp only [batchNormalize, rawAdvantage, hname, hteach, hprev]
        rfl

omit [DecidableEq κ] in
theorem estimatorRow_mask_ne_zero {row : AdvantageSample κ K} {t : ℕ} (htoken : row.tokenMask t = 1)
    (hsample : maskedSample m cfg row = 1) : (estimatorRow m cfg row).mask t ≠ 0 := by
  have hmask : (estimatorRow m cfg row).mask t = row.tokenMask t * maskedSample m cfg row := rfl
  rw [hmask, htoken, hsample, mul_one]
  exact one_ne_zero

theorem mem_trainedPositions {width t : ℕ} : t ∈ trainedPositions width ↔ 0 < t ∧ t < width := by
  rw [trainedPositions, List.mem_map]
  constructor
  · rintro ⟨s, hs, rfl⟩
    have hlt := List.mem_range.mp hs
    omega
  · rintro ⟨hpos, hlt⟩
    exact ⟨t - 1, List.mem_range.mpr (by omega), by omega⟩

omit [DecidableEq κ] in
theorem hasValidTrainingTokens_of_mem {row : AdvantageSample κ K} (hrow : row ∈ rows) {t : ℕ}
    (hpos : 0 < t) (hlt : t < row.width) (htoken : row.tokenMask t = 1)
    (hsample : maskedSample m cfg row = 1) :
    hasValidTrainingTokens (rows.map (estimatorRow m cfg)) = true := by
  refine List.any_eq_true.mpr ⟨_, List.mem_map_of_mem hrow, List.any_eq_true.mpr ⟨t, ?_, ?_⟩⟩
  · exact mem_trainedPositions.mpr ⟨hpos, hlt⟩
  · exact decide_eq_true (estimatorRow_mask_ne_zero htoken hsample)

omit [DecidableEq κ] in
theorem ne_nil_of_hasValidTrainingTokens
    (h : hasValidTrainingTokens (rows.map (estimatorRow m cfg)) = true) : rows ≠ [] := by
  rintro rfl
  cases h

omit [DecidableEq κ] in
theorem hasValidTrainingTokens_flatten (chunks : List (List (AdvantageSample κ K))) :
    hasValidTrainingTokens (chunks.flatten.map (estimatorRow m cfg)) =
      chunks.any fun chunk ↦ hasValidTrainingTokens (chunk.map (estimatorRow m cfg)) := by
  rw [hasValidTrainingTokens, List.map_flatten, List.any_flatten, List.any_map]
  rfl

/-- The stage fails exactly when it has a token to train on and its estimator fails. -/
theorem advantageStage_error_iff {e : AdvantageError} :
    advantageStage m cfg rows = .error e ↔
      hasValidTrainingTokens (rows.map (estimatorRow m cfg)) = true ∧
        cfg.estimatorError = some e := by
  rw [advantageStage]
  cases hvalid : hasValidTrainingTokens (rows.map (estimatorRow m cfg)) with
  | false => exact ⟨nofun, nofun⟩
  | true =>
    simp only [if_true, computeAdvantage_eq (ne_nil_of_hasValidTrainingTokens hvalid)]
    cases herror : cfg.estimatorError with
    | none => exact ⟨nofun, nofun⟩
    | some e' =>
      constructor
      · intro h
        exact ⟨trivial, congrArg some (Except.error.inj h)⟩
      · rintro ⟨-, h⟩
        rw [Option.some.inj h]
        rfl

theorem advantages_of_ok {result : StageResult K} (h : advantageStage m cfg rows = .ok result)
    (hvalid : hasValidTrainingTokens (rows.map (estimatorRow m cfg)) = true) :
    result.advantages = normalizedAdvantages m cfg.toAdvEstimatorConfig
      (rows.map (estimatorRow m cfg)) := by
  rw [advantageStage] at h
  simp only [hvalid, if_true, computeAdvantage_eq (ne_nil_of_hasValidTrainingTokens hvalid)] at h
  cases herror : cfg.estimatorError with
  | none =>
    rw [herror] at h
    obtain rfl := Except.ok.inj h
    rfl
  | some e =>
    rw [herror] at h
    cases h

theorem advantages_of_not_valid {result : StageResult K}
    (h : advantageStage m cfg rows = .ok result)
    (hvalid : hasValidTrainingTokens (rows.map (estimatorRow m cfg)) = false) :
    result.advantages = rows.map fun _ _ ↦ 0 := by
  rw [advantageStage] at h
  simp only [hvalid, Bool.false_eq_true, if_false] at h
  obtain rfl := Except.ok.inj h
  exact List.map_map

variable (m cfg) in
theorem getElem?_normalizedAdvantages {i : ℕ} {row : AdvantageSample κ K}
    (h : rows[i]? = some row) :
    (normalizedAdvantages m cfg.toAdvEstimatorConfig (rows.map (estimatorRow m cfg)))[i]? =
      some fun t ↦ batchNormalize m cfg.toAdvEstimatorConfig (rows.map (estimatorRow m cfg))
        (rawAdvantage m cfg.toAdvEstimatorConfig (rows.map (estimatorRow m cfg))
          (estimatorRow m cfg row) t) := by
  rw [normalizedAdvantages, List.map_map, List.getElem?_map, h]
  rfl

end Stage

section Streaming

variable {m} {cfg : AdvantageStageConfig K} {chunks : List (List (AdvantageSample κ K))}

def PromptsApart (chunks : List (List (AdvantageSample κ K))) : Prop :=
  chunks.Pairwise fun c d ↦ ∀ r ∈ c, ∀ s ∈ d, r.promptIds ≠ s.promptIds

theorem mapM_error_iff {α β ε : Type} {f : α → Except ε β} {l : List α} :
    (∃ e, l.mapM f = .error e) ↔ ∃ a ∈ l, ∃ e, f a = .error e := by
  induction l with
  | nil =>
    constructor
    · rintro ⟨e, h⟩
      cases h
    · rintro ⟨a, h, -⟩
      cases h
  | cons a l ih =>
    rw [List.mapM_cons, List.exists_mem_cons_iff, ← ih]
    cases ha : f a with
    | error e => exact ⟨fun _ ↦ .inl ⟨e, rfl⟩, fun _ ↦ ⟨e, rfl⟩⟩
    | ok b =>
      cases hl : l.mapM f with
      | error e => exact ⟨fun _ ↦ .inr ⟨e, rfl⟩, fun _ ↦ ⟨e, rfl⟩⟩
      | ok bs =>
        constructor
        · rintro ⟨e, h⟩
          cases h
        · rintro (⟨e, h⟩ | ⟨e, h⟩)
          · cases h
          · cases h

theorem mapM_ok_append {α β ε : Type} {f : α → Except ε β} {before after : List α} {a : α}
    {results : List β} (h : (before ++ a :: after).mapM f = .ok results) :
    ∃ b, f a = .ok b ∧ results[before.length]? = some b := by
  induction before generalizing results with
  | nil =>
    rw [List.nil_append, List.mapM_cons] at h
    cases ha : f a with
    | error e =>
      rw [ha] at h
      cases h
    | ok b =>
      rw [ha] at h
      cases hl : after.mapM f with
      | error e =>
        rw [hl] at h
        cases h
      | ok bs =>
        rw [hl] at h
        obtain rfl := Except.ok.inj h
        exact ⟨b, rfl, rfl⟩
  | cons c before ih =>
    rw [List.cons_append, List.mapM_cons] at h
    cases hc : f c with
    | error e =>
      rw [hc] at h
      cases h
    | ok b =>
      rw [hc] at h
      cases hl : (before ++ a :: after).mapM f with
      | error e =>
        rw [hl] at h
        cases h
      | ok bs =>
        rw [hl] at h
        obtain rfl := Except.ok.inj h
        exact ih hl

theorem streamedStage_error_iff :
    (∃ e, streamedStage m cfg chunks = .error e) ↔
      ∃ e, advantageStage m cfg chunks.flatten = .error e := by
  rw [streamedStage, mapM_error_iff]
  simp only [advantageStage_error_iff, hasValidTrainingTokens_flatten, List.any_eq_true]
  constructor
  · rintro ⟨chunk, hchunk, e, hvalid, he⟩
    exact ⟨e, ⟨chunk, hchunk, hvalid⟩, he⟩
  · rintro ⟨e, ⟨chunk, hchunk, hvalid⟩, he⟩
    exact ⟨chunk, hchunk, e, hvalid, he⟩

theorem promptGroup_chunk {before after : List (List (AdvantageSample κ K))}
    {chunk : List (AdvantageSample κ K)} (h : PromptsApart (before ++ chunk :: after))
    {row : AdvantageSample κ K} (hrow : row ∈ chunk) :
    promptGroup EstimatorRow.promptIds (chunk.map (estimatorRow m cfg)) (estimatorRow m cfg row) =
      promptGroup EstimatorRow.promptIds
        ((before ++ chunk :: after).flatten.map (estimatorRow m cfg)) (estimatorRow m cfg row) := by
  obtain ⟨-, hchunk, hbefore⟩ := List.pairwise_append.mp h
  rw [List.flatten_append, List.flatten_cons, List.map_append, List.map_append,
    promptGroup_append_right, promptGroup_append_left]
  · intro other hother
    obtain ⟨sample, hsample, rfl⟩ := List.mem_map.mp hother
    obtain ⟨c, hc, hmem⟩ := List.mem_flatten.mp hsample
    exact ((List.pairwise_cons.mp hchunk).1 c hc row hrow sample hmem).symm
  · intro other hother
    obtain ⟨sample, hsample, rfl⟩ := List.mem_map.mp hother
    obtain ⟨c, hc, hmem⟩ := List.mem_flatten.mp hsample
    exact hbefore c hc chunk (List.mem_cons_self ..) sample hmem row hrow

/-- The results of the chunk of a sample and of the step in one chunk, at that sample. -/
theorem streamed_sample {results : List (StageResult K)} {whole : StageResult K}
    {before after : List (List (AdvantageSample κ K))} {chunk : List (AdvantageSample κ K)}
    (hstreamed : streamedStage m cfg (before ++ chunk :: after) = .ok results)
    (hwhole : advantageStage m cfg (before ++ chunk :: after).flatten = .ok whole)
    {i t : ℕ} {row : AdvantageSample κ K} (hrow : chunk[i]? = some row) (hpos : 0 < t)
    (hlt : t < row.width) (htoken : row.tokenMask t = 1) (hsample : maskedSample m cfg row = 1) :
    ∃ result, results[before.length]? = some result ∧
      (result.advantages[i]? = some fun t ↦
        batchNormalize m cfg.toAdvEstimatorConfig (chunk.map (estimatorRow m cfg))
          (rawAdvantage m cfg.toAdvEstimatorConfig (chunk.map (estimatorRow m cfg))
            (estimatorRow m cfg row) t)) ∧
      whole.advantages[before.flatten.length + i]? = some fun t ↦
        batchNormalize m cfg.toAdvEstimatorConfig
          ((before ++ chunk :: after).flatten.map (estimatorRow m cfg))
          (rawAdvantage m cfg.toAdvEstimatorConfig
            ((before ++ chunk :: after).flatten.map (estimatorRow m cfg))
            (estimatorRow m cfg row) t) := by
  have hmem := List.mem_of_getElem? hrow
  obtain ⟨result, hresult, hget⟩ := mapM_ok_append hstreamed
  have hchunk := advantages_of_ok hresult
    (hasValidTrainingTokens_of_mem hmem hpos hlt htoken hsample)
  have hmem' : row ∈ (before ++ chunk :: after).flatten :=
    List.mem_flatten_of_mem (List.mem_append_right _ (List.mem_cons_self ..)) hmem
  have hstep := advantages_of_ok hwhole
    (hasValidTrainingTokens_of_mem hmem' hpos hlt htoken hsample)
  have hplace : (before ++ chunk :: after).flatten[before.flatten.length + i]? = some row := by
    rw [List.flatten_append, List.flatten_cons, List.getElem?_append_right (Nat.le_add_right ..),
      Nat.add_sub_cancel_left, List.getElem?_append_left (List.getElem?_eq_some_iff.mp hrow).1, hrow]
  refine ⟨result, hget, ?_, ?_⟩
  · rw [hchunk]
    exact getElem?_normalizedAdvantages m cfg hrow
  · rw [hstep]
    exact getElem?_normalizedAdvantages m cfg hplace

/-- What streaming writes for a token and what the step in one chunk does: one
raw advantage, normalised over the chunk and over the step. -/
theorem streamed_advantages
    (hprompts : cfg.usesPromptStatistics = true → PromptsApart chunks) :
    ((∃ e, streamedStage m cfg chunks = .error e) ↔
      ∃ e, advantageStage m cfg chunks.flatten = .error e) ∧
    ∀ results whole, streamedStage m cfg chunks = .ok results →
      advantageStage m cfg chunks.flatten = .ok whole →
      ∀ before chunk after, chunks = before ++ chunk :: after →
        ∀ i row t, chunk[i]? = some row → 0 < t → t < row.width → row.tokenMask t = 1 →
          maskedSample m cfg row = 1 →
          ∃ result streamed written, results[before.length]? = some result ∧
            result.advantages[i]? = some streamed ∧
            whole.advantages[before.flatten.length + i]? = some written ∧
            (cfg.name = .grpo ∨ cfg.name = .opd → streamed t = written t) ∧
            streamed t = batchNormalize m cfg.toAdvEstimatorConfig (chunk.map (estimatorRow m cfg))
              (rawAdvantage m cfg.toAdvEstimatorConfig (chunks.flatten.map (estimatorRow m cfg))
                (estimatorRow m cfg row) t) ∧
            written t = batchNormalize m cfg.toAdvEstimatorConfig
              (chunks.flatten.map (estimatorRow m cfg))
              (rawAdvantage m cfg.toAdvEstimatorConfig (chunks.flatten.map (estimatorRow m cfg))
                (estimatorRow m cfg row) t) := by
  refine ⟨streamedStage_error_iff, ?_⟩
  rintro results whole hstreamed hwhole before chunk after rfl i row t hrow hpos hlt htoken hsample
  obtain ⟨result, hget, hchunk, hstep⟩ :=
    streamed_sample hstreamed hwhole hrow hpos hlt htoken hsample
  have hraw : rawAdvantage m cfg.toAdvEstimatorConfig (chunk.map (estimatorRow m cfg))
      (estimatorRow m cfg row) t = rawAdvantage m cfg.toAdvEstimatorConfig
        ((before ++ chunk :: after).flatten.map (estimatorRow m cfg)) (estimatorRow m cfg row) t :=
    rawAdvantage_congr fun h ↦ promptGroup_chunk (hprompts h) (List.mem_of_getElem? hrow)
  refine ⟨result, _, _, hget, hchunk, hstep, fun hname ↦ ?_, ?_, rfl⟩
  · rw [batchNormalize_eq_self hname, batchNormalize_eq_self hname, hraw]
  · rw [hraw]

def StreamingInvariant (m : TensorMath K) (cfg : AdvantageStageConfig K)
    (chunks : List (List (AdvantageSample κ K))) : Prop :=
  ∀ results whole, streamedStage m cfg chunks = .ok results →
    advantageStage m cfg chunks.flatten = .ok whole →
    ∀ before chunk after, chunks = before ++ chunk :: after →
      ∀ i row t, chunk[i]? = some row → t < row.width → row.tokenMask t = 1 →
        maskedSample m cfg row = 1 →
        ∃ result streamed written, results[before.length]? = some result ∧
          result.advantages[i]? = some streamed ∧
          whole.advantages[before.flatten.length + i]? = some written ∧
          streamed t = written t

variable (m chunks) in
theorem exists_stages (h : cfg.estimatorError = none) :
    (∃ results, streamedStage m cfg chunks = .ok results) ∧
      ∃ whole, advantageStage m cfg chunks.flatten = .ok whole := by
  have hstage : ∀ e, advantageStage m cfg chunks.flatten ≠ .error e := by
    intro e he
    rw [advantageStage_error_iff, h] at he
    cases he.2
  constructor
  · cases hstreamed : streamedStage m cfg chunks with
    | ok results => exact ⟨results, rfl⟩
    | error e =>
      obtain ⟨e', he⟩ := streamedStage_error_iff.mp ⟨e, hstreamed⟩
      exact absurd he (hstage e')
  · cases hwhole : advantageStage m cfg chunks.flatten with
    | ok whole => exact ⟨whole, rfl⟩
    | error e => exact absurd hwhole (hstage e)

theorem not_streamingInvariant {chunk : List (AdvantageSample κ K)}
    {after : List (List (AdvantageSample κ K))} (herror : cfg.estimatorError = none) {i t : ℕ}
    {row : AdvantageSample κ K} (hrow : chunk[i]? = some row) (hpos : 0 < t) (hlt : t < row.width)
    (htoken : row.tokenMask t = 1) (hsample : maskedSample m cfg row = 1)
    (hne : batchNormalize m cfg.toAdvEstimatorConfig (chunk.map (estimatorRow m cfg))
        (rawAdvantage m cfg.toAdvEstimatorConfig (chunk.map (estimatorRow m cfg))
          (estimatorRow m cfg row) t) ≠
      batchNormalize m cfg.toAdvEstimatorConfig ((chunk :: after).flatten.map (estimatorRow m cfg))
        (rawAdvantage m cfg.toAdvEstimatorConfig ((chunk :: after).flatten.map (estimatorRow m cfg))
          (estimatorRow m cfg row) t)) :
    ¬ StreamingInvariant m cfg (chunk :: after) := by
  intro h
  obtain ⟨⟨results, hstreamed⟩, whole, hwhole⟩ :=
    exists_stages m (chunk :: after) herror
  obtain ⟨result, streamed, written, hget, hstream, hwrite, heq⟩ :=
    h results whole hstreamed hwhole [] chunk after rfl i row t hrow hlt htoken hsample
  have hstreamed' : streamedStage m cfg ([] ++ chunk :: after) = .ok results := hstreamed
  obtain ⟨result', hget', hchunk, hstep⟩ :=
    streamed_sample hstreamed' hwhole hrow hpos hlt htoken hsample
  obtain rfl := Option.some.inj (hget.symm.trans hget')
  have hs := Option.some.inj (hstream.symm.trans hchunk)
  have hw := Option.some.inj (hwrite.symm.trans hstep)
  rw [hs, hw] at heq
  exact hne heq

theorem not_streamingInvariant_of_not_valid {chunk : List (AdvantageSample κ K)}
    {after : List (List (AdvantageSample κ K))} (herror : cfg.estimatorError = none)
    (hchunk : hasValidTrainingTokens (chunk.map (estimatorRow m cfg)) = false)
    (hstep : hasValidTrainingTokens ((chunk :: after).flatten.map (estimatorRow m cfg)) = true)
    {i t : ℕ} {row : AdvantageSample κ K} (hrow : chunk[i]? = some row) (hlt : t < row.width)
    (htoken : row.tokenMask t = 1) (hsample : maskedSample m cfg row = 1)
    (hne : batchNormalize m cfg.toAdvEstimatorConfig ((chunk :: after).flatten.map (estimatorRow m cfg))
        (rawAdvantage m cfg.toAdvEstimatorConfig ((chunk :: after).flatten.map (estimatorRow m cfg))
          (estimatorRow m cfg row) t) ≠ 0) :
    ¬ StreamingInvariant m cfg (chunk :: after) := by
  intro h
  obtain ⟨⟨results, hstreamed⟩, whole, hwhole⟩ :=
    exists_stages m (chunk :: after) herror
  obtain ⟨result, streamed, written, hget, hstream, hwrite, heq⟩ :=
    h results whole hstreamed hwhole [] chunk after rfl i row t hrow hlt htoken hsample
  have hstreamed' : streamedStage m cfg ([] ++ chunk :: after) = .ok results := hstreamed
  obtain ⟨result', hresult, hget'⟩ := mapM_ok_append hstreamed'
  obtain rfl := Option.some.inj (hget.symm.trans hget')
  rw [advantages_of_not_valid hresult hchunk, List.getElem?_map, hrow] at hstream
  have hplace : (chunk :: after).flatten[i]? = some row := by
    rw [List.flatten_cons, List.getElem?_append_left (List.getElem?_eq_some_iff.mp hrow).1, hrow]
  have hindex : ([] : List (List (AdvantageSample κ K))).flatten.length + i = i := Nat.zero_add i
  rw [advantages_of_ok hwhole hstep, hindex, getElem?_normalizedAdvantages m cfg hplace] at hwrite
  rw [← Option.some.inj hstream, ← Option.some.inj hwrite] at heq
  exact hne heq.symm

end Streaming

section Changes

def plainStageConfig (name : AdvantageEstimator) : AdvantageStageConfig ℚ where
  name := name
  normalizeRewards := false
  useLeaveOneOutBaseline := true
  rewardWeights := none
  minusBaseline := false
  useKlInReward := false
  klCoef := 0
  klType := .k3
  repeatedBatchFields := []
  policyLogprobsRequired := false
  referenceLogprobsRequired := false
  teacherLogprobsRequired := false
  seqLogprobErrorThreshold := none

def sampleAt (position promptIds : ℕ) (reward : ℚ) : AdvantageSample ℕ ℚ where
  promptIds := promptIds
  reward := reward
  field _ := 0
  width := 2
  tokenMask t := if t = position then 1 else 0
  sampleMask := 1
  policyLogprobs _ := 0
  generationLogprobs _ := 0
  referenceLogprobs _ := 0
  teacherLogprobs _ := 0

def twoGroups : List (List (AdvantageSample ℕ ℚ)) :=
  [[sampleAt 1 0 1, sampleAt 1 0 0], [sampleAt 1 1 1, sampleAt 1 1 0]]

theorem streamed_advantages_two_groups :
    ∃ results whole, streamedStage rationalMath (plainStageConfig .grpo) twoGroups = .ok results ∧
      advantageStage rationalMath (plainStageConfig .grpo) twoGroups.flatten = .ok whole ∧
      ∃ result streamed written, results[1]? = some result ∧ result.advantages[0]? = some streamed ∧
        whole.advantages[2]? = some written ∧ streamed 1 = written 1 := by
  have hprompts : PromptsApart twoGroups := by simp [PromptsApart, twoGroups, sampleAt]
  obtain ⟨⟨results, hstreamed⟩, whole, hwhole⟩ := exists_stages rationalMath twoGroups
    (show (plainStageConfig .grpo).estimatorError = none from rfl)
  obtain ⟨result, streamed, written, hget, hstream, hwrite, heq, -⟩ :=
    (streamed_advantages fun _ ↦ hprompts).2 results whole hstreamed hwhole
      [[sampleAt 1 0 1, sampleAt 1 0 0]] [sampleAt 1 1 1, sampleAt 1 1 0] [] rfl 0 _ 1 rfl
      Nat.one_pos Nat.one_lt_two rfl rfl
  exact ⟨results, whole, hstreamed, hwhole, result, streamed, written, hget, hstream, hwrite,
    heq (.inl rfl)⟩

/-- The chunks change what Reinforce++ normalises over, the rows that a prompt
of two groups is compared with, and whether a first token counts. -/
theorem streaming_changes_advantages :
    ¬ StreamingInvariant rationalMath (plainStageConfig .reinforcePlusPlus)
        [[sampleAt 1 0 1], [sampleAt 1 1 0]] ∧
      ¬ StreamingInvariant rationalMath (plainStageConfig .grpo)
        [[sampleAt 1 0 1, sampleAt 1 0 0], [sampleAt 1 0 1, sampleAt 1 0 1]] ∧
      ¬ StreamingInvariant rationalMath (plainStageConfig .grpo)
        [[sampleAt 0 0 1, sampleAt 0 0 0], [sampleAt 1 1 1, sampleAt 1 1 0]] := by
  refine ⟨?_, ?_, ?_⟩
  · exact not_streamingInvariant (i := 0) (t := 1) rfl rfl Nat.one_pos Nat.one_lt_two rfl rfl
      (by decide +kernel)
  · exact not_streamingInvariant (i := 0) (t := 1) rfl rfl Nat.one_pos Nat.one_lt_two rfl rfl
      (by decide +kernel)
  · exact not_streamingInvariant_of_not_valid (i := 0) (t := 0) rfl (by decide +kernel)
      (by decide +kernel) rfl Nat.two_pos rfl rfl (by decide +kernel)

end Changes

end NemoRL.Algorithms
