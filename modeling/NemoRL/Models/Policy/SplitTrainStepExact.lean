import Mathlib
import NemoRL.Foundations.Blocks
import NemoRL.Models.Policy.SplitTrainStep

namespace NemoRL.Models.Policy

open Algorithms Algorithms.Loss Foundations.Blocks

variable {ρ Θ G K : Type} [Field K] [LinearOrder K] [AddCommGroup G] [Module K G]
  {m : TensorMath K} {fn : ClippedPGLossFn K} {data : ρ → LossRow K} {f : Forward ρ Θ G K}

section Counts

omit [LinearOrder K] in
theorem localValidSeqs_append (a b : List ρ) :
    localValidSeqs data (a ++ b) = localValidSeqs data a + localValidSeqs data b := by
  rw [localValidSeqs, List.map_append, List.sum_append]
  rfl

omit [LinearOrder K] in
theorem localValidToks_append (a b : List ρ) :
    localValidToks data (a ++ b) = localValidToks data a + localValidToks data b := by
  rw [localValidToks, List.map_append, List.sum_append]
  rfl

def ValidToken (row : LossRow K) : Prop :=
  ∃ t < row.width - 1, row.tokenMask (t + 1) = true ∧ row.sampleMask = true

variable [IsStrictOrderedRing K]

theorem sum_indicator_nonneg {α : Type} (l : List α) (p : α → Prop) [DecidablePred p] :
    0 ≤ (l.map fun a ↦ if p a then (1 : K) else 0).sum := by
  refine List.sum_nonneg fun x hx ↦ ?_
  obtain ⟨a, -, rfl⟩ := List.mem_map.mp hx
  split_ifs
  · exact zero_le_one
  · exact le_rfl

theorem sum_pos_of_mem {l : List K} (h : ∀ x ∈ l, 0 ≤ x) {x : K} (hx : x ∈ l) (hpos : 0 < x) :
    0 < l.sum := lt_of_lt_of_le hpos (List.single_le_sum h x hx)

theorem localValidSeqs_nonneg (rows : List ρ) : 0 ≤ localValidSeqs data rows :=
  sum_indicator_nonneg rows _

theorem localValidToks_nonneg (rows : List ρ) : 0 ≤ localValidToks data rows := by
  refine List.sum_nonneg fun x hx ↦ ?_
  obtain ⟨r, -, rfl⟩ := List.mem_map.mp hx
  exact sum_indicator_nonneg _ _

theorem localValid_pos {rows : List ρ} {r : ρ} (hr : r ∈ rows) (hvalid : ValidToken (data r)) :
    0 < localValidSeqs data rows ∧ 0 < localValidToks data rows := by
  obtain ⟨t, ht, htoken, hsample⟩ := hvalid
  constructor
  · refine sum_pos_of_mem (x := 1) (fun x hx ↦ ?_) ?_ one_pos
    · obtain ⟨s, -, rfl⟩ := List.mem_map.mp hx
      split_ifs
      · exact zero_le_one
      · exact le_rfl
    · exact List.mem_map.mpr ⟨r, hr, if_pos hsample⟩
  · refine sum_pos_of_mem (fun x hx ↦ ?_) (List.mem_map_of_mem hr) ?_
    · obtain ⟨s, -, rfl⟩ := List.mem_map.mp hx
      exact sum_indicator_nonneg _ _
    · refine sum_pos_of_mem (x := 1) (fun x hx ↦ ?_) ?_ one_pos
      · obtain ⟨s, -, rfl⟩ := List.mem_map.mp hx
        split_ifs
        · exact zero_le_one
        · exact le_rfl
      · exact List.mem_map.mpr ⟨t, List.mem_range.mpr ht, if_pos ⟨htoken, hsample⟩⟩

theorem processGlobalBatch_pos {ranks : List (RankCalls ρ)}
    (h : ∃ calls ∈ ranks, ∃ r ∈ calls.flatten.flatten, ValidToken (data r)) :
    0 < (processGlobalBatch data ranks).seqs ∧ 0 < (processGlobalBatch data ranks).toks := by
  obtain ⟨calls, hcalls, r, hr, hvalid⟩ := h
  obtain ⟨hseqs, htoks⟩ := localValid_pos hr hvalid
  constructor
  · refine sum_pos_of_mem (fun x hx ↦ ?_) (List.mem_map_of_mem hcalls) hseqs
    obtain ⟨other, -, rfl⟩ := List.mem_map.mp hx
    exact localValidSeqs_nonneg _
  · refine sum_pos_of_mem (fun x hx ↦ ?_) (List.mem_map_of_mem hcalls) htoks
    obtain ⟨other, -, rfl⟩ := List.mem_map.mp hx
    exact localValidToks_nonneg _

end Counts

section Run

variable (m fn data f) in
/-- What a microbatch deposits and reports where the call does not fail. -/
def microbatchResult (n : GlobalValid K) (rows : List ρ) : G × Metrics K :=
  (f.grad fun θ ↦ fn.loss m n (lossInputs data f θ rows),
    fn.metrics m n (lossInputs data f f.params rows))

theorem mapM_forwardBackward (hcheck : fn.check = .ok ()) (n : GlobalValid K)
    (call : List (List ρ)) :
    call.mapM (forwardBackward m fn data f n) = .ok (call.map (microbatchResult m fn data f n)) := by
  refine mapM_pure_of_forall fun rows _ ↦ ?_
  rw [forwardBackward, hcheck]
  rfl

variable (m fn data f) in
def stateAfter (microbatches : List (List ρ)) : TrainStepState G K :=
  let results := microbatches.map (microbatchResult m fn data f .placeholder)
  { localValidSeqs := localValidSeqs data microbatches.flatten
    localValidToks := localValidToks data microbatches.flatten
    mainGrad := (results.map Prod.fst).sum
    allMbMetrics := results.map Prod.snd
    mbLosses := results.map fun mb ↦ lossMetric mb.2 }

theorem trainMicrobatch_stateAfter (hcheck : fn.check = .ok ()) (microbatches call : List (List ρ)) :
    trainMicrobatch m fn data f (stateAfter m fn data f microbatches) call =
      .ok (stateAfter m fn data f (microbatches ++ call)) := by
  rw [trainMicrobatch, mapM_forwardBackward hcheck]
  simp only [stateAfter, List.flatten_append, localValidSeqs_append, localValidToks_append,
    List.map_append, List.sum_append]
  rfl

theorem foldlM_trainMicrobatch (hcheck : fn.check = .ok ()) (calls : RankCalls ρ) :
    calls.foldlM (trainMicrobatch m fn data f) beginTrainStep =
      .ok (stateAfter m fn data f calls.flatten) := by
  induction calls using List.reverseRecOn with
  | nil => rfl
  | append_singleton calls call ih =>
    rw [List.foldlM_append, ih, List.flatten_append, List.flatten_singleton]
    calc [call].foldlM (trainMicrobatch m fn data f) (stateAfter m fn data f calls.flatten)
        = trainMicrobatch m fn data f (stateAfter m fn data f calls.flatten) call := by
          rw [List.foldlM_cons]
          simp only [List.foldlM_nil]
          exact bind_pure _
      _ = _ := trainMicrobatch_stateAfter hcheck _ _

theorem splitTrainStep_ok (hcheck : fn.check = .ok ()) (ranks : List (RankCalls ρ)) :
    splitTrainStep m fn data f ranks =
      .ok (finishTrainStep fn (ranks.map fun calls ↦ stateAfter m fn data f calls.flatten)) := by
  have hranks : (ranks.mapM fun calls ↦
      calls.foldlM (trainMicrobatch m fn data f) beginTrainStep) =
        .ok (ranks.map fun calls ↦ stateAfter m fn data f calls.flatten) :=
    mapM_pure_of_forall fun calls _ ↦ foldlM_trainMicrobatch hcheck calls
  rw [splitTrainStep, hranks]
  rfl

variable (m fn data f) in
def trainResult (n : GlobalValid K) (ranks : List (RankCalls ρ)) : StepResult G K :=
  let results := ranks.map fun calls ↦ calls.flatten.map (microbatchResult m fn data f n)
  { gradient := (results.map fun rank ↦ (rank.map Prod.fst).sum).sum
    allMbMetrics := results.map fun rank ↦ rank.map Prod.snd
    globalLoss := (results.map fun rank ↦ (rank.map fun mb ↦ lossMetric mb.2).sum).sum
    globalValidSeqs := n.seqs
    globalValidToks := n.toks }

theorem train_ok (hcheck : fn.check = .ok ()) (ranks : List (RankCalls ρ)) :
    train m fn data f ranks =
      .ok (trainResult m fn data f (processGlobalBatch data ranks) ranks) := by
  have hranks : (ranks.mapM fun calls ↦
      calls.flatten.mapM (forwardBackward m fn data f (processGlobalBatch data ranks))) =
        .ok (ranks.map fun calls ↦
          calls.flatten.map (microbatchResult m fn data f (processGlobalBatch data ranks))) :=
    mapM_pure_of_forall fun calls _ ↦ mapM_forwardBackward hcheck _ _
  rw [train, hranks]
  rfl

end Run

section Scaling

variable {n : GlobalValid K}

def normalizerFactor (n : GlobalValid K) : MetricNormalizer → K
  | .none => 1
  | .tokens => n.toks⁻¹
  | .sequences => n.seqs⁻¹

theorem scaleMetric_extremum {key : MetricKey} (h : isExtremum key = true) (value : MetricValue K) :
    scaleMetric fn n (key, value) = (key, value) := if_pos h

theorem scaleMetric_finite {key : MetricKey} {kind : MetricNormalizer} (h : isExtremum key = false)
    (hkind : fn.metricNormalizations key = some kind) (value : K) :
    scaleMetric fn n (key, .finite value) = (key, .finite (value * normalizerFactor n kind)) := by
  rw [scaleMetric, h, if_neg Bool.false_ne_true]
  dsimp only
  rw [hkind]
  cases kind with
  | none => rw [normalizerFactor, mul_one]
  | tokens => rfl
  | sequences => rfl

variable {inputs : List (LossInput K)}

theorem scaleMetric_tokens {key : MetricKey} (h : isExtremum key = false)
    (hkind : fn.metricNormalizations key = some .tokens) (values : LossInput K → ℕ → K) :
    scaleMetric fn n (key, .finite (maskedMean inputs (GlobalValid.placeholder (K := K)).toks values)) =
      (key, .finite (maskedMean inputs n.toks values)) := by
  rw [scaleMetric_finite h hkind]
  exact congrArg (fun x ↦ (key, MetricValue.finite x)) (maskedMean_scale n.toks values)

theorem scaleMetric_unscaled {key : MetricKey}
    (hkind : fn.metricNormalizations key = some .none) (h : isExtremum key = false) (value : K) :
    scaleMetric fn n (key, .finite value) = (key, .finite value) := by
  rw [scaleMetric_finite h hkind, normalizerFactor, mul_one]

theorem normalizerFactor_lossType :
    normalizerFactor n (if fn.lossType = .tokenLevel then .tokens else .sequences) =
      (n.normalizer fn.lossType)⁻¹ := by
  cases fn.lossType <;> rfl

theorem scaleMetric_klPenalty (hN : n.normalizer fn.lossType ≠ 0) :
    scaleMetric fn n (.klPenalty, .finite (if fn.klLoss m .placeholder inputs ≠ 0 then
        fn.klLoss m .placeholder inputs / fn.referencePolicyKlPenalty else 0)) =
      (.klPenalty, .finite (if fn.klLoss m n inputs ≠ 0 then
        fn.klLoss m n inputs / fn.referencePolicyKlPenalty else 0)) := by
  rw [scaleMetric_finite (by decide) rfl, normalizerFactor_lossType, ← fn.klLoss_scale inputs n]
  by_cases hkl : fn.klLoss m .placeholder inputs = 0
  · simp only [hkl, zero_mul, ne_eq, not_true_eq_false, if_false]
  · have hscaled : fn.klLoss m .placeholder inputs * (n.normalizer fn.lossType)⁻¹ ≠ 0 :=
      mul_ne_zero hkl (inv_ne_zero hN)
    rw [if_pos hkl, if_pos hscaled, div_mul_eq_mul_div]

theorem scaleMetric_samplingImportanceRatio :
    scaleMetric fn n (.samplingImportanceRatio,
        .finite (fn.samplingImportanceRatio m .placeholder inputs)) =
      (.samplingImportanceRatio, .finite (fn.samplingImportanceRatio m n inputs)) := by
  rw [scaleMetric_finite (by decide) rfl, ClippedPGLossFn.samplingImportanceRatio,
    ClippedPGLossFn.samplingImportanceRatio]
  cases fn.sequenceLevelImportanceRatios with
  | false => exact congrArg (fun x ↦ (_, MetricValue.finite x)) (maskedMean_scale n.toks _)
  | true => exact congrArg (fun x ↦ (_, MetricValue.finite x)) (sampleMean_scale n.seqs _)

theorem map_scaleMetric_isOobRatio :
    ((fn.isOobRatio m .placeholder inputs).toList.map
        fun ratio ↦ (MetricKey.isOobRatio, MetricValue.finite ratio)).map (scaleMetric fn n) =
      (fn.isOobRatio m n inputs).toList.map
        fun ratio ↦ (MetricKey.isOobRatio, MetricValue.finite ratio) := by
  have hkind : ∀ type ∈ fn.truncatedImportanceSamplingType,
      fn.metricNormalizations .isOobRatio =
        some (if type = .seqMaskTis then .sequences else .tokens) := by
    intro type htype
    rw [ClippedPGLossFn.metricNormalizations, Option.mem_def.mp htype]
    rfl
  cases hratio : fn.truncatedImportanceSamplingRatio with
  | none => simp only [ClippedPGLossFn.isOobRatio, hratio]; rfl
  | some upper =>
    cases htype : fn.truncatedImportanceSamplingType with
    | none => simp only [ClippedPGLossFn.isOobRatio, hratio, htype]; rfl
    | some type =>
      have hscale : ∀ value : K, scaleMetric fn n (.isOobRatio, .finite value) = (.isOobRatio,
          .finite (value * normalizerFactor n
            (if type = .seqMaskTis then .sequences else .tokens))) :=
        scaleMetric_finite (by decide) (hkind type htype)
      cases type with
      | tis =>
        simp only [ClippedPGLossFn.isOobRatio, hratio, htype, Option.toList_some, List.map_cons,
          List.map_nil, hscale]
        exact congrArg (fun x ↦ [(_, MetricValue.finite x)]) (maskedMean_scale n.toks _)
      | icepop =>
        simp only [ClippedPGLossFn.isOobRatio, hratio, htype, Option.toList_some, List.map_cons,
          List.map_nil, hscale]
        exact congrArg (fun x ↦ [(_, MetricValue.finite x)]) (maskedMean_scale n.toks _)
      | seqMaskTis =>
        simp only [ClippedPGLossFn.isOobRatio, hratio, htype, Option.toList_some, List.map_cons,
          List.map_nil, hscale]
        exact congrArg (fun x ↦ [(_, MetricValue.finite x)]) (sampleMean_scale n.seqs _)

/-- The rescaled metrics of a call are those by the global counts, but for the loss. -/
theorem map_scaleMetric_metrics (inputs : List (LossInput K))
    (hN : n.normalizer fn.lossType ≠ 0) :
    (fn.metrics m .placeholder inputs).map (scaleMetric fn n) =
      (.loss, .finite (fn.loss m .placeholder (inputs.map LossInput.frozen) *
        (n.normalizer fn.lossType)⁻¹)) :: (fn.metrics m n inputs).tail := by
  have hloss : ∀ value : K, scaleMetric fn n (.loss, .finite value) =
      (.loss, .finite (value * (n.normalizer fn.lossType)⁻¹)) := by
    intro value
    rw [scaleMetric_finite (by decide) rfl, normalizerFactor_lossType]
  have hentropy : ∀ values : LossInput K → ℕ → K,
      scaleMetric fn n (.approxEntropy, .finite (-maskedMean (inputs.map LossInput.frozen)
        (GlobalValid.placeholder (K := K)).toks values)) =
      (.approxEntropy, .finite (-maskedMean (inputs.map LossInput.frozen) n.toks values)) := by
    intro values
    rw [scaleMetric_finite (by decide) rfl, neg_mul]
    exact congrArg (fun x ↦ (_, MetricValue.finite (-x))) (maskedMean_scale n.toks values)
  simp only [ClippedPGLossFn.metrics, List.map_append, List.map_cons, List.map_nil,
    List.cons_append, List.tail_cons, hloss, hentropy, map_scaleMetric_isOobRatio,
    scaleMetric_klPenalty hN, scaleMetric_samplingImportanceRatio]
  have htokens : ∀ key, isExtremum key = false → fn.metricNormalizations key = some .tokens →
      ∀ values : LossInput K → ℕ → K, scaleMetric fn n (key, .finite (maskedMean
        (inputs.map LossInput.frozen) (GlobalValid.placeholder (K := K)).toks values)) =
        (key, .finite (maskedMean (inputs.map LossInput.frozen) n.toks values)) :=
    fun key h hkind values ↦ scaleMetric_tokens h hkind values
  rw [htokens .probsRatio (by decide) rfl, htokens .probsRatioClamped (by decide) rfl,
    htokens .tokenMultProbError (by decide) rfl, htokens .genKlError (by decide) rfl,
    htokens .policyKlError (by decide) rfl, htokens .jsDivergenceError (by decide) rfl,
    scaleMetric_extremum (by decide), scaleMetric_extremum (by decide),
    scaleMetric_extremum (by decide), scaleMetric_extremum (by decide),
    scaleMetric_unscaled rfl (by decide), scaleMetric_unscaled rfl (by decide)]

theorem map_scaleMetric_metrics_iff (inputs : List (LossInput K))
    (hN : n.normalizer fn.lossType ≠ 0) :
    (fn.metrics m .placeholder inputs).map (scaleMetric fn n) = fn.metrics m n inputs ↔
      fn.loss m .placeholder (inputs.map LossInput.frozen) * (n.normalizer fn.lossType)⁻¹ =
        fn.loss m n (inputs.map LossInput.frozen) := by
  have hcons : fn.metrics m n inputs =
      (.loss, .finite (fn.loss m n (inputs.map LossInput.frozen))) ::
        (fn.metrics m n inputs).tail := rfl
  rw [map_scaleMetric_metrics inputs hN, hcons, List.tail_cons]
  constructor
  · intro h
    exact MetricValue.finite.inj (Prod.mk.inj (List.cons.inj h).1).2
  · intro h
    rw [h]

end Scaling

section Positive

/-- A microbatch with a valid token of a sample with a positive reward, for
which the loss has a term of its own. -/
def PositiveExamples (fn : ClippedPGLossFn K) (data : ρ → LossRow K) (rows : List ρ) : Prop :=
  0 < fn.positiveExampleNllWeight ∧
    ∃ r ∈ rows, (∃ reward ∈ (data r).reward, 0 < reward) ∧ ValidToken (data r)

variable {rows : List ρ} {θ : Θ}

omit [Field K] [LinearOrder K] in
theorem validPositions_ne_nil {i : LossInput K} : i.validPositions ≠ [] ↔ ValidToken i.row := by
  have hne : i.validPositions ≠ [] ↔ ∃ t, t ∈ i.validPositions :=
    ⟨List.exists_mem_of_ne_nil _, fun ⟨_, ht⟩ ↦ List.ne_nil_of_mem ht⟩
  rw [hne]
  simp only [LossInput.validPositions, LossInput.positions, LossInput.mask, List.mem_filter,
    List.mem_range, Bool.and_eq_true]
  exact Iff.rfl

theorem correctPositions_ne_nil {i : LossInput K} :
    ClippedPGLossFn.correctPositions i ≠ [] ↔
      (∃ reward ∈ i.row.reward, 0 < reward) ∧ ValidToken i.row := by
  rw [ClippedPGLossFn.correctPositions, ← validPositions_ne_nil]
  by_cases h : ∃ reward ∈ i.row.reward, 0 < reward
  · rw [if_pos h]
    exact ⟨fun hne ↦ ⟨h, hne⟩, And.right⟩
  · rw [if_neg h]
    exact ⟨fun hne ↦ absurd rfl hne, fun hboth ↦ absurd hboth.1 h⟩

variable [IsStrictOrderedRing K]

theorem correctValidToks_pos_iff {inputs : List (LossInput K)} :
    0 < (((inputs.map fun i ↦ (ClippedPGLossFn.correctPositions i).length).sum : ℕ) : K) ↔
      ∃ i ∈ inputs, ClippedPGLossFn.correctPositions i ≠ [] := by
  rw [Nat.cast_pos, Nat.pos_iff_ne_zero, ne_eq, List.sum_eq_zero_iff]
  simp only [List.mem_map, forall_exists_index, and_imp, forall_apply_eq_imp_iff₂, not_forall,
    List.length_eq_zero_iff, exists_prop, ne_eq]

omit [IsStrictOrderedRing K] in
theorem exists_correct_iff :
    (∃ i ∈ lossInputs data f θ rows, ClippedPGLossFn.correctPositions i ≠ []) ↔
      ∃ r ∈ rows, (∃ reward ∈ (data r).reward, 0 < reward) ∧ ValidToken (data r) := by
  simp only [correctPositions_ne_nil, lossInputs, List.mem_map, exists_exists_and_eq_and]

theorem nllLoss_eq_zero (h : ¬ PositiveExamples fn data rows) :
    fn.positiveExampleNllWeight * fn.nllLoss (lossInputs data f θ rows) = 0 := by
  have hno : ¬ (0 < fn.positiveExampleNllWeight ∧
      (0 : K) < (((lossInputs data f θ rows).map fun i ↦
        (ClippedPGLossFn.correctPositions i).length).sum : ℕ)) := by
    rintro ⟨hweight, hpos⟩
    exact h ⟨hweight, exists_correct_iff.mp (correctValidToks_pos_iff.mp hpos)⟩
  rw [ClippedPGLossFn.nllLoss, if_neg hno, mul_zero]

theorem nllLoss_eq_one (h : PositiveExamples fn data rows)
    (hlogprobs : ∀ r, f.logprobs θ r = ⟨fun _ ↦ -1, fun _ ↦ -1⟩) :
    fn.nllLoss (lossInputs data f θ rows) = 1 := by
  have hpos := correctValidToks_pos_iff.mpr ((exists_correct_iff (f := f) (θ := θ)).mpr h.2)
  have hsum : ((lossInputs data f θ rows).map fun i ↦
      ((ClippedPGLossFn.correctPositions i).map fun t ↦ -i.live.curr t).sum).sum =
        (((lossInputs data f θ rows).map fun i ↦
          (ClippedPGLossFn.correctPositions i).length).sum : ℕ) := by
    rw [Nat.cast_list_sum, List.map_map]
    refine congrArg List.sum (List.map_congr_left fun i hi ↦ ?_)
    obtain ⟨r, -, rfl⟩ := List.mem_map.mp hi
    simp only [hlogprobs, neg_neg, List.map_const', List.sum_replicate, nsmul_eq_mul, mul_one,
      Function.comp_apply]
  rw [ClippedPGLossFn.nllLoss, if_pos ⟨h.1, hpos⟩, hsum, div_self hpos.ne']

end Positive

section Step

variable [IsStrictOrderedRing K] {ranks : List (RankCalls ρ)}

variable (m fn data f) in
/-- What the split step returns where no call fails and there are valid tokens. -/
def splitResult (n : GlobalValid K) (ranks : List (RankCalls ρ)) : StepResult G K :=
  let scale := (n.normalizer fn.lossType)⁻¹
  let results := ranks.map fun calls ↦ calls.flatten.map (microbatchResult m fn data f .placeholder)
  { gradient := (results.map fun rank ↦ scale • (rank.map Prod.fst).sum).sum
    allMbMetrics := results.map fun rank ↦ rank.map fun mb ↦ mb.2.map (scaleMetric fn n)
    globalLoss := (results.map fun rank ↦ (rank.map fun mb ↦ lossMetric mb.2 * scale).sum).sum
    globalValidSeqs := n.seqs
    globalValidToks := n.toks }

omit [IsStrictOrderedRing K] in
theorem finishTrainStep_stateAfter (hseqs : 0 < (processGlobalBatch data ranks).seqs)
    (htoks : 0 < (processGlobalBatch data ranks).toks) :
    finishTrainStep fn (ranks.map fun calls ↦ stateAfter m fn data f calls.flatten) =
      splitResult m fn data f (processGlobalBatch data ranks) ranks := by
  have hn : (⟨((ranks.map fun calls ↦ stateAfter m fn data f calls.flatten).map
      TrainStepState.localValidSeqs).sum, ((ranks.map fun calls ↦
        stateAfter m fn data f calls.flatten).map TrainStepState.localValidToks).sum⟩ :
      GlobalValid K) = processGlobalBatch data ranks := by
    rw [List.map_map, List.map_map]
    rfl
  have hsafe : (⟨safeCount (processGlobalBatch data ranks).seqs,
      safeCount (processGlobalBatch data ranks).toks⟩ : GlobalValid K) =
        processGlobalBatch data ranks := by
    rw [safeCount, safeCount, if_pos hseqs, if_pos htoks]
  rw [finishTrainStep, hn]
  simp only [hsafe, splitResult, List.map_map]
  simp only [stateAfter, Function.comp_def, List.map_map]

omit [LinearOrder K] [IsStrictOrderedRing K] in
theorem lossInputs_frozen (rows : List ρ) :
    (lossInputs data f f.params rows).map LossInput.frozen = lossInputs data f f.params rows := by
  rw [lossInputs, List.map_map]
  rfl

omit [IsStrictOrderedRing K] in
theorem lossMetric_metrics (n : GlobalValid K) (rows : List ρ) :
    lossMetric (fn.metrics m n (lossInputs data f f.params rows)) =
      fn.loss m n (lossInputs data f f.params rows) := by
  conv_rhs => rw [← lossInputs_frozen]
  rfl

/-- The rescaled loss of a microbatch is the loss by the global counts. -/
theorem loss_scale_eq {n : GlobalValid K} {rows : List ρ} (θ : Θ)
    (h : PositiveExamples fn data rows → n.normalizer fn.lossType = 1) :
    fn.loss m .placeholder (lossInputs data f θ rows) * (n.normalizer fn.lossType)⁻¹ =
      fn.loss m n (lossInputs data f θ rows) := by
  rw [fn.loss_scale]
  by_cases hpos : PositiveExamples fn data rows
  · rw [h hpos, inv_one, sub_self, mul_zero, add_zero]
  · rw [nllLoss_eq_zero hpos, zero_mul, add_zero]

theorem splitResult_eq (n : GlobalValid K) (hN : n.normalizer fn.lossType ≠ 0)
    (h : ∀ rows ∈ ranks.flatten.flatten, PositiveExamples fn data rows →
      n.normalizer fn.lossType = 1) :
    splitResult m fn data f n ranks = trainResult m fn data f n ranks := by
  have hloss : ∀ calls ∈ ranks, ∀ rows ∈ calls.flatten, ∀ θ,
      fn.loss m .placeholder (lossInputs data f θ rows) * (n.normalizer fn.lossType)⁻¹ =
        fn.loss m n (lossInputs data f θ rows) := by
    intro calls hcalls rows hrows θ
    obtain ⟨call, hcall, hmem⟩ := List.mem_flatten.mp hrows
    exact loss_scale_eq θ (h rows (List.mem_flatten.mpr
      ⟨call, List.mem_flatten.mpr ⟨calls, hcalls, hcall⟩, hmem⟩))
  have hgradient : ∀ calls ∈ ranks,
      (n.normalizer fn.lossType)⁻¹ • ((calls.flatten.map
        (microbatchResult m fn data f .placeholder)).map Prod.fst).sum =
        ((calls.flatten.map (microbatchResult m fn data f n)).map Prod.fst).sum := by
    intro calls hcalls
    rw [List.smul_sum, List.map_map, List.map_map, List.map_map]
    refine congrArg List.sum (List.map_congr_left fun rows hrows ↦ ?_)
    -- gradients are linear in the loss
    calc (n.normalizer fn.lossType)⁻¹ •
          f.grad (fun θ ↦ fn.loss m .placeholder (lossInputs data f θ rows))
        = f.grad ((n.normalizer fn.lossType)⁻¹ •
            fun θ ↦ fn.loss m .placeholder (lossInputs data f θ rows)) := (map_smul _ _ _).symm
      _ = f.grad (fun θ ↦ fn.loss m n (lossInputs data f θ rows)) := by
          refine congrArg f.grad (funext fun θ ↦ ?_)
          rw [Pi.smul_apply, smul_eq_mul, mul_comm]
          exact hloss calls hcalls rows hrows θ
  have hmetrics : ∀ calls ∈ ranks, ∀ rows ∈ calls.flatten,
      (fn.metrics m .placeholder (lossInputs data f f.params rows)).map (scaleMetric fn n) =
        fn.metrics m n (lossInputs data f f.params rows) := by
    intro calls hcalls rows hrows
    rw [map_scaleMetric_metrics_iff _ hN, lossInputs_frozen]
    exact hloss calls hcalls rows hrows _
  have hglobal : ∀ calls ∈ ranks, ∀ rows ∈ calls.flatten,
      lossMetric (fn.metrics m .placeholder (lossInputs data f f.params rows)) *
        (n.normalizer fn.lossType)⁻¹ =
          lossMetric (fn.metrics m n (lossInputs data f f.params rows)) := by
    intro calls hcalls rows hrows
    rw [lossMetric_metrics, lossMetric_metrics]
    exact hloss calls hcalls rows hrows _
  rw [splitResult, trainResult]
  congr 1
  · rw [List.map_map, List.map_map]
    exact congrArg List.sum (List.map_congr_left hgradient)
  · rw [List.map_map, List.map_map]
    refine List.map_congr_left fun calls hcalls ↦ ?_
    rw [Function.comp_apply, Function.comp_apply, List.map_map, List.map_map]
    exact List.map_congr_left (hmetrics calls hcalls)
  · rw [List.map_map, List.map_map]
    refine congrArg List.sum (List.map_congr_left fun calls hcalls ↦ ?_)
    rw [Function.comp_apply, Function.comp_apply, List.map_map, List.map_map]
    exact congrArg List.sum (List.map_congr_left (hglobal calls hcalls))

/-- Where the steps agree, every microbatch with a positive example has the
global count one. -/
theorem normalizer_eq_one_of_exact (hcheck : fn.check = .ok ())
    (hvalid : ∃ calls ∈ ranks, ∃ r ∈ calls.flatten.flatten, ValidToken (data r))
    (hexact : SplitStepExact m fn data ranks) {rows : List ρ}
    (hrows : rows ∈ ranks.flatten.flatten) (hpos : PositiveExamples fn data rows) :
    (processGlobalBatch data ranks).normalizer fn.lossType = 1 := by
  -- a model under which every token has log-probability minus one
  let f : Forward ρ Unit K K := ⟨fun _ _ ↦ ⟨fun _ ↦ -1, fun _ ↦ -1⟩, (), 0⟩
  obtain ⟨hseqs, htoks⟩ := processGlobalBatch_pos hvalid
  have hresults := hexact Unit K f
  rw [splitTrainStep_ok hcheck, train_ok hcheck, finishTrainStep_stateAfter hseqs htoks] at hresults
  obtain ⟨call, hcall, hmem⟩ := List.mem_flatten.mp hrows
  obtain ⟨calls, hcalls, hcall⟩ := List.mem_flatten.mp hcall
  have hrank := congrArg StepResult.allMbMetrics (Except.ok.inj hresults)
  simp only [splitResult, trainResult, List.map_map] at hrank
  have hcalls := List.map_inj_left.mp hrank calls hcalls
  simp only [Function.comp_apply, List.map_map] at hcalls
  have hmetrics := List.map_inj_left.mp hcalls rows (List.mem_flatten.mpr ⟨call, hcall, hmem⟩)
  have hN : 0 < (processGlobalBatch data ranks).normalizer fn.lossType := by
    cases fn.lossType with
    | tokenLevel => exact htoks
    | sequenceLevel => exact hseqs
  have hloss := (map_scaleMetric_metrics_iff _ hN.ne').mp hmetrics
  rw [lossInputs_frozen, fn.loss_scale, nllLoss_eq_one hpos fun _ ↦ rfl, mul_one,
    add_eq_left] at hloss
  rcases mul_eq_zero.mp hloss with hweight | hinv
  · exact absurd hweight hpos.1.ne'
  · exact inv_eq_one.mp (sub_eq_zero.mp hinv)

end Step

section Errors

variable {e : LossError}

theorem mapM_forwardBackward_error (hcheck : fn.check = .error e) (n : GlobalValid K)
    (call : List (List ρ)) :
    call.mapM (forwardBackward m fn data f n) = if call = [] then .ok [] else .error e := by
  cases call with
  | nil => rfl
  | cons rows call =>
    rw [List.mapM_cons, forwardBackward, hcheck, if_neg (List.cons_ne_nil rows call)]
    rfl

theorem foldlM_trainMicrobatch_error (hcheck : fn.check = .error e) (calls : RankCalls ρ)
    (state : TrainStepState G K) :
    (∃ result, calls.foldlM (trainMicrobatch m fn data f) state = .ok result ∧
        calls.flatten = []) ∨
      calls.foldlM (trainMicrobatch m fn data f) state = .error e := by
  induction calls generalizing state with
  | nil => exact .inl ⟨state, rfl, rfl⟩
  | cons call calls ih =>
    rw [List.foldlM_cons, trainMicrobatch, mapM_forwardBackward_error hcheck]
    cases call with
    | nil => exact ih _
    | cons rows call =>
      rw [if_neg (List.cons_ne_nil rows call)]
      exact .inr rfl

theorem mapM_error {α β : Type} {g : α → Except LossError β} {empty : α → Prop} {l : List α}
    (h : ∀ a ∈ l, (∃ b, g a = .ok b ∧ empty a) ∨ g a = .error e) (hne : ∃ a ∈ l, ¬ empty a) :
    l.mapM g = .error e := by
  induction l with
  | nil =>
    obtain ⟨a, ha, -⟩ := hne
    exact absurd ha List.not_mem_nil
  | cons a l ih =>
    obtain ⟨hhead, htail⟩ := List.forall_mem_cons.mp h
    rw [List.mapM_cons]
    rcases hhead with ⟨b, hb, hempty⟩ | herror
    · obtain ⟨c, hc, hcne⟩ := hne
      rcases List.mem_cons.mp hc with rfl | hc
      · exact absurd hempty hcne
      · rw [hb, ih htail ⟨c, hc, hcne⟩]
        rfl
    · rw [herror]
      rfl

theorem splitStepExact_of_error (hcheck : fn.check = .error e) {ranks : List (RankCalls ρ)}
    (hne : ∃ calls ∈ ranks, ¬ calls.flatten = []) : SplitStepExact m fn data ranks := by
  intro Θ G _ _ f
  have hsplit : (ranks.mapM fun calls ↦
      calls.foldlM (trainMicrobatch m fn data f) beginTrainStep) = .error e :=
    mapM_error (fun calls _ ↦ foldlM_trainMicrobatch_error hcheck calls _) hne
  have htrain : (ranks.mapM fun calls ↦
      calls.flatten.mapM (forwardBackward m fn data f (processGlobalBatch data ranks))) =
        .error e := by
    refine mapM_error (fun calls _ ↦ ?_) hne
    rw [mapM_forwardBackward_error hcheck]
    by_cases hempty : calls.flatten = []
    · exact .inl ⟨[], if_pos hempty, hempty⟩
    · exact .inr (if_neg hempty)
  rw [splitTrainStep, train, hsplit, htrain]
  rfl

end Errors

section Main

variable [IsStrictOrderedRing K]

/-- The split step agrees with `train` exactly where the loss refuses its
configuration, or the global count is one if any microbatch has a positive
example that the loss has a term for. -/
theorem splitStepExact_iff (m : TensorMath K) (fn : ClippedPGLossFn K) (data : ρ → LossRow K)
    (ranks : List (RankCalls ρ))
    (hvalid : ∃ calls ∈ ranks, ∃ r ∈ calls.flatten.flatten, ValidToken (data r)) :
    SplitStepExact m fn data ranks ↔ (∃ e, fn.check = .error e) ∨
      ∀ rows ∈ ranks.flatten.flatten, PositiveExamples fn data rows →
        (processGlobalBatch data ranks).normalizer fn.lossType = 1 := by
  obtain ⟨hseqs, htoks⟩ := processGlobalBatch_pos hvalid
  cases hcheck : fn.check with
  | error e =>
    have hne : ∃ calls ∈ ranks, ¬ calls.flatten = [] := by
      obtain ⟨calls, hcalls, r, hr, -⟩ := hvalid
      refine ⟨calls, hcalls, fun hnil ↦ ?_⟩
      rw [hnil] at hr
      exact List.not_mem_nil hr
    exact iff_of_true (splitStepExact_of_error hcheck hne) (.inl ⟨e, rfl⟩)
  | ok u =>
    constructor
    · intro hexact
      exact .inr fun rows hrows hpos ↦ normalizer_eq_one_of_exact hcheck hvalid hexact hrows hpos
    · rintro (⟨e, herror⟩ | h)
      · cases herror
      · intro Θ G _ _ f
        have hN : (processGlobalBatch data ranks).normalizer fn.lossType ≠ 0 := by
          cases fn.lossType with
          | tokenLevel => exact htoks.ne'
          | sequenceLevel => exact hseqs.ne'
        rw [splitTrainStep_ok hcheck, train_ok hcheck, finishTrainStep_stateAfter hseqs htoks,
          splitResult_eq _ hN h]

end Main

section Example

def unitMath : TensorMath ℚ := ⟨id, fun _ ↦ 1, fun _ ↦ 0, rfl⟩

/-- A token-level loss with a term for the positive examples. -/
def positiveNllFn : ClippedPGLossFn ℚ where
  disablePpoRatio := false
  ratioClipMin := 1 / 5
  ratioClipMax := 1 / 5
  ratioClipC := none
  referencePolicyKlPenalty := 0
  referencePolicyKlType := .k3
  klInputClampValue := none
  klOutputClampValue := none
  useImportanceSamplingCorrection := false
  truncatedImportanceSamplingType := none
  truncatedImportanceSamplingRatio := none
  truncatedImportanceSamplingRatioMin := none
  useOnPolicyKlApproximation := false
  forceOnPolicyRatio := false
  sequenceLevelImportanceRatios := false
  positiveExampleNllWeight := 1
  lossType := .tokenLevel
  useCispo := false
  lossType_sequence := by intro h; cases h
  cispo := by intro h; cases h
  truncated := by intro type h; cases h

/-- A prompt token and a response token of a correct sample. -/
def correctRow (_ : Fin 2) : LossRow ℚ where
  width := 2
  tokenMask t := t = 1
  sampleMask := true
  advantages _ := 0
  prevLogprobs _ := -1
  generationLogprobs _ := -1
  referencePolicyLogprobs _ := -1
  reward := some 1

theorem correctRow_valid : ∃ calls ∈ [[[[(0 : Fin 2), 1]]]],
    ∃ r ∈ calls.flatten.flatten, ValidToken (correctRow r) :=
  ⟨[[[0, 1]]], List.mem_singleton.mpr rfl, 0, by decide, 0, by decide, rfl, rfl⟩

/-- One parameter, the log-probability of every token, and a difference quotient. -/
def quotientForward : Forward (Fin 2) ℚ ℚ ℚ where
  logprobs θ _ := ⟨fun _ ↦ θ, fun _ ↦ θ⟩
  params := -1
  grad := (LinearMap.proj 0 : (ℚ → ℚ) →ₗ[ℚ] ℚ) - LinearMap.proj (-1)

/-- Two correct samples in one microbatch: the split step halves the loss and
its gradient. -/
theorem positiveNll_not_splitStepExact :
    (∃ calls ∈ [[[[(0 : Fin 2), 1]]]], ∃ r ∈ calls.flatten.flatten, ValidToken (correctRow r)) ∧
      (splitTrainStep unitMath positiveNllFn correctRow quotientForward [[[[0, 1]]]]).map
        (fun result ↦ (result.gradient, result.globalLoss)) = .ok (-1 / 2, 1 / 2) ∧
      (train unitMath positiveNllFn correctRow quotientForward [[[[0, 1]]]]).map
        (fun result ↦ (result.gradient, result.globalLoss)) = .ok (-1, 1) ∧
      ¬ SplitStepExact unitMath positiveNllFn correctRow [[[[0, 1]]]] := by
  have hsplit : (splitTrainStep unitMath positiveNllFn correctRow quotientForward
      [[[[0, 1]]]]).map (fun result ↦ (result.gradient, result.globalLoss)) =
        .ok (-1 / 2, 1 / 2) := by
    decide +kernel
  have htrain : (train unitMath positiveNllFn correctRow quotientForward
      [[[[0, 1]]]]).map (fun result ↦ (result.gradient, result.globalLoss)) = .ok (-1, 1) := by
    decide +kernel
  refine ⟨correctRow_valid, hsplit, htrain, fun hexact ↦ ?_⟩
  rw [hexact ℚ ℚ quotientForward, htrain] at hsplit
  exact absurd (Except.ok.inj hsplit) (by decide +kernel)

theorem splitStepExact_iff_positiveNll :
    SplitStepExact unitMath positiveNllFn correctRow [[[[0, 1]]]] ↔
      (∃ e, positiveNllFn.check = .error e) ∨ ∀ rows ∈ [[[[(0 : Fin 2), 1]]]].flatten.flatten,
        PositiveExamples positiveNllFn correctRow rows →
          (processGlobalBatch correctRow [[[[0, 1]]]]).normalizer positiveNllFn.lossType = 1 :=
  splitStepExact_iff unitMath positiveNllFn correctRow [[[[0, 1]]]] correctRow_valid

end Example

end NemoRL.Models.Policy
