import Mathlib
import NemoRL.Algorithms.TensorMath
import NemoRL.Foundations.Recurrences

namespace NemoRL.Algorithms

open Foundations.Recurrences

/-- `GAEConfig` with `normalize_advantages` off, and what the estimator reads of
the loss's settings. -/
structure GaeConfig (K : Type) where
  gaeLambda : K
  gaeGamma : K
  gaeLambdaValue : Option K
  gaeLambdaPolicy : Option K
  lengthAdaptiveAlpha : K
  useKlInReward : Bool
  klCoef : K
  klType : KlType

/-- A row of the tensors that the estimator is given. The mask has ones at the
tokens of the responses and zeros elsewhere. -/
structure GaeRow (K : Type) [Zero K] [One K] where
  reward : K
  mask : ℕ → K
  values : ℕ → K
  logprobsPolicy : Option (ℕ → K)
  logprobsReference : Option (ℕ → K)
  binary : ∀ t, mask t = 0 ∨ mask t = 1

/-- The two tensors that `compute_advantage` returns, a row of each. -/
structure GaeOutput (K : Type) where
  advantages : ℕ → K
  returns : ℕ → K

/-- The `argmax` over a dimension of size zero raises. -/
inductive GaeError
  | emptySequence
  deriving DecidableEq

structure GaeState (K : Type) where
  nextValues : K
  lastGaeLam : K

variable {K : Type} [Field K] [LinearOrder K] (m : TensorMath K) (cfg : GaeConfig K) (width : ℕ)
  (row : GaeRow K)

theorem ten_atLeastTwo : Nat.AtLeastTwo 10 := inferInstance

theorem twenty_atLeastTwo : Nat.AtLeastTwo 20 := inferInstance

attribute [local instance] ten_atLeastTwo twenty_atLeastTwo in
def klPenalized (t : ℕ) : K :=
  match row.logprobsPolicy, row.logprobsReference with
  | some policy, some reference =>
    if cfg.useKlInReward ∧ 0 < cfg.klCoef then
      0 - cfg.klCoef * calculateKl m cfg.klType (some 20) (some 10) none (policy t) (reference t)
    else 0
  | _, _ => 0

def lastResponseIdx : ℕ :=
  width - 1 - ((List.range width).argmax fun i ↦ row.mask (width - 1 - i)).getD 0

def buildTokenLevelRewards (t : ℕ) : K :=
  let hasResponse := (List.range width).any fun s ↦ row.mask s ≠ 0
  (klPenalized m cfg row t +
    if hasResponse ∧ t = lastResponseIdx width row then row.reward else 0) * row.mask t

def resolveLambdaPolicy : K :=
  if 0 < cfg.lengthAdaptiveAlpha then
    let respLens := ((List.range width).map row.mask).sum
    clamp 0 1 (1 - 1 / max (cfg.lengthAdaptiveAlpha * respLens) 1)
  else cfg.gaeLambdaPolicy.getD cfg.gaeLambda

def resolveLambdaValue : K := cfg.gaeLambdaValue.getD cfg.gaeLambda

def gaeStep (lam : K) (tokenLevelRewards : ℕ → K) (t : ℕ) (s : GaeState K) : GaeState K :=
  let delta := tokenLevelRewards t + cfg.gaeGamma * s.nextValues - row.values t
  let newGaeLam := delta + cfg.gaeGamma * lam * s.lastGaeLam
  let m := row.mask t
  ⟨row.values t * m + (1 - m) * s.nextValues, newGaeLam * m + (1 - m) * s.lastGaeLam⟩

def computeGae (tokenLevelRewards : ℕ → K) (gaeLambda : Option K) : GaeOutput K :=
  let lam := gaeLambda.getD cfg.gaeLambda
  let advantagesReversed := ((List.range width).reverse.foldl
    (fun acc t ↦
      (gaeStep cfg row lam tokenLevelRewards t acc.1,
        acc.2 ++ [(gaeStep cfg row lam tokenLevelRewards t acc.1).lastGaeLam]))
    ((⟨0, 0⟩ : GaeState K), [])).2
  let advantages := advantagesReversed.reverse
  ⟨fun t ↦ advantages.getD t 0, fun t ↦ advantages.getD t 0 + row.values t⟩

def gaeComputeRow : GaeOutput K :=
  let tokenLevelRewards := buildTokenLevelRewards m cfg width row
  let lamValue := resolveLambdaValue cfg
  let lamPolicy := resolveLambdaPolicy cfg width row
  let needDecouple :=
    cfg.gaeLambdaValue.isSome ∨ cfg.gaeLambdaPolicy.isSome ∨ 0 < cfg.lengthAdaptiveAlpha
  let out : GaeOutput K :=
    if needDecouple then
      ⟨(computeGae cfg width row tokenLevelRewards (some lamPolicy)).advantages,
        (computeGae cfg width row tokenLevelRewards (some lamValue)).returns⟩
    else computeGae cfg width row tokenLevelRewards none
  ⟨fun t ↦ if row.mask t = 0 then 0 else out.advantages t, out.returns⟩

def gaeComputeAdvantage (rows : List (GaeRow K)) : Except GaeError (List (GaeOutput K)) :=
  if width = 0 then .error .emptySequence else .ok (rows.map (gaeComputeRow m cfg width))

section Textbook

/-- The advantages of a response of rewards and values:
`A_t = r_t + γ V_{t+1} - V_t + γ λ A_{t+1}`, with nothing after the last token. -/
def textbookAdvantages (gamma lam : K) : List (K × K) → List K
  | [] => []
  | (reward, value) :: rest =>
    let advantages := textbookAdvantages gamma lam rest
    (reward + gamma * (rest.map Prod.snd).headD 0 - value + gamma * lam * advantages.headD 0) ::
      advantages

def responsePositions : List ℕ := (List.range width).filter fun t ↦ row.mask t = 1

/-- The row without its masked positions: the penalties with the reward added at
the last token, and the values. -/
def responseTokens : List (K × K) :=
  (((responsePositions width row).map (klPenalized m cfg row)).modifyLast (· + row.reward)).zip
    ((responsePositions width row).map row.values)

structure PlainGae (out : GaeOutput K) : Prop where
  advantages : (responsePositions width row).map out.advantages =
    textbookAdvantages cfg.gaeGamma (resolveLambdaPolicy cfg width row)
      (responseTokens m cfg width row)
  returns : (responsePositions width row).map out.returns =
    List.zipWith (· + ·)
      (textbookAdvantages cfg.gaeGamma (resolveLambdaValue cfg) (responseTokens m cfg width row))
      ((responsePositions width row).map row.values)
  masked : ∀ t, row.mask t = 0 → out.advantages t = 0

/-- Two rows that differ at masked positions only. -/
structure SameResponse (row row' : GaeRow K) : Prop where
  reward : row.reward = row'.reward
  mask : row.mask = row'.mask
  values : ∀ t, row.mask t = 1 → row.values t = row'.values t
  logprobsPolicy : ∀ t, row.mask t = 1 →
    row.logprobsPolicy.map (· t) = row'.logprobsPolicy.map (· t)
  logprobsReference : ∀ t, row.mask t = 1 →
    row.logprobsReference.map (· t) = row'.logprobsReference.map (· t)

end Textbook

section Loop

variable {cfg row}

omit [LinearOrder K] in
theorem mask_eq_one_iff {t : ℕ} : row.mask t = 1 ↔ row.mask t ≠ 0 := by
  rcases row.binary t with h | h
  · simp [h]
  · simp [h]

theorem mem_responsePositions {width t : ℕ} :
    t ∈ responsePositions width row ↔ t < width ∧ row.mask t = 1 := by
  rw [responsePositions, List.mem_filter, List.mem_range, decide_eq_true_iff]

omit [LinearOrder K] in
theorem gaeStep_of_one {lam : K} {rewards : ℕ → K} {t : ℕ} (h : row.mask t = 1) (s : GaeState K) :
    gaeStep cfg row lam rewards t s =
      ⟨row.values t, rewards t + cfg.gaeGamma * s.nextValues - row.values t +
        cfg.gaeGamma * lam * s.lastGaeLam⟩ := by
  simp only [gaeStep, h, mul_one, sub_self, zero_mul, add_zero]

omit [LinearOrder K] in
theorem gaeStep_of_zero {lam : K} {rewards : ℕ → K} {t : ℕ} (h : row.mask t = 0) (s : GaeState K) :
    gaeStep cfg row lam rewards t s = s := by
  simp only [gaeStep, h, mul_zero, sub_zero, one_mul, zero_add]

omit [LinearOrder K] in
theorem textbookAdvantages_eq (gamma lam : K) (l : List (K × K)) :
    let step : K × K → GaeState K → GaeState K := fun p s ↦
      ⟨p.2, p.1 + gamma * s.nextValues - p.2 + gamma * lam * s.lastGaeLam⟩
    (backward step ⟨0, 0⟩ l).map GaeState.lastGaeLam = textbookAdvantages gamma lam l ∧
      (l.foldr step ⟨0, 0⟩).nextValues = (l.map Prod.snd).headD 0 ∧
      (l.foldr step ⟨0, 0⟩).lastGaeLam = (textbookAdvantages gamma lam l).headD 0 := by
  intro step
  induction l with
  | nil => exact ⟨rfl, rfl, rfl⟩
  | cons p rest ih =>
    obtain ⟨hstates, hvalue, hadvantage⟩ := ih
    have hhead : (step p (rest.foldr step ⟨0, 0⟩)).lastGaeLam =
        p.1 + gamma * (rest.map Prod.snd).headD 0 - p.2 +
          gamma * lam * (textbookAdvantages gamma lam rest).headD 0 := by
      rw [← hvalue, ← hadvantage]
    refine ⟨?_, rfl, hhead⟩
    rw [backward_cons, List.map_cons, hstates, hhead]
    rfl

omit [LinearOrder K] in
theorem computeGae_advantages (rewards : ℕ → K) (lam : Option K) :
    (computeGae cfg width row rewards lam).advantages = fun t ↦
      ((backward (gaeStep cfg row (lam.getD cfg.gaeLambda) rewards) ⟨0, 0⟩
        (List.range width)).map GaeState.lastGaeLam).getD t 0 := by
  simp only [computeGae]
  rw [foldl_reverse_collect, List.reverse_reverse]

/-- At the kept positions the loop computes the textbook's advantages of the
rewards and the values there. -/
theorem map_computeGae (rewards : ℕ → K) (lam : Option K) :
    (responsePositions width row).map (computeGae cfg width row rewards lam).advantages =
      textbookAdvantages cfg.gaeGamma (lam.getD cfg.gaeLambda)
        ((responsePositions width row).map fun t ↦ (rewards t, row.values t)) := by
  set lam' := lam.getD cfg.gaeLambda with hlam
  set step : ℕ → GaeState K → GaeState K := fun t s ↦
    ⟨row.values t, rewards t + cfg.gaeGamma * s.nextValues - row.values t +
      cfg.gaeGamma * lam' * s.lastGaeLam⟩ with hstep
  set out := backward (gaeStep cfg row lam' rewards) (⟨0, 0⟩ : GaeState K) (List.range width)
    with hout
  have hlen : out.length = width := by rw [hout, length_backward, List.length_range]
  have hkept := @backward_masked _ _ step (gaeStep cfg row lam' rewards) (⟨0, 0⟩ : GaeState K)
    (fun t ↦ row.mask t = 1) (fun t s h ↦ gaeStep_of_one (of_decide_eq_true h) s)
    (fun t s h ↦ gaeStep_of_zero
      (not_not.mp fun hne ↦ of_decide_eq_false h (mask_eq_one_iff.mpr hne)) s) (List.range width)
  have hread : (responsePositions width row).map (fun t ↦ out.getD t ⟨0, 0⟩) =
      backward step ⟨0, 0⟩ (responsePositions width row) := by
    have hget := map_getD_filter_range (fun t ↦ row.mask t = 1) out ⟨0, 0⟩
    rw [hlen] at hget
    rw [responsePositions, hget, hkept]
  have hadv : (computeGae cfg width row rewards lam).advantages = fun t ↦
      (out.getD t ⟨0, 0⟩).lastGaeLam := by
    rw [computeGae_advantages]
    funext t
    exact List.getD_map out ⟨0, 0⟩ GaeState.lastGaeLam
  rw [hadv, ← (textbookAdvantages_eq cfg.gaeGamma lam' _).1, backward_map, ← hread, List.map_map]
  rfl

end Loop

section Rewards

variable {m cfg width row}

omit [Field K] in
theorem argmax_range {f : ℕ → K} {n i : ℕ} (h : (List.range n).argmax f = some i) :
    i < n ∧ (∀ a < n, f a ≤ f i) ∧ ∀ a < n, f i ≤ f a → i ≤ a := by
  obtain ⟨hmem, hmax, hfirst⟩ := List.argmax_eq_some_iff.mp h
  have hidx : ∀ a < n, (List.range n).idxOf a = a := fun a ha ↦ by
    have hget := List.nodup_range.idxOf_getElem a (by rwa [List.length_range])
    rwa [List.getElem_range] at hget
  have hi := List.mem_range.mp hmem
  refine ⟨hi, fun a ha ↦ hmax a (List.mem_range.mpr ha), fun a ha hle ↦ ?_⟩
  have hle' := hfirst a (List.mem_range.mpr ha) hle
  rwa [hidx i hi, hidx a ha] at hle'

theorem lastResponseIdx_spec [IsStrictOrderedRing K] {t : ℕ}
    (ht : t ∈ responsePositions width row) :
    lastResponseIdx width row ∈ responsePositions width row ∧ t ≤ lastResponseIdx width row := by
  obtain ⟨htw, htm⟩ := mem_responsePositions.mp ht
  obtain ⟨i, hi⟩ : ∃ i, (List.range width).argmax (fun i ↦ row.mask (width - 1 - i)) = some i :=
    Option.ne_none_iff_exists'.mp fun hnone ↦ by
      have hnil := List.argmax_eq_none.mp hnone
      have hzero : width = 0 := List.range_eq_nil.mp hnil
      omega
  obtain ⟨hiw, hmax, hfirst⟩ := argmax_range hi
  have hflip : width - 1 - (width - 1 - t) = t := by omega
  have hone : row.mask (width - 1 - i) = 1 := by
    refine mask_eq_one_iff.mpr fun hzero ↦ ?_
    have hle := hmax (width - 1 - t) (by omega)
    rw [hflip, htm, hzero] at hle
    exact absurd hle (not_le.mpr zero_lt_one)
  have hle : i ≤ width - 1 - t := hfirst (width - 1 - t) (by omega) (by rw [hflip, hone, htm])
  rw [lastResponseIdx, hi, Option.getD_some]
  exact ⟨mem_responsePositions.mpr ⟨by omega, hone⟩, by omega⟩

theorem sorted_responsePositions : (responsePositions width row).Pairwise (· < ·) :=
  List.pairwise_lt_range.filter _

theorem buildTokenLevelRewards_of_one {t : ℕ} (ht : t ∈ responsePositions width row) :
    buildTokenLevelRewards m cfg width row t = klPenalized m cfg row t +
      if t = lastResponseIdx width row then row.reward else 0 := by
  obtain ⟨htw, htm⟩ := mem_responsePositions.mp ht
  have hany : ((List.range width).any fun s ↦ row.mask s ≠ 0) = true :=
    List.any_eq_true.mpr ⟨t, List.mem_range.mpr htw, decide_eq_true (mask_eq_one_iff.mp htm)⟩
  simp only [buildTokenLevelRewards, hany, htm, mul_one, true_and]

theorem map_buildTokenLevelRewards [IsStrictOrderedRing K] :
    (responsePositions width row).map (buildTokenLevelRewards m cfg width row) =
      ((responsePositions width row).map (klPenalized m cfg row)).modifyLast (· + row.reward) := by
  have hrewards : (responsePositions width row).map (buildTokenLevelRewards m cfg width row) =
      (responsePositions width row).map fun t ↦ klPenalized m cfg row t +
        if t = lastResponseIdx width row then row.reward else 0 :=
    List.map_congr_left fun t ht ↦ buildTokenLevelRewards_of_one ht
  rw [hrewards]
  rcases List.eq_nil_or_concat (responsePositions width row) with hnil | ⟨init, last, hconcat⟩
  · rw [hnil]
    rfl
  rw [List.concat_eq_append] at hconcat
  have hlast : last ∈ responsePositions width row := by simp [hconcat]
  obtain ⟨hmem, hle⟩ := lastResponseIdx_spec hlast
  have hbefore : ∀ t ∈ init, t < last := fun t ht ↦ by
    have hsorted := @sorted_responsePositions _ _ _ width row
    rw [hconcat] at hsorted
    exact (List.pairwise_append.mp hsorted).2.2 t ht last (by simp)
  have heq : lastResponseIdx width row = last := by
    rw [hconcat, List.mem_append, List.mem_singleton] at hmem
    rcases hmem with hin | heq
    · exact absurd (hbefore _ hin) (not_lt.mpr hle)
    · exact heq
  have hinit : init.map (fun t ↦ klPenalized m cfg row t + if t = last then row.reward else 0) =
      init.map (klPenalized m cfg row) :=
    List.map_congr_left fun t ht ↦ by rw [if_neg (hbefore t ht).ne, add_zero]
  rw [hconcat, heq, List.map_append, hinit, List.map_append, List.map_singleton,
    List.map_singleton, List.modifyLast_concat, if_pos rfl]

theorem responseTokens_eq [IsStrictOrderedRing K] :
    (responsePositions width row).map
        (fun t ↦ (buildTokenLevelRewards m cfg width row t, row.values t)) =
      responseTokens m cfg width row := by
  rw [responseTokens, ← map_buildTokenLevelRewards, List.zip_map']

end Rewards

section Exact

variable {m cfg width row}

theorem gaeComputeRow_eq :
    gaeComputeRow m cfg width row =
      ⟨fun t ↦ if row.mask t = 0 then 0 else (computeGae cfg width row
          (buildTokenLevelRewards m cfg width row) (some (resolveLambdaPolicy cfg width row))).advantages t,
        (computeGae cfg width row (buildTokenLevelRewards m cfg width row)
          (some (resolveLambdaValue cfg))).returns⟩ := by
  rw [gaeComputeRow]
  by_cases hdecouple :
      cfg.gaeLambdaValue.isSome ∨ cfg.gaeLambdaPolicy.isSome ∨ 0 < cfg.lengthAdaptiveAlpha
  · simp only [if_pos hdecouple]
  · simp only [if_neg hdecouple]
    rw [not_or, not_or, Option.not_isSome_iff_eq_none, Option.not_isSome_iff_eq_none] at hdecouple
    obtain ⟨hvalue, hpolicy, hadaptive⟩ := hdecouple
    rw [resolveLambdaPolicy, if_neg hadaptive, hpolicy, resolveLambdaValue, hvalue]
    rfl

theorem gaeComputeRow_plain [IsStrictOrderedRing K] :
    PlainGae m cfg width row (gaeComputeRow m cfg width row) := by
  rw [gaeComputeRow_eq]
  refine ⟨?_, ?_, fun t ht ↦ if_pos ht⟩
  · rw [← responseTokens_eq]
    have hpolicy := @map_computeGae _ _ _ cfg width row (buildTokenLevelRewards m cfg width row)
      (some (resolveLambdaPolicy cfg width row))
    rw [Option.getD_some] at hpolicy
    rw [← hpolicy]
    refine List.map_congr_left fun t ht ↦ if_neg ?_
    exact mask_eq_one_iff.mp (mem_responsePositions.mp ht).2
  · rw [← responseTokens_eq]
    have hvalue := @map_computeGae _ _ _ cfg width row (buildTokenLevelRewards m cfg width row)
      (some (resolveLambdaValue cfg))
    rw [Option.getD_some] at hvalue
    rw [← hvalue, List.zipWith_map, List.zipWith_self]
    rfl

namespace SameResponse

variable {row' : GaeRow K} (h : SameResponse row row')

include h

theorem responsePositions : responsePositions width row = responsePositions width row' := by
  rw [Algorithms.responsePositions, h.mask, Algorithms.responsePositions]

theorem resolveLambdaPolicy :
    resolveLambdaPolicy cfg width row = resolveLambdaPolicy cfg width row' := by
  rw [Algorithms.resolveLambdaPolicy, h.mask, Algorithms.resolveLambdaPolicy]

theorem klPenalized {t : ℕ} (ht : row.mask t = 1) :
    klPenalized m cfg row t = klPenalized m cfg row' t := by
  have hpolicy := h.logprobsPolicy t ht
  have hreference := h.logprobsReference t ht
  rw [Algorithms.klPenalized, Algorithms.klPenalized]
  cases hp : row.logprobsPolicy with
  | none =>
    rw [hp, Option.map_none, eq_comm, Option.map_eq_none_iff] at hpolicy
    rw [hpolicy]
  | some policy =>
    rw [hp, Option.map_some, eq_comm, Option.map_eq_some_iff] at hpolicy
    obtain ⟨policy', hp', hpolicy⟩ := hpolicy
    cases hr : row.logprobsReference with
    | none =>
      rw [hr, Option.map_none, eq_comm, Option.map_eq_none_iff] at hreference
      rw [hp', hreference]
    | some reference =>
      rw [hr, Option.map_some, eq_comm, Option.map_eq_some_iff] at hreference
      obtain ⟨reference', hr', hreference⟩ := hreference
      simp only [hp', hr', hpolicy, hreference]

theorem responseTokens : responseTokens m cfg width row = responseTokens m cfg width row' := by
  have hmask : ∀ t ∈ Algorithms.responsePositions width row, row.mask t = 1 := fun t ht ↦
    (mem_responsePositions.mp ht).2
  have hkl : (Algorithms.responsePositions width row).map (Algorithms.klPenalized m cfg row) =
      (Algorithms.responsePositions width row).map (Algorithms.klPenalized m cfg row') :=
    List.map_congr_left fun t ht ↦ h.klPenalized (hmask t ht)
  have hvalues : (Algorithms.responsePositions width row).map row.values =
      (Algorithms.responsePositions width row).map row'.values :=
    List.map_congr_left fun t ht ↦ h.values t (hmask t ht)
  rw [Algorithms.responseTokens, hkl, hvalues, h.reward, h.responsePositions,
    Algorithms.responseTokens]

end SameResponse

theorem PlainGae.eq_of_same {row' : GaeRow K} {out out' : GaeOutput K}
    (p : PlainGae m cfg width row out) (p' : PlainGae m cfg width row' out')
    (h : SameResponse row row') :
    (∀ t < width, out.advantages t = out'.advantages t) ∧
      ∀ t ∈ responsePositions width row, out.returns t = out'.returns t := by
  have hadvantages := p'.advantages
  have hreturns := p'.returns
  rw [← h.responsePositions, ← h.resolveLambdaPolicy, ← h.responseTokens, ← p.advantages]
    at hadvantages
  have hvalues : (responsePositions width row).map row'.values =
      (responsePositions width row).map row.values :=
    List.map_congr_left fun t ht ↦ (h.values t (mem_responsePositions.mp ht).2).symm
  rw [← h.responsePositions, ← h.responseTokens, hvalues, ← p.returns] at hreturns
  refine ⟨fun t ht ↦ ?_, fun t ht ↦ (List.map_inj_left.mp hreturns t ht).symm⟩
  rcases row.binary t with hzero | hone
  · rw [p.masked t hzero, p'.masked t (by rw [← h.mask, hzero])]
  · exact (List.map_inj_left.mp hadvantages t (mem_responsePositions.mpr ⟨ht, hone⟩)).symm

variable (m cfg width)

/-- Advantage estimation with carry-forward masking is the textbook's on the
response tokens alone, and reads nothing at the masked positions. -/
theorem gaeComputeAdvantage_plain [IsStrictOrderedRing K] (rows : List (GaeRow K)) :
    (width ≠ 0 → ∃ out, gaeComputeAdvantage m cfg width rows = .ok out) ∧
      ∀ out, gaeComputeAdvantage m cfg width rows = .ok out →
        List.Forall₂ (PlainGae m cfg width) rows out ∧
          ∀ rows', List.Forall₂ SameResponse rows rows' →
            ∃ out', gaeComputeAdvantage m cfg width rows' = .ok out' ∧
              ∀ (i : ℕ) (row : GaeRow K) (o o' : GaeOutput K),
                rows[i]? = some row → out[i]? = some o → out'[i]? = some o' →
                (∀ t < width, o.advantages t = o'.advantages t) ∧
                  ∀ t ∈ responsePositions width row, o.returns t = o'.returns t := by
  refine ⟨fun hwidth ↦ ⟨_, if_neg hwidth⟩, fun out hout ↦ ?_⟩
  have hwidth : width ≠ 0 := fun hzero ↦ by
    rw [gaeComputeAdvantage, if_pos hzero] at hout
    cases hout
  rw [gaeComputeAdvantage, if_neg hwidth, Except.ok.injEq] at hout
  subst hout
  refine ⟨List.forall₂_map_right_iff.mpr (List.forall₂_same.mpr fun row _ ↦ gaeComputeRow_plain),
    fun rows' hrows ↦ ⟨_, if_neg hwidth, fun i row o o' hrow ho ho' ↦ ?_⟩⟩
  rw [List.getElem?_map, hrow, Option.map_some, Option.some.injEq] at ho
  rw [List.getElem?_map, Option.map_eq_some_iff] at ho'
  obtain ⟨row', hrow', rfl⟩ := ho'
  have hsame : SameResponse row row' := by
    obtain ⟨hi, rfl⟩ := List.getElem?_eq_some_iff.mp hrow
    obtain ⟨hi', rfl⟩ := List.getElem?_eq_some_iff.mp hrow'
    exact hrows.get hi hi'
  rw [← ho]
  exact gaeComputeRow_plain.eq_of_same gaeComputeRow_plain hsame

theorem gapMask_binary (t : ℕ) :
    (if t = 1 ∨ t = 3 then (1 : ℚ) else 0) = 0 ∨ (if t = 1 ∨ t = 3 then (1 : ℚ) else 0) = 1 := by
  split_ifs
  · exact .inr rfl
  · exact .inl rfl

def gapRow : GaeRow ℚ :=
  ⟨1, fun t ↦ if t = 1 ∨ t = 3 then 1 else 0, fun t ↦ t, none, none, gapMask_binary⟩

def decoupledConfig : GaeConfig ℚ :=
  ⟨1, 1, some 1, some (1 / 2), 0, true, 0, .k3⟩

theorem gaeComputeAdvantage_plain_gap :
    (∃ out, gaeComputeAdvantage rationalMath decoupledConfig 5 [gapRow] = .ok out ∧
        List.Forall₂ (PlainGae rationalMath decoupledConfig 5) [gapRow] out) ∧
      responseTokens rationalMath decoupledConfig 5 gapRow = [(0, 1), (1, 3)] ∧
        textbookAdvantages 1 (1 / 2) [(0, 1), (1, 3)] = [(1 : ℚ), -2] := by
  obtain ⟨hreturns, hplain⟩ := gaeComputeAdvantage_plain rationalMath decoupledConfig 5 [gapRow]
  obtain ⟨out, hout⟩ := hreturns (by decide)
  exact ⟨⟨out, hout, (hplain out hout).1⟩, by decide +kernel, by decide +kernel⟩

end Exact

end NemoRL.Algorithms
