import Mathlib
import NemoRL.Experience.RolloutTurns
import NemoRL.Foundations.Tensors

namespace NemoRL.Experience.Rollouts

open Foundations Foundations.ActiveRows Foundations.Blocks Foundations.Classes
open Foundations.Positions

variable {ι σ : Type} {R : Setup ι σ} {P : Pointwise ι σ}

section Async

/-- The sample's own task holds what its loop alone has. -/
structure Pointwise.Follows (P : Pointwise ι σ) (a : AsyncSample ι σ) (p : Progress ι σ) :
    Prop where
  sample : a.sample = p.sample
  done : p.done = (a.terminated || a.sample.truncated)
  unnamed : P.names = none → a.rewardAcc = none
  named : ∀ names, P.names = some names → ∀ n, Dict.get (a.rewardAcc.getD []) n =
    if 0 < p.sample.turnCount ∧ n ∈ names then some (p.components n) else none
  fresh : p.sample.turnCount = 0 → ∀ n, p.components n = 0

theorem get_foldl_set {δ : Type} (g : Option ℚ → δ → ℚ) {l : Dict String δ}
    (hl : (l.map Prod.fst).Nodup) (d : Dict String ℚ) (n : String) :
    Dict.get (l.foldl (fun d c ↦ Dict.set d c.1 (g (Dict.get d c.1) c.2)) d) n =
      match Dict.get l n with
      | some v => some (g (Dict.get d n) v)
      | none => Dict.get d n := by
  induction l generalizing d with
  | nil => rfl
  | cons c l ih =>
    obtain ⟨hc, hl⟩ := List.nodup_cons.mp hl
    rw [List.foldl_cons, ih hl, Dict.get_cons]
    by_cases hn : n = c.1
    · have hnone : Dict.get l n = none := by
        rw [← Option.not_isSome_iff_eq_none, Dict.isSome_get, hn]
        exact hc
      rw [if_pos hn, hnone, hn]
      exact Dict.get_set_self ..
    · rw [if_neg hn, Dict.get_set_of_ne hn]

theorem asyncSample_sample {a : AsyncSample ι σ} {p : Progress ι σ} (h : a.sample = p.sample)
    (ht : a.sample.truncated = false) {r : Response} {rewards : Rewards} (ans : Answer ι σ)
    (hr : rewards.row 0 = P.reward ans) :
    (asyncSample R a r rewards ans.feedback).sample = (p.after R P asyncRules r ans).sample ∧
      (p.after R P asyncRules r ans).done =
        ((asyncSample R a r rewards ans.feedback).terminated ||
          (asyncSample R a r rewards ans.feedback).sample.truncated) := by
  have hused : (flatTokens a.sample.messageLog).length + r.generatedIds.length =
      r.generatedIds.length + (flatTokens p.sample.messageLog).length := by
    rw [h, Nat.add_comm]
  have hover : decide (R.maxSeqLen ≤ r.generatedIds.length +
      (flatTokens p.sample.messageLog).length +
        (R.encode ans.feedback.observation.content).length) = p.overflows R r ans := by
    rw [Nat.add_comm, Progress.overflows]
  simp only [asyncSample, Progress.after, hover, hused, hr, ht, asyncRules, Bool.true_and,
    if_true, Bool.false_or]
  rw [h] at ht ⊢
  rw [ht, Bool.false_or]
  cases ans.feedback.terminated <;> cases r.truncated <;> cases p.overflows R r ans <;>
    exact ⟨rfl, rfl⟩

theorem generateResponses_single (hP : P.Describes R) (p : Progress ι σ) :
    generateResponses R true [p.sample.toPrompt] = (p.response R P asyncRules).map ([·]) := by
  have h : generateResponses R true ([p].map fun p ↦ p.sample.toPrompt) = _ :=
    generateResponses_eq hP asyncRules [p]
  rw [List.map_cons, List.map_nil] at h
  rw [h, List.mapM_cons, List.mapM_nil]
  cases p.response R P asyncRules <;> rfl

theorem accumulateSample_get (hn : ∀ names, P.names = some names → names.Nodup)
    {rewards : Rewards} {ans : Answer ι σ} (hr : P.RewardsOf rewards [ans]) {names : List String}
    (hnames : P.names = some names) (acc : Option (Dict String ℚ)) (n : String) :
    Dict.get ((accumulateSample acc rewards).getD []) n =
      if n ∈ names then some ((Dict.get (acc.getD []) n).getD 0 + ans.component n)
      else Dict.get (acc.getD []) n := by
  rw [Pointwise.RewardsOf, hnames] at hr
  obtain ⟨columns, rfl, hcols⟩ := hr
  rw [accumulateSample, Option.getD_some, get_foldl_set (fun old c ↦ old.getD 0 + c.getD 0 0)
    (hcols.nodup (hn names hnames))]
  by_cases hmem : n ∈ names
  · rw [if_pos hmem, hcols.2 n hmem]
    rfl
  · have hnone : Dict.get columns n = none := by
      rw [← Option.not_isSome_iff_eq_none, Dict.isSome_get, hcols.mem_keys]
      exact hmem
    rw [if_neg hmem, hnone]

/-- A sample's task gives what the sample's own loop gives, where that one does not raise. -/
theorem Pointwise.Follows.turns (hP : P.Describes R) (n : ℕ) {a : AsyncSample ι σ}
    {p q : Progress ι σ} (h : P.Follows a p) (hturns : p.turns R P asyncRules n = some q) :
    ∃ a', runSampleMultiTurnRollout R n a = some a' ∧ P.Follows a' q := by
  induction n generalizing a p with
  | zero =>
    obtain rfl := Option.some.inj hturns
    exact ⟨a, rfl, h⟩
  | succ n ih =>
    by_cases hd : p.done = true
    · rw [Progress.turns_of_done hd] at hturns
      obtain rfl := Option.some.inj hturns
      exact ⟨a, by rw [runSampleMultiTurnRollout, if_pos (h.done ▸ hd)], h⟩
    · have hlive : p.done = false := by simpa using hd
      have hstop : (a.terminated || a.sample.truncated) = false := h.done ▸ hlive
      have htrunc : a.sample.truncated = false := (Bool.or_eq_false_iff.mp hstop).2
      rw [Progress.turns, turn_of_live asyncRules hlive] at hturns
      obtain ⟨p', hturn, hturns⟩ := Option.bind_eq_some_iff.mp hturns
      obtain ⟨r, hr, hturn⟩ := Option.bind_eq_some_iff.mp hturn
      split_ifs at hturn with htakes
      obtain rfl := Option.some.inj hturn
      have hprompt : (a.sample.reply r).toPrompt = (p.sample.reply r).toPrompt := by rw [h.sample]
      have hone : [(p.sample.reply r).toPrompt] ≠ [] := by simp
      obtain ⟨rewards, hcalc, hrew⟩ := hP.calculateRewards_eq hone fun x hx ↦ by
        obtain rfl := List.mem_singleton.mp hx
        exact htakes.1
      have hends := asyncSample_sample (R := R) (P := P) (r := r) h.sample htrunc (p.answer P r)
        (rewards_row hP.nodup hrew rfl)
      have hcount : (p.after R P asyncRules r (p.answer P r)).sample.turnCount =
          p.sample.turnCount + 1 := by
        simp only [Progress.after]
        split_ifs <;> rfl
      have hstep : runSampleMultiTurnRollout R (n + 1) a =
          runSampleMultiTurnRollout R n (asyncSample R a r rewards (p.answer P r).feedback) := by
        rw [runSampleMultiTurnRollout, if_neg (by simp [hstop]), h.sample,
          generateResponses_single hP, hr]
        simp only [Option.map_some, hcalc, Option.bind_eq_bind, Option.bind_some]
        rfl
      rw [hstep]
      refine ih ⟨hends.1, hends.2, fun hnone ↦ ?_, fun names hnames m ↦ ?_, fun hzero ↦ ?_⟩ hturns
      · rw [Pointwise.RewardsOf, hnone] at hrew
        subst hrew
        exact h.unnamed hnone
      · have hget := accumulateSample_get hP.nodup hrew hnames a.rewardAcc m
        rw [hcount, if_congr (and_iff_right (Nat.succ_pos _)) rfl rfl]
        change Dict.get ((accumulateSample a.rewardAcc rewards).getD []) m = _
        rw [hget, h.named names hnames m]
        by_cases hm : m ∈ names
        · rw [if_pos hm, if_pos hm]
          by_cases hpos : 0 < p.sample.turnCount
          · rw [if_pos ⟨hpos, hm⟩]
            rfl
          · rw [if_neg fun hc ↦ hpos hc.1]
            refine congrArg some (congrArg (· + _) ?_)
            exact (h.fresh (Nat.eq_zero_of_not_pos hpos) m).symm
        · rw [if_neg hm, if_neg hm, if_neg fun hc ↦ hm hc.2]
      · exact absurd hzero (by rw [hcount]; exact Nat.succ_ne_zero _)

end Async

section Agree

/-- A turn that both loops take alike: a cut response leaves no room, or the environment ends the
sample; where the sample goes on no stop strings are taken back, and none are given to a batch
without a column of them. -/
def Progress.Harmless (R : Setup ι σ) (P : Pointwise ι σ) (hasStopStrings : Bool)
    (p : Progress ι σ) : Prop :=
  ∀ r, p.response R P (syncRules hasStopStrings) = some r →
    (r.truncated = true → p.overflows R r (p.answer P r) = true ∨
      (p.answer P r).feedback.terminated = true) ∧
    (p.overflows R r (p.answer P r) = false → (p.answer P r).feedback.terminated = false →
      ((p.answer P r).feedback.nextStops = none → p.sample.stopStrings = none) ∧
      (hasStopStrings = false → (p.answer P r).feedback.nextStops = none))

def Progress.Calm (R : Setup ι σ) (P : Pointwise ι σ) (hasStopStrings : Bool) (p : Progress ι σ)
    (n : ℕ) : Prop :=
  ∀ k < n, ∀ q, p.turns R P (syncRules hasStopStrings) k = some q → q.done = false →
    q.Harmless R P hasStopStrings

/-- Without a column of stop strings the sample has none as long as it goes on. -/
def Progress.Plain (hasStopStrings : Bool) (p : Progress ι σ) : Prop :=
  hasStopStrings = false → p.done = false → p.sample.stopStrings = none

section Alike

variable {stops : Bool} {p : Progress ι σ}

theorem Progress.Plain.response_eq (h : p.Plain stops) (hlive : p.done = false) :
    p.response R P (syncRules stops) = p.response R P asyncRules := by
  have hsame : p.stops (syncRules stops) = p.stops asyncRules := by
    unfold Progress.stops syncRules asyncRules
    cases stops with
    | false => simp [h rfl hlive]
    | true => rfl
  rw [Progress.response, Progress.response, hsame]

theorem Progress.Harmless.after (h : p.Harmless R P stops) {r : Response}
    (hr : p.response R P (syncRules stops) = some r) :
    p.after R P (syncRules stops) r (p.answer P r) = p.after R P asyncRules r (p.answer P r) := by
  obtain ⟨hcut, hstops⟩ := h r hr
  have hdone : (p.overflows R r (p.answer P r) || (p.answer P r).feedback.terminated ||
      r.truncated) = (p.overflows R r (p.answer P r) ||
        (p.answer P r).feedback.terminated) := by
    cases hr : r.truncated with
    | false => rw [Bool.or_false]
    | true => rcases hcut hr with h | h <;> simp [h]
  simp only [Progress.after, syncRules, asyncRules, Bool.false_and, Bool.or_false, Bool.true_and,
    hdone, Bool.false_eq_true, if_false, if_true]
  by_cases hd : (p.overflows R r (p.answer P r) ||
      (p.answer P r).feedback.terminated) = true
  · rw [if_pos hd, if_pos hd]
  · obtain ⟨ho, ht⟩ := Bool.or_eq_false_iff.mp (Bool.not_eq_true _ ▸ hd)
    rw [if_neg hd, if_neg hd]
    have hkeep : (p.answer P r).feedback.nextStops.or p.sample.stopStrings =
        (p.answer P r).feedback.nextStops := by
      cases hn : (p.answer P r).feedback.nextStops with
      | none => exact (hstops ho ht).1 hn
      | some s => rfl
    have hsame (tokens : List ℕ) : ((p.sample.reply r).observe
        (p.answer P r).feedback.observation tokens).stopStrings = p.sample.stopStrings := rfl
    simp only [hsame, hkeep]

theorem Progress.Harmless.plain (h : p.Harmless R P stops) {r : Response}
    (hr : p.response R P (syncRules stops) = some r) :
    (p.after R P (syncRules stops) r (p.answer P r)).Plain stops := by
  intro hcolumn hlive
  simp only [Progress.after, syncRules, Bool.false_and, Bool.or_false] at hlive ⊢
  obtain ⟨hroom, hgoes⟩ := Bool.or_eq_false_iff.mp hlive
  rw [if_neg (by simp [hlive])]
  exact ((h r hr).2 hroom hgoes).2 hcolumn

theorem Progress.Calm.turns_eq {n : ℕ} (h : p.Calm R P stops n) (hplain : p.Plain stops)
    {q : Progress ι σ} (hq : p.turns R P (syncRules stops) n = some q) :
    p.turns R P asyncRules n = some q := by
  induction n generalizing p with
  | zero => exact hq
  | succ n ih =>
    by_cases hd : p.done = true
    · rw [Progress.turns_of_done hd] at hq ⊢
      exact hq
    · have hlive : p.done = false := by simpa using hd
      have hharm := h 0 (Nat.succ_pos n) p rfl hlive
      rw [Progress.turns] at hq ⊢
      obtain ⟨mid, hmid, hq⟩ := Option.bind_eq_some_iff.mp hq
      have hturn := hmid
      rw [turn_of_live _ hlive] at hturn
      obtain ⟨r, hr, hafter⟩ := Option.bind_eq_some_iff.mp hturn
      split_ifs at hafter with htakes
      obtain rfl := Option.some.inj hafter
      have hasync : p.turn R P asyncRules =
          some (p.after R P (syncRules stops) r (p.answer P r)) := by
        rw [turn_of_live _ hlive, ← hplain.response_eq hlive, hr, Option.bind_some,
          if_pos ⟨htakes.1, by simp [asyncRules]⟩, hharm.after hr]
      rw [hasync, Option.bind_some]
      refine ih (fun k hk q' hq' hd' ↦ ?_) (hharm.plain hr) hq
      refine h (k + 1) (Nat.succ_lt_succ hk) q' ?_ hd'
      rw [Progress.turns, hmid, Option.bind_some]
      exact hq'

end Alike

structure RolloutBatch.SameRows (out out' : RolloutBatch ι) : Prop where
  messageLog : out'.messageLog = out.messageLog
  extraEnvInfo : out'.extraEnvInfo = out.extraEnvInfo
  totalReward : out'.totalReward = out.totalReward
  truncated : out'.truncated = out.truncated
  rewardComponents : ∀ name : String, name.startsWith "reward/" = true →
    Dict.get out'.rewardComponents name = Dict.get out.rewardComponents name

theorem tracks_start (P : Pointwise ι σ) (rows : List (Prompt ι σ)) :
    P.Tracks (.start rows) (rows.map Prompt.progress) := by
  refine ⟨?_, ?_, ?_⟩
  · rw [List.map_map]
    rfl
  · have hall : (rows.map Prompt.progress).zipIdx.filter (fun x ↦ !x.1.done) =
        (rows.map Prompt.progress).zipIdx := by
      refine List.filter_eq_self.mpr fun x hx ↦ ?_
      obtain ⟨p, -, hp⟩ := List.mem_map.mp
        (List.fst_eq_of_mem_zipIdx hx ▸ List.getElem_mem _ : x.1 ∈ rows.map Prompt.progress)
      rw [← hp]
      rfl
    rw [liveAt, indicesWhere, hall, List.zipIdx_map_snd, List.length_map, ← List.range_eq_range']
    rfl
  · cases P.names with
    | none => rfl
    | some names =>
      refine .inl ⟨rfl, fun p hp ↦ ?_⟩
      obtain ⟨x, -, rfl⟩ := List.mem_map.mp hp
      exact ⟨rfl, rfl, rfl⟩

theorem follows_start (P : Pointwise ι σ) (p : Prompt ι σ) :
    P.Follows p.startAsync p.progress where
  sample := rfl
  done := rfl
  unnamed := fun _ ↦ rfl
  named := fun _ _ _ ↦ rfl
  fresh := fun _ _ ↦ rfl

theorem get_map_pair {δ : Type} (names : List String) (v : String → δ) (n : String) :
    Dict.get (names.map fun m ↦ (m, v m)) n = if n ∈ names then some (v n) else none := by
  induction names with
  | nil => rfl
  | cons m names ih =>
    rw [List.map_cons, Dict.get_cons, ih]
    by_cases h : n = m
    · simp [h]
    · simp [h]

def Pointwise.Named (P : Pointwise ι σ) (name : String) : Prop :=
  ∃ names, P.names = some names ∧ name ∈ names

theorem Pointwise.Tracks.get_of_turned {b : Batch ι σ} {ps : List (Progress ι σ)}
    (h : P.Tracks b ps) {name : String} (hname : P.Named name) {p : Progress ι σ} (hp : p ∈ ps)
    (hpos : 0 < p.sample.turnCount) :
    Dict.get (b.multiRewards.getD []) name = some (ps.map (·.components name)) := by
  obtain ⟨names, hnames, hmem⟩ := hname
  have hrest := h.rewards
  rw [hnames] at hrest
  rcases hrest with ⟨-, hzero⟩ | ⟨columns, hcols, hcolumns, -⟩
  · exact absurd (hzero p hp).2.1 hpos.ne'
  · rw [hcols, Option.getD_some]
    exact hcolumns.2 name hmem

theorem Pointwise.Tracks.get_of_not {b : Batch ι σ} {ps : List (Progress ι σ)}
    (h : P.Tracks b ps) {name : String} {p : Progress ι σ} (hp : p ∈ ps)
    (hnot : ¬(P.Named name ∧ 0 < p.sample.turnCount)) :
    Dict.get (b.multiRewards.getD []) name = none := by
  have hrest := h.rewards
  cases hnames : P.names with
  | none =>
    rw [hnames] at hrest
    rw [hrest]
    rfl
  | some names =>
    rw [hnames] at hrest
    rcases hrest with ⟨hnone, -⟩ | ⟨columns, hcols, hcolumns, hpos⟩
    · rw [hnone]
      rfl
    · rw [hcols, Option.getD_some, ← Option.not_isSome_iff_eq_none, Dict.isSome_get,
        hcolumns.mem_keys]
      exact fun hmem ↦ hnot ⟨⟨names, hnames, hmem⟩, hpos p hp⟩

theorem Pointwise.Follows.get_of_turned {a : AsyncSample ι σ} {p : Progress ι σ}
    (h : P.Follows a p) {name : String} (hname : P.Named name) (hpos : 0 < p.sample.turnCount) :
    Dict.get (a.rewardAcc.getD []) name = some (p.components name) := by
  obtain ⟨names, hnames, hmem⟩ := hname
  rw [h.named names hnames, if_pos ⟨hpos, hmem⟩]

theorem Pointwise.Follows.get_of_not {a : AsyncSample ι σ} {p : Progress ι σ}
    (h : P.Follows a p) {name : String} (hnot : ¬(P.Named name ∧ 0 < p.sample.turnCount)) :
    Dict.get (a.rewardAcc.getD []) name = none := by
  cases hnames : P.names with
  | none =>
    rw [h.unnamed hnames]
    rfl
  | some names =>
    rw [h.named names hnames, if_neg fun hc ↦ hnot ⟨⟨names, hnames, hc.2⟩, hc.1⟩]

theorem Pointwise.Tracks.turned {b : Batch ι σ} {ps : List (Progress ι σ)} (h : P.Tracks b ps)
    {name : String} (hname : P.Named name) {p q : Progress ι σ} (hp : p ∈ ps) (hq : q ∈ ps)
    (hpos : 0 < p.sample.turnCount) : 0 < q.sample.turnCount := by
  obtain ⟨names, hnames, -⟩ := hname
  have hrest := h.rewards
  rw [hnames] at hrest
  rcases hrest with ⟨-, hzero⟩ | ⟨-, -, -, hall⟩
  · exact absurd (hzero p hp).2.1 hpos.ne'
  · exact hall q hq

theorem sameRows_of_follows {b : Batch ι σ} {states : List (AsyncSample ι σ)}
    {ps : List (Progress ι σ)} (hne : ps ≠ []) (hb : P.Tracks b ps)
    (hs : List.Forall₂ P.Follows states ps) : b.final.SameRows (asyncFinal states) := by
  have hmap {δ : Type} (f : Sample ι σ → δ) :
      states.map (fun a ↦ f a.sample) = b.samples.map f := by
    rw [hb.samples, List.map_map]
    exact map_eq_map_of_forall₂ (hs.flip.imp fun p a h ↦ (congrArg f h.sample).symm)
  refine ⟨hmap fun s ↦ s.messageLog, hmap fun s ↦ s.extraEnvInfo, hmap fun s ↦ s.totalReward,
    hmap fun s ↦ s.truncated, fun name hname ↦ ?_⟩
  have hmem : name ∈ ((states.flatMap fun a ↦ Algorithms.getGdpoRewardComponentKeys
      ((a.rewardAcc.getD []).map Prod.fst)).dedup.mergeSort (· ≤ ·)) ↔
      ∃ a ∈ states, (Dict.get (a.rewardAcc.getD []) name).isSome := by
    rw [List.mem_mergeSort, List.mem_dedup, List.mem_flatMap]
    refine exists_congr fun a ↦ and_congr_right fun _ ↦ ?_
    rw [Algorithms.getGdpoRewardComponentKeys, List.mem_mergeSort, List.mem_filter,
      List.mem_dedup, Dict.isSome_get]
    exact and_iff_left hname
  change Dict.get (((states.flatMap fun a ↦ Algorithms.getGdpoRewardComponentKeys
    ((a.rewardAcc.getD []).map Prod.fst)).dedup.mergeSort (· ≤ ·)).map fun n ↦
      (n, states.map fun a ↦ a.component n)) name = Dict.get (b.multiRewards.getD []) name
  rw [get_map_pair]
  obtain ⟨p, hp⟩ := List.exists_mem_of_ne_nil ps hne
  obtain ⟨a, ha, hf⟩ := Tensors.exists_of_mem_right hs hp
  by_cases hturned : P.Named name ∧ 0 < p.sample.turnCount
  · obtain ⟨hn, hpos⟩ := hturned
    rw [hb.get_of_turned hn hp hpos, if_pos (hmem.mpr ⟨a, ha, by rw [hf.get_of_turned hn hpos]; rfl⟩)]
    refine congrArg some (map_eq_map_of_forall₂ (List.Forall₂.imp (fun q a h ↦ ?_)
      ((List.forall₂_and_left ps states).mpr ⟨fun _ h ↦ h, hs.flip⟩)))
    rw [AsyncSample.component, Pointwise.Follows.get_of_turned h.2 hn (hb.turned hn hp h.1 hpos)]
    rfl
  · rw [hb.get_of_not hp hturned, if_neg]
    rw [hmem]
    rintro ⟨a', ha', hsome⟩
    obtain ⟨q, hq, hf'⟩ := Tensors.exists_of_mem_left hs ha'
    rw [hf'.get_of_not fun hc ↦ hturned ⟨hc.1, hb.turned hc.1 hq hp hc.2⟩] at hsome
    exact absurd hsome (by simp)

theorem runMultiTurnRollout_tracks (hP : P.Describes R) {inputBatch : InputBatch ι σ} {n : ℕ}
    {out : RolloutBatch ι} (h : runMultiTurnRollout R inputBatch n = some out) :
    inputBatch.rows ≠ [] ∧ ∃ b ps, out = b.final ∧
      (inputBatch.rows.mapM fun p ↦
        p.progress.turns R P (syncRules inputBatch.hasStopStrings) n) = some ps ∧
      P.Tracks b ps := by
  rw [runMultiTurnRollout] at h
  split_ifs at h with hne
  obtain ⟨b, hb, rfl⟩ := Option.map_eq_some_iff.mp h
  refine ⟨hne, ?_⟩
  rcases (tracks_start P inputBatch.rows).turns hP inputBatch.hasStopStrings n with
    ⟨hnone, -⟩ | ⟨b', ps, hb', hps, ht⟩
  · exact absurd (hb.symm.trans hnone) (by simp)
  · obtain rfl := Option.some.inj (hb.symm.trans hb')
    rw [List.mapM_map] at hps
    exact ⟨b, ps, rfl, hps, ht⟩

/-- The batched loop and the loops of the single samples give the same batch, when the engine and
the environments answer each sample by itself and no turn is one that they treat differently. -/
theorem rollouts_agree (hP : P.Describes R) (inputBatch : InputBatch ι σ) (n : ℕ)
    (hcalm : ∀ p ∈ inputBatch.rows, p.progress.Calm R P inputBatch.hasStopStrings n)
    (out : RolloutBatch ι) (h : runMultiTurnRollout R inputBatch n = some out) :
    ∃ out', runMultiTurnRolloutAsync R inputBatch n = some out' ∧ out.SameRows out' := by
  obtain ⟨hne, b, ps, rfl, hps, ht⟩ := runMultiTurnRollout_tracks hP h
  have hall := forall₂_of_mapM hps
  have hasync : List.Forall₂ (fun p q ↦ ∃ a, runSampleMultiTurnRollout R n p.startAsync = some a ∧
      P.Follows a q) inputBatch.rows ps := by
    refine List.Forall₂.imp (fun p q hpq ↦ ?_) ((List.forall₂_and_left inputBatch.rows ps).mpr
      ⟨fun p hp ↦ And.intro (hcalm p hp) fun hcolumn ↦ inputBatch.plain hcolumn p hp, hall⟩)
    obtain ⟨⟨hcalm, hplain⟩, hturns⟩ := hpq
    exact (follows_start P p).turns hP n (hcalm.turns_eq (fun hcolumn _ ↦ hplain hcolumn) hturns)
  have hrun : ∀ {l : List (Prompt ι σ)} {ps : List (Progress ι σ)},
      List.Forall₂ (fun p q ↦ ∃ a, runSampleMultiTurnRollout R n p.startAsync = some a ∧
        P.Follows a q) l ps →
      ∃ states, (l.mapM fun p ↦ runSampleMultiTurnRollout R n p.startAsync) = some states ∧
        List.Forall₂ P.Follows states ps := by
    intro l ps hl
    induction hl with
    | nil => exact ⟨[], rfl, .nil⟩
    | cons ha _ ih =>
      obtain ⟨a, hrun, hf⟩ := ha
      obtain ⟨states, hstates, hfs⟩ := ih
      exact ⟨a :: states, by rw [List.mapM_cons, hrun, hstates]; rfl, .cons hf hfs⟩
  obtain ⟨states, hstates, hfs⟩ := hrun hasync
  refine ⟨asyncFinal states, ?_, sameRows_of_follows ?_ ht hfs⟩
  · rw [runMultiTurnRolloutAsync, if_neg hne, hstates]
    rfl
  · rintro rfl
    exact hne (List.forall₂_nil_right_iff.mp hall)

/-- The columns of a batch are those of its parts, one after the other. -/
structure RolloutBatch.Stacks (out : RolloutBatch ι) (outs : List (RolloutBatch ι)) : Prop where
  messageLog : out.messageLog = outs.flatMap RolloutBatch.messageLog
  extraEnvInfo : out.extraEnvInfo = outs.flatMap RolloutBatch.extraEnvInfo
  totalReward : out.totalReward = outs.flatMap RolloutBatch.totalReward
  truncated : out.truncated = outs.flatMap RolloutBatch.truncated
  rewardComponents : ∀ name, Dict.get out.rewardComponents name =
    (outs.mapM fun o ↦ Dict.get o.rewardComponents name).map List.flatten

def InputBatch.single (inputBatch : InputBatch ι σ) (p : Prompt ι σ) (hp : p ∈ inputBatch.rows) :
    InputBatch ι σ where
  rows := [p]
  hasStopStrings := inputBatch.hasStopStrings
  plain h := List.forall_mem_singleton.mpr (inputBatch.plain h p hp)

def InputBatch.singles (inputBatch : InputBatch ι σ) : List (InputBatch ι σ) :=
  inputBatch.rows.attach.map fun p ↦ inputBatch.single p.1 p.2

theorem runMultiTurnRollout_single (hP : P.Describes R) (inputBatch : InputBatch ι σ)
    (p : Prompt ι σ) (hp : p ∈ inputBatch.rows) (n : ℕ) :
    match p.progress.turns R P (syncRules inputBatch.hasStopStrings) n with
      | none => runMultiTurnRollout R (inputBatch.single p hp) n = none
      | some q => ∃ b, runMultiTurnRollout R (inputBatch.single p hp) n = some b.final ∧
          P.Tracks b [q] := by
  set stops := inputBatch.hasStopStrings
  have hmap : ([p].map Prompt.progress).mapM (Progress.turns R P (syncRules stops) n) =
      (p.progress.turns R P (syncRules stops) n).map ([·]) := by
    rw [List.map_cons, List.map_nil, List.mapM_cons, List.mapM_nil]
    cases p.progress.turns R P (syncRules stops) n <;> rfl
  have hrun : runMultiTurnRollout R (inputBatch.single p hp) n =
      (syncTurns R stops n (.start [p])).map Batch.final := if_neg (List.cons_ne_nil p [])
  rcases (tracks_start P [p]).turns hP stops n with ⟨hnone, hps⟩ | ⟨b, ps, hb, hps, ht⟩
  · rw [hmap] at hps
    rw [Option.map_eq_none_iff.mp hps]
    exact hrun.trans (by rw [hnone, Option.map_none])
  · rw [hmap] at hps
    obtain ⟨q, hq, rfl⟩ := Option.map_eq_some_iff.mp hps
    rw [hq]
    exact ⟨b, hrun.trans (by rw [hb, Option.map_some]), ht⟩

theorem exists_of_mapM_none {α β : Type*} {f : α → Option β} {l : List α}
    (h : l.mapM f = none) : ∃ a ∈ l, f a = none := by
  by_contra hall
  push Not at hall
  obtain ⟨r, hr, -⟩ := exists_forall₂ (R := fun a b ↦ f a = some b) fun a ha ↦
    Option.ne_none_iff_exists'.mp (hall a ha)
  exact absurd (h.symm.trans (mapM_eq_some hr)) (by simp)

theorem stacks_of_tracks {b : Batch ι σ} {ps : List (Progress ι σ)} (hne : ps ≠ [])
    (h : P.Tracks b ps) {outs : List (RolloutBatch ι)}
    (houts : List.Forall₂ (fun q o ↦ ∃ b : Batch ι σ, o = b.final ∧ P.Tracks b [q]) ps outs) :
    b.final.Stacks outs := by
  have hcolumn {δ : Type} (f : Sample ι σ → δ) (g : RolloutBatch ι → List δ)
      (hg : ∀ b : Batch ι σ, g b.final = b.samples.map f) :
      b.samples.map f = outs.flatMap g := by
    rw [h.samples, List.map_map]
    clear h hne
    induction houts with
    | nil => rfl
    | cons hq _ ih =>
      obtain ⟨b', rfl, ht⟩ := hq
      rw [List.map_cons, List.flatMap_cons, ih, hg, ht.samples]
      rfl
  refine ⟨hcolumn (fun s ↦ s.messageLog) _ fun _ ↦ rfl,
    hcolumn (fun s ↦ s.extraEnvInfo) _ fun _ ↦ rfl, hcolumn (fun s ↦ s.totalReward) _ fun _ ↦ rfl,
    hcolumn (fun s ↦ s.truncated) _ fun _ ↦ rfl, fun name ↦ ?_⟩
  obtain ⟨p, hp⟩ := List.exists_mem_of_ne_nil ps hne
  change Dict.get (b.multiRewards.getD []) name = _
  by_cases hturned : P.Named name ∧ 0 < p.sample.turnCount
  · obtain ⟨hn, hpos⟩ := hturned
    have hall : (outs.mapM fun o ↦ Dict.get o.rewardComponents name) =
        some (ps.map fun q ↦ [q.components name]) := by
      refine mapM_eq_some ?_
      rw [List.forall₂_map_right_iff]
      refine List.Forall₂.flip (List.Forall₂.imp (fun q o ho ↦ ?_)
        ((List.forall₂_and_left ps outs).mpr ⟨fun _ h ↦ h, houts⟩))
      obtain ⟨hq, b', rfl, ht⟩ := ho
      exact ht.get_of_turned hn List.mem_cons_self (h.turned hn hp hq hpos)
    rw [h.get_of_turned hn hp hpos, hall, Option.map_some, ← List.flatMap_def]
    exact congrArg some List.map_eq_flatMap
  · obtain ⟨o, ho, b', rfl, ht⟩ := Tensors.exists_of_mem_left houts hp
    have hnone := ht.get_of_not List.mem_cons_self hturned
    rw [h.get_of_not hp hturned, mapM_eq_none ho hnone]
    rfl

/-- What becomes of a sample in the batched loop does not depend on the others: a batch is its
samples, rolled out one by one, and raises when one of them does. -/
theorem rollouts_stack (hP : P.Describes R) (inputBatch : InputBatch ι σ)
    (hne : inputBatch.rows ≠ []) (n : ℕ) :
    (runMultiTurnRollout R inputBatch n = none ∧
        (inputBatch.singles.mapM fun one ↦ runMultiTurnRollout R one n) = none) ∨
      ∃ out outs, runMultiTurnRollout R inputBatch n = some out ∧
        (inputBatch.singles.mapM fun one ↦ runMultiTurnRollout R one n) = some outs ∧
        out.Stacks outs := by
  set stops := inputBatch.hasStopStrings with hstops
  have hrun : runMultiTurnRollout R inputBatch n =
      (syncTurns R stops n (.start inputBatch.rows)).map Batch.final := if_neg hne
  have hrows : ((inputBatch.rows.map Prompt.progress).mapM
      fun p ↦ p.turns R P (syncRules stops) n) =
      inputBatch.rows.attach.mapM fun p ↦ p.1.progress.turns R P (syncRules stops) n := by
    have hval := congrArg (List.mapM fun p : Prompt ι σ ↦ p.progress.turns R P (syncRules stops) n)
      inputBatch.rows.attach_map_subtype_val
    rw [List.mapM_map] at hval ⊢
    exact hval.symm
  rw [hrun, InputBatch.singles, List.mapM_map]
  rcases (tracks_start P inputBatch.rows).turns hP stops n with
    ⟨hnone, hps⟩ | ⟨b, ps, hb, hps, ht⟩
  · rw [hrows] at hps
    obtain ⟨p, hp, hstuck⟩ := exists_of_mapM_none hps
    have hone := runMultiTurnRollout_single hP inputBatch p.1 p.2 n
    rw [← hstops, hstuck] at hone
    exact .inl ⟨by rw [hnone, Option.map_none], mapM_eq_none hp hone⟩
  · rw [hrows] at hps
    have hall := forall₂_of_mapM hps
    have hones : ∀ {l : List {p // p ∈ inputBatch.rows}} {ps : List (Progress ι σ)},
        List.Forall₂ (fun p q ↦ p.1.progress.turns R P (syncRules stops) n = some q) l ps →
        ∃ outs, (l.mapM fun p ↦ runMultiTurnRollout R (inputBatch.single p.1 p.2) n) =
            some outs ∧
          List.Forall₂ (fun q o ↦ ∃ b : Batch ι σ, o = b.final ∧ P.Tracks b [q]) ps outs := by
      intro l ps hl
      induction hl with
      | nil => exact ⟨[], rfl, .nil⟩
      | @cons p q l ps hq _ ih =>
        have hone := runMultiTurnRollout_single hP inputBatch p.1 p.2 n
        rw [← hstops, hq] at hone
        obtain ⟨b, hb, hone⟩ := hone
        obtain ⟨outs, houts, hrest⟩ := ih
        exact ⟨b.final :: outs, by rw [List.mapM_cons, hb, houts]; rfl, .cons ⟨b, rfl, hone⟩ hrest⟩
    obtain ⟨outs, houts, hstack⟩ := hones hall
    refine .inr ⟨b.final, outs, by rw [hb, Option.map_some], houts, stacks_of_tracks ?_ ht hstack⟩
    rintro rfl
    exact hne (List.attach_eq_nil_iff.mp (List.forall₂_nil_right_iff.mp hall))

end Agree

section Echo

/-- The setup of an engine and of environments that answer each sample by itself. -/
def Pointwise.setup (P : Pointwise ι σ) (decode : List ℕ → String) (encode : String → List ℕ)
    (maxSeqLen : ℕ) : Setup ι σ :=
  { generate := fun rows ↦ rows.mapM fun r ↦ P.respond r.1 r.2
    decode := decode
    encode := encode
    taskToEnv := fun task ↦ some fun logs infos ↦
      let answers := List.zipWith (P.answer task) logs infos
      { observations := answers.map fun a ↦ a.feedback.observation
        metadata := answers.map fun a ↦ a.feedback.metadata
        nextStopStrings := some (answers.map fun a ↦ a.feedback.nextStops)
        rewards := match P.names with
          | none => .scalar (answers.map Answer.value)
          | some names => .named (names.map fun n ↦ (n, answers.map (·.component n)))
        terminateds := answers.map fun a ↦ a.feedback.terminated
        answers := some (answers.map fun a ↦ a.feedback.answer) }
    maxSeqLen := maxSeqLen }

theorem setup_describes (P : Pointwise ι σ) (decode : List ℕ → String) (encode : String → List ℕ)
    (maxSeqLen : ℕ) (hn : ∀ names, P.names = some names → names.Nodup) :
    P.Describes (P.setup decode encode maxSeqLen) := by
  have hanswers (task : String) (rows : List (List View × ι)) :
      List.zipWith (P.answer task) (rows.map Prod.fst) (rows.map Prod.snd) =
        rows.map fun x ↦ P.answer task x.1 x.2 := by
    rw [List.zipWith_map, List.zipWith_self]
  refine ⟨fun _ ↦ rfl, fun task env henv rows i ↦ ?_, fun task env henv rows ↦ ?_, hn⟩
  · obtain rfl := Option.some.inj henv
    simp only [hanswers, EnvironmentReturn.feedback, List.map_map, List.getElem?_map,
      Option.getD_some]
    cases rows[i]? <;> rfl
  · obtain rfl := Option.some.inj henv
    unfold Pointwise.RewardsOf
    cases hnames : P.names with
    | none => simp only [hanswers]
    | some names =>
      simp only [hanswers]
      refine ⟨_, rfl, ?_, fun n hmem ↦ ?_⟩
      · rw [List.map_map]
        exact (List.map_id' names).symm ▸ List.Perm.refl _
      · rw [get_map_pair, if_pos hmem]

/-- An engine that adds one token to what it is given, cut or not, before an environment that
rewards every turn. -/
def echo (cut : Bool) : Pointwise Unit Unit :=
  { respond := fun tokens _ ↦
      if tokens.length < 8 then some ⟨tokens ++ [7], tokens.length + 1, none, cut⟩ else none
    answer := fun _ _ _ ↦ ⟨⟨⟨"user", "go on"⟩, none, some (), false, none⟩, 1, fun _ ↦ 0⟩
    names := none }

def echoSetup (cut : Bool) : Setup Unit Unit := (echo cut).setup (fun _ ↦ "") (fun _ ↦ [1]) 8

def echoPrompt : Prompt Unit Unit := ⟨[⟨"user", "start", [1, 2], none⟩], (), "echo", none⟩

theorem echo_describes (cut : Bool) : (echo cut).Describes (echoSetup cut) :=
  setup_describes _ _ _ _ fun _ h ↦ absurd h (by simp [echo])

theorem echo_calm (p : Progress Unit Unit) (n : ℕ) :
    p.Calm (echoSetup false) (echo false) true n := by
  refine fun k _ q _ _ r hr ↦ ⟨fun hcut ↦ ?_, fun _ _ ↦ ⟨fun hn ↦ absurd hn (by
    simp [Progress.answer, Pointwise.answerOf, echo]), fun h ↦ absurd h (by simp)⟩⟩
  obtain ⟨out, hout, rfl⟩ := Option.map_eq_some_iff.mp hr
  simp only [echo] at hout
  split_ifs at hout
  obtain rfl := Option.some.inj hout
  exact absurd hcut (by simp [respond])

def echoBatch : InputBatch Unit Unit :=
  ⟨[echoPrompt, echoPrompt], true, fun h ↦ absurd h (by decide)⟩

theorem echo_turns (cut : Bool) : ∃ q,
    echoPrompt.progress.turns (echoSetup cut) (echo cut) (syncRules true) 2 = some q ∧
      q.sample.messageLog.length = 5 :=
  ⟨_, rfl, rfl⟩

theorem echo_runs (cut : Bool) : ∃ b : Batch Unit Unit,
    runMultiTurnRollout (echoSetup cut) echoBatch 2 = some b.final ∧
      (b.samples.map fun s ↦ s.messageLog.length) = [5, 5] := by
  obtain ⟨q, hq, hlen⟩ := echo_turns cut
  have hall : (echoBatch.rows.map Prompt.progress).mapM
      (fun p ↦ p.turns (echoSetup cut) (echo cut) (syncRules true) 2) = some [q, q] := by
    change List.mapM _ [echoPrompt.progress, echoPrompt.progress] = _
    rw [List.mapM_cons, List.mapM_cons, List.mapM_nil, hq]
    rfl
  have hrun : runMultiTurnRollout (echoSetup cut) echoBatch 2 =
      (syncTurns (echoSetup cut) true 2 (.start echoBatch.rows)).map Batch.final :=
    if_neg (List.cons_ne_nil _ _)
  rcases (tracks_start (echo cut) echoBatch.rows).turns (echo_describes cut) true 2 with
    ⟨-, hnone⟩ | ⟨b, ps, hb, hps, ht⟩
  · exact absurd (hall.symm.trans hnone) (by simp)
  · obtain rfl := Option.some.inj (hall.symm.trans hps)
    refine ⟨b, by rw [hrun, hb, Option.map_some], ?_⟩
    rw [ht.samples]
    simp only [List.map_cons, List.map_nil, hlen]

theorem rollouts_agree_echo : ∃ out out',
    runMultiTurnRollout (echoSetup false) echoBatch 2 = some out ∧
      runMultiTurnRolloutAsync (echoSetup false) echoBatch 2 = some out' ∧
      out.SameRows out' := by
  obtain ⟨b, hb, -⟩ := echo_runs false
  obtain ⟨out', hout', hrows⟩ := rollouts_agree (echo_describes false) echoBatch 2
    (fun p _ ↦ echo_calm p.progress 2) b.final hb
  exact ⟨b.final, out', hb, hout', hrows⟩

theorem rollouts_stack_echo : ∃ out outs,
    runMultiTurnRollout (echoSetup true) echoBatch 2 = some out ∧ out.Stacks outs := by
  obtain ⟨b, hb, -⟩ := echo_runs true
  rcases rollouts_stack (echo_describes true) echoBatch (List.cons_ne_nil _ _) 2 with
    ⟨hnone, -⟩ | ⟨out, outs, hout, -, hstack⟩
  · exact absurd (hb.symm.trans hnone) (by simp)
  · exact ⟨out, outs, hout, hstack⟩

/-- The batched loop goes on after a cut response that left room, the other one stops. -/
theorem cut_response_parts_the_loops : ∃ out out',
    runMultiTurnRollout (echoSetup true) echoBatch 2 = some out ∧
      runMultiTurnRolloutAsync (echoSetup true) echoBatch 2 = some out' ∧
      out.messageLog.map List.length = [5, 5] ∧ out'.messageLog.map List.length = [3, 3] := by
  obtain ⟨b, hb, hlens⟩ := echo_runs true
  obtain ⟨a, ha, hf⟩ := (follows_start (echo true) echoPrompt).turns (echo_describes true) 2
    (q := ((echoPrompt.progress.turns (echoSetup true) (echo true) asyncRules 2).get rfl)) rfl
  refine ⟨b.final, asyncFinal [a, a], hb, ?_, ?_, ?_⟩
  · change Option.map asyncFinal (List.mapM _ [echoPrompt, echoPrompt]) = _
    rw [List.mapM_cons, List.mapM_cons, List.mapM_nil, ha]
    rfl
  · refine Eq.trans ?_ hlens
    exact List.map_map
  · change [a.sample.messageLog.length, a.sample.messageLog.length] = _
    rw [hf.sample]
    rfl

end Echo

end NemoRL.Experience.Rollouts
