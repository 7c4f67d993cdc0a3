import Mathlib
import NemoRL.Experience.RolloutRewards

namespace NemoRL.Experience.Rollouts

open Foundations Foundations.ActiveRows Foundations.Blocks Foundations.Classes
open Foundations.Positions

variable {ι σ : Type}

/-- Where the two loops differ: whether a cut response ends its sample, whether a turn that gives
no stop strings leaves those of the turn before, whether the engine is given any, and whether a
response past the longest sequence raises. -/
structure Rules where
  stopsWhenCut : Bool
  keepsStops : Bool
  readsStops : Bool
  assertsRoom : Bool

def syncRules (hasStopStrings : Bool) : Rules := ⟨false, false, hasStopStrings, true⟩

def asyncRules : Rules := ⟨true, true, true, false⟩

/-- One sample alone, under either loop. -/
structure Progress (ι σ : Type) where
  sample : Sample ι σ
  components : String → ℚ
  done : Bool

/-- The samples the batched loop still runs, and their positions. -/
def live (ps : List (Progress ι σ)) : List (Progress ι σ) := ps.filter (!·.done)

def liveAt (ps : List (Progress ι σ)) : List ℕ := indicesWhere (!·.done) ps

def Prompt.progress (p : Prompt ι σ) : Progress ι σ := ⟨p.start, fun _ ↦ 0, false⟩

section Turn

variable (R : Setup ι σ) (P : Pointwise ι σ) (rules : Rules)

def Progress.overflows (p : Progress ι σ) (r : Response) (a : Answer ι σ) : Bool :=
  decide (R.maxSeqLen ≤ (R.encode a.feedback.observation.content).length +
    (r.generatedIds.length + (flatTokens p.sample.messageLog).length))

def Progress.after (p : Progress ι σ) (r : Response) (a : Answer ι σ) : Progress ι σ :=
  let tokens := R.encode a.feedback.observation.content
  let full := p.overflows R r a
  let tokens := if full then
      tokens.take (R.maxSeqLen - (r.generatedIds.length + (flatTokens p.sample.messageLog).length))
    else tokens
  let s := { (p.sample.reply r).observe a.feedback.observation tokens with
    totalReward := p.sample.totalReward + P.reward a
    truncated := p.sample.truncated || r.truncated || full
    turnCount := p.sample.turnCount + 1 }
  let done := full || a.feedback.terminated || (rules.stopsWhenCut && r.truncated)
  { sample :=
      if done then s
      else { s with
        stopStrings :=
          if rules.keepsStops then a.feedback.nextStops.or s.stopStrings
          else a.feedback.nextStops
        extraEnvInfo := a.feedback.metadata.getD s.extraEnvInfo }
    components := fun name ↦ p.components name + a.component name
    done := done }

def Progress.stops (p : Progress ι σ) : Option σ :=
  if rules.readsStops then p.sample.stopStrings else none

def Progress.response (p : Progress ι σ) : Option Response :=
  (P.respond (flatTokens p.sample.messageLog) (p.stops rules)).map
    (respond R (flatTokens p.sample.messageLog).length)

/-- What the environment answers when the sample has its response. -/
def Progress.answer (p : Progress ι σ) (r : Response) : Answer ι σ :=
  P.answerOf (p.sample.reply r).toPrompt

def Progress.Fits (p : Progress ι σ) (r : Response) : Prop :=
  r.generatedIds.length + (flatTokens p.sample.messageLog).length ≤ R.maxSeqLen

instance (p : Progress ι σ) (r : Response) : Decidable (p.Fits R r) :=
  inferInstanceAs (Decidable (_ ≤ _))

/-- The turn goes through: the task has an environment, and there is room if that is asserted. -/
def Progress.Takes (p : Progress ι σ) (r : Response) : Prop :=
  (R.taskToEnv p.sample.taskName).isSome ∧ (rules.assertsRoom = true → p.Fits R r)

instance (p : Progress ι σ) (r : Response) : Decidable (p.Takes R rules r) :=
  inferInstanceAs (Decidable (_ ∧ _))

def Progress.turn (p : Progress ι σ) : Option (Progress ι σ) :=
  if p.done then some p
  else (p.response R P rules).bind fun r ↦
    if p.Takes R rules r then some (p.after R P rules r (p.answer P r)) else none

def Progress.turns : ℕ → Progress ι σ → Option (Progress ι σ)
  | 0, p => some p
  | n + 1, p => (p.turn R P rules).bind (turns n)

end Turn

section Progress

variable {R : Setup ι σ} {P : Pointwise ι σ} {rules : Rules} {p q : Progress ι σ}

theorem Progress.turns_of_done (h : p.done = true) (n : ℕ) : p.turns R P rules n = some p := by
  induction n with
  | zero => rfl
  | succ n ih => rw [Progress.turns, Progress.turn, if_pos h, Option.bind_some, ih]

theorem Progress.turnCount_turn (h : p.turn R P rules = some q) (hd : p.done = false) :
    q.sample.turnCount = p.sample.turnCount + 1 := by
  rw [Progress.turn, if_neg (by simp [hd])] at h
  obtain ⟨r, -, h⟩ := Option.bind_eq_some_iff.mp h
  split_ifs at h
  obtain rfl := Option.some.inj h
  simp only [Progress.after]
  split_ifs <;> rfl

theorem rewards_row {rewards : Rewards} {answers : List (Answer ι σ)}
    (hn : ∀ names, P.names = some names → names.Nodup) (h : P.RewardsOf rewards answers) {i : ℕ}
    {a : Answer ι σ} (ha : answers[i]? = some a) : rewards.row i = P.reward a := by
  unfold Pointwise.RewardsOf at h
  unfold Pointwise.reward
  cases hnames : P.names with
  | none =>
    rw [hnames] at h
    subst h
    simp only [Rewards.row, List.getD_eq_getElem?_getD, List.getElem?_map, ha]
    rfl
  | some names =>
    rw [hnames] at h
    obtain ⟨columns, rfl, hcols⟩ := h
    have hcol : (columns.map fun c ↦ c.2.getD i 0) =
        (columns.map Prod.fst).map fun n ↦ a.component n := by
      rw [List.map_map]
      refine List.map_congr_left fun c hc ↦ ?_
      rw [(hcols.eq_of_mem (hn names hnames) hc).2, List.getD_eq_getElem?_getD,
        List.getElem?_map, ha]
      rfl
    simp only [Rewards.row]
    rw [hcol]
    exact (hcols.1.map _).sum_eq

theorem syncSample_eq (hasStopStrings : Bool) (r : Response) (a : Answer ι σ) :
    syncSample R p.sample r (P.reward a) a.feedback =
      if p.Fits R r then some ((p.after R P (syncRules hasStopStrings) r a).sample,
        (p.after R P (syncRules hasStopStrings) r a).done) else none := by
  by_cases hfit : p.Fits R r
  · rw [syncSample, if_pos hfit, if_neg fun hc ↦ absurd hc.2 (Nat.not_lt.mpr hfit)]
    simp only [Progress.after, Progress.overflows, syncRules, Bool.false_and, Bool.or_false,
      Bool.false_eq_true, if_false]
    rfl
  · have hlong := Nat.lt_of_not_le hfit
    rw [if_neg hfit, syncSample, if_pos]
    refine ⟨decide_eq_true ?_, hlong⟩
    exact hlong.le.trans (Nat.le_add_left ..)

end Progress

section Sync

variable {R : Setup ι σ} {P : Pointwise ι σ}

theorem generateResponses_eq (hP : P.Describes R) (rules : Rules) (l : List (Progress ι σ)) :
    generateResponses R rules.readsStops (l.map fun p ↦ p.sample.toPrompt) =
      l.mapM fun p ↦ p.response R P rules := by
  have hgen : R.generate ((l.map fun p ↦ p.sample.toPrompt).map fun p ↦
      (flatTokens p.messageLog, if rules.readsStops then p.stopStrings else none)) =
      l.mapM fun p ↦ P.respond (flatTokens p.sample.messageLog) (p.stops rules) := by
    rw [hP.generate, List.mapM_map, List.mapM_map]
    rfl
  have hcomp : (l.mapM fun p ↦ p.response R P rules) =
      (l.mapM fun p ↦ P.respond (flatTokens p.sample.messageLog) (p.stops rules)).bind
        fun outs ↦ (l.zip outs).mapM fun x ↦
          some (respond R (flatTokens x.1.sample.messageLog).length x.2) := by
    have hform : (fun p : Progress ι σ ↦ p.response R P rules) = fun p ↦
        (P.respond (flatTokens p.sample.messageLog) (p.stops rules)).bind fun out ↦
          some (respond R (flatTokens p.sample.messageLog).length out) := by
      funext p
      rw [Progress.response]
      cases P.respond (flatTokens p.sample.messageLog) (p.stops rules) <;> rfl
    rw [hform]
    exact mapM_bind _
      (fun p out ↦ some (respond R (flatTokens p.sample.messageLog).length out)) l
  rw [generateResponses, hgen, hcomp]
  refine Option.bind_congr fun outs houts ↦ ?_
  have hlen : l.length = outs.length := (forall₂_of_mapM houts).length_eq
  have hall : ((l.zip outs).mapM fun x ↦
      some (respond R (flatTokens x.1.sample.messageLog).length x.2)) =
      some ((l.zip outs).map fun x ↦ respond R (flatTokens x.1.sample.messageLog).length x.2) :=
    mapM_some fun _ _ ↦ rfl
  rw [hall]
  refine mapM_eq_some (List.forall₂_iff_get.mpr ⟨by simp [hlen], fun i h₁ h₂ ↦ ?_⟩)
  have hi : i < outs.length := by simpa [hlen] using h₁
  simp [hi]

/-- The state of the batched loop holds each sample where its own loop has it. -/
structure Pointwise.Tracks (P : Pointwise ι σ) (b : Batch ι σ) (ps : List (Progress ι σ)) :
    Prop where
  samples : b.samples = ps.map Progress.sample
  active : b.activeIndices = liveAt ps
  rewards : match P.names with
    | none => b.multiRewards = none
    | some names =>
      (b.multiRewards = none ∧ ∀ p ∈ ps, p.components = (fun _ ↦ 0) ∧
        p.sample.turnCount = 0 ∧ p.done = false) ∨
      (∃ columns, b.multiRewards = some columns ∧
        Columns names columns (fun n ↦ ps.map (·.components n)) ∧
        ∀ p ∈ ps, 0 < p.sample.turnCount)

theorem turn_of_live {p : Progress ι σ} (rules : Rules) (h : p.done = false) :
    p.turn R P rules = (p.response R P rules).bind fun r ↦
      if p.Takes R rules r then some (p.after R P rules r (p.answer P r)) else none := by
  rw [Progress.turn, if_neg (by simp [h])]

theorem mapM_turn (rules : Rules) (ps : List (Progress ι σ)) :
    (ps.mapM fun p ↦ p.turn R P rules) =
      ((((live ps).mapM (Progress.response R P rules)).bind fun rs ↦
        ((live ps).zip rs).mapM fun x ↦
          if x.1.Takes R rules x.2 then some (x.1.after R P rules x.2 (x.1.answer P x.2))
          else none).map
        fun news ↦ modifyAt (fun _ q ↦ q) (liveAt ps) news ps) := by
  have hform : (fun p : Progress ι σ ↦ p.turn R P rules) = fun p ↦
      if !p.done then (p.response R P rules).bind fun r ↦
        if p.Takes R rules r then some (p.after R P rules r (p.answer P r)) else none
      else some p := by
    funext p
    by_cases h : p.done = true
    · rw [Progress.turn, if_pos h, if_neg (by simp [h])]
    · rw [turn_of_live rules (by simpa using h), if_pos (by simp [h])]
  rw [hform, mapM_active, mapM_bind _ fun (p : Progress ι σ) r ↦
    if p.Takes R rules r then some (p.after R P rules r (p.answer P r)) else none]
  rfl

theorem Pointwise.Tracks.accumulate {b : Batch ι σ} {ps news : List (Progress ι σ)}
    {rewards : Rewards} {answers : List (Answer ι σ)} (h : P.Tracks b ps)
    (hn : ∀ names, P.names = some names → names.Nodup) (hr : P.RewardsOf rewards answers)
    (hnews : List.Forall₂ (fun x q ↦ (∀ n, q.components n = x.1.components n + x.2.component n) ∧
      q.sample.turnCount = x.1.sample.turnCount + 1)
        ((live ps).zip answers) news)
    (hlen : answers.length = (live ps).length) :
    ∃ multi, Rollouts.accumulate b.multiRewards b.samples.length b.activeIndices rewards =
        some multi ∧ match P.names with
      | none => multi = none
      | some names => ∃ columns, multi = some columns ∧ Columns names columns fun n ↦
          (modifyAt (fun _ q ↦ q) b.activeIndices news ps).map (·.components n) := by
  have hrest := h.rewards
  unfold Pointwise.RewardsOf at hr
  cases hnames : P.names with
  | none =>
    rw [hnames] at hr hrest
    subst hr
    exact ⟨none, congrArg some hrest, rfl⟩
  | some names =>
    rw [hnames] at hr hrest
    obtain ⟨columns, rfl, hcols⟩ := hr
    have hstart : Columns names (b.multiRewards.getD
        (columns.map fun c ↦ (c.1, List.replicate b.samples.length 0)))
        fun n ↦ ps.map (·.components n) := by
      rcases hrest with ⟨hnone, hzero⟩ | ⟨all, hall, hold, -⟩
      · have hcol (n : String) : ps.map (·.components n) =
            List.replicate b.samples.length 0 := by
          rw [h.samples, List.length_map]
          exact List.map_eq_replicate_iff.mpr fun p hp ↦ congrFun (hzero p hp).1 n
        rw [hnone, Option.getD_none]
        simp only [hcol]
        exact columns_map _ hcols.1
      · rw [hall, Option.getD_some]
        exact hold
    obtain ⟨after, hfold, hafter⟩ := hcols.foldlM
      (f := fun total c ↦ some (modifyAt (· + ·) b.activeIndices c total))
      (g := fun n ↦ (modifyAt (fun _ q ↦ q) b.activeIndices news ps).map (·.components n))
      (hn names hnames) hstart fun n _ ↦ by
        rw [h.active]
        refine congrArg some (map_modifyAt ?_ ((List.length_map _).trans hlen))
        rw [List.zip_map_right, List.forall₂_map_left_iff]
        exact hnews.imp fun x q hq ↦ hq.1 n
    refine ⟨some after, ?_, after, rfl, hafter⟩
    have hform : (fun (d : Dict String (List ℚ)) (c : String × List ℚ) ↦
        (Dict.get d c.1).bind fun total ↦
          (some (modifyAt (· + ·) b.activeIndices c.2 total)).map (Dict.set d c.1 ·)) =
        fun d c ↦ (Dict.get d c.1).map fun total ↦
          Dict.set d c.1 (modifyAt (· + ·) b.activeIndices c.2 total) := by
      funext d c
      cases Dict.get d c.1 <;> rfl
    rw [hform] at hfold
    rw [Rollouts.accumulate, hfold]
    rfl

theorem Pointwise.Tracks.syncTurn_eq (hP : P.Describes R) (stops : Bool) {b : Batch ι σ}
    {ps : List (Progress ι σ)} (h : P.Tracks b ps) :
    syncTurn R stops b = ((live ps).mapM (Progress.response R P (syncRules stops))).bind fun rs ↦
      (calculateRewards R (((live ps).map Progress.sample).zipWith
        (fun s r ↦ (s.reply r).toPrompt) rs)).bind fun fed ↦
        (Rollouts.accumulate b.multiRewards b.samples.length b.activeIndices fed.1).bind fun m ↦
          (((((live ps).map Progress.sample).zip rs).zip fed.2).zipIdx.mapM fun x ↦
            syncSample R x.1.1.1 x.1.1.2 (fed.1.row x.2) x.1.2).map fun ended ↦
              { samples := modifyAt (fun _ s ↦ s) b.activeIndices (ended.map Prod.fst) b.samples
                activeIndices :=
                  ((b.activeIndices.zip ended).filter fun x ↦ !x.2.2).map Prod.fst
                multiRewards := m } := by
  have hactive : b.activeIndices.mapM (b.samples[·]?) = some ((live ps).map Progress.sample) := by
    rw [h.active, h.samples]
    exact mapM_getElem?_indicesWhere _ _ _
  have hprompts : ((live ps).map Progress.sample).map Sample.toPrompt =
      (live ps).map fun p ↦ p.sample.toPrompt := List.map_map
  have hreads : generateResponses R stops ((live ps).map fun p ↦ p.sample.toPrompt) =
      (live ps).mapM (Progress.response R P (syncRules stops)) :=
    generateResponses_eq hP (syncRules stops) _
  rw [syncTurn, hactive]
  simp only [Option.bind_eq_bind, Option.bind_some, hprompts, hreads]
  refine Option.bind_congr fun rs _ ↦ Option.bind_congr fun fed _ ↦
    Option.bind_congr fun m _ ↦ ?_
  cases (((((live ps).map Progress.sample).zip rs).zip fed.2).zipIdx.mapM fun x ↦
    syncSample R x.1.1.1 x.1.1.2 (fed.1.row x.2) x.1.2) <;> rfl

theorem Pointwise.Tracks.live_ne_nil {b : Batch ι σ} {ps : List (Progress ι σ)}
    (h : P.Tracks b ps) (hne : b.activeIndices ≠ []) : live ps ≠ [] := by
  intro hnil
  have hread : b.activeIndices.mapM (b.samples[·]?) = some ((live ps).map Progress.sample) := by
    rw [h.active, h.samples]
    exact mapM_getElem?_indicesWhere _ _ _
  have hlen := (forall₂_of_mapM hread).length_eq
  rw [hnil] at hlen
  exact hne (List.length_eq_zero_iff.mp hlen)

theorem mapM_syncSample (hP : P.Describes R) (stops : Bool)
    {pairs : List (Progress ι σ × Response)} {rewards : Rewards}
    (hrew : P.RewardsOf rewards (pairs.map fun x ↦ x.1.answer P x.2)) :
    ((((pairs.map fun x ↦ x.1.sample).zip (pairs.map Prod.snd)).zip
      (pairs.map fun x ↦ (x.1.answer P x.2).feedback)).zipIdx.mapM fun x ↦
        syncSample R x.1.1.1 x.1.1.2 (rewards.row x.2) x.1.2) =
      pairs.mapM fun x ↦ if x.1.Fits R x.2 then
        some ((x.1.after R P (syncRules stops) x.2 (x.1.answer P x.2)).sample,
          (x.1.after R P (syncRules stops) x.2 (x.1.answer P x.2)).done) else none := by
  set ending : Progress ι σ × Response → Option (Sample ι σ × Bool) := fun x ↦
    if x.1.Fits R x.2 then some ((x.1.after R P (syncRules stops) x.2 (x.1.answer P x.2)).sample,
      (x.1.after R P (syncRules stops) x.2 (x.1.answer P x.2)).done) else none
  have hrows : (((pairs.map fun x ↦ x.1.sample).zip (pairs.map Prod.snd)).zip
      (pairs.map fun x ↦ (x.1.answer P x.2).feedback)).zipIdx =
      pairs.zipIdx.map fun y ↦
        (((y.1.1.sample, y.1.2), (y.1.1.answer P y.1.2).feedback), y.2) := by
    rw [List.zip_map', List.zip_map', List.zipIdx_map]
    rfl
  have hone : ∀ y ∈ pairs.zipIdx, syncSample R y.1.1.sample y.1.2 (rewards.row y.2)
      (y.1.1.answer P y.1.2).feedback = ending y.1 := by
    intro y hy
    have hget : pairs[y.2]? = some y.1 := List.mem_zipIdx_iff_getElem?.mp hy
    rw [rewards_row hP.nodup hrew (a := y.1.1.answer P y.1.2)
      (by rw [List.getElem?_map, hget]; rfl)]
    exact syncSample_eq stops _ _
  rw [hrows, List.mapM_map]
  refine (mapM_congr hone).trans ?_
  have hfirst : (pairs.zipIdx.map Prod.fst).mapM ending =
      pairs.zipIdx.mapM fun y ↦ ending y.1 := by
    rw [List.mapM_map]
    rfl
  rw [← hfirst, List.zipIdx_map_fst]

theorem Pointwise.Tracks.turnCount_pos {b : Batch ι σ} {ps ps' : List (Progress ι σ)}
    {rules : Rules} (h : P.Tracks b ps) {names : List String} (hnames : P.names = some names)
    (hturns : (ps.mapM fun p ↦ p.turn R P rules) = some ps') :
    ∀ q ∈ ps', 0 < q.sample.turnCount := by
  intro q hq
  obtain ⟨i, hi⟩ := List.mem_iff_getElem?.mp hq
  obtain ⟨p, hp, hturn⟩ := exists_of_mapM hturns hi
  cases hd : p.done with
  | false =>
    rw [Progress.turnCount_turn hturn hd]
    exact Nat.succ_pos _
  | true =>
    rw [Progress.turn, if_pos hd] at hturn
    obtain rfl := Option.some.inj hturn
    have hold := h.rewards
    rw [hnames] at hold
    rcases hold with ⟨-, hall⟩ | ⟨-, -, -, hall⟩
    · exact absurd hd (by simp [(hall p (List.mem_of_getElem? hp)).2.2])
    · exact hall p (List.mem_of_getElem? hp)

/-- One turn of the batched loop is one turn of each sample, or both raise. -/
theorem Pointwise.Tracks.turn (hP : P.Describes R) (stops : Bool) {b : Batch ι σ}
    {ps : List (Progress ι σ)} (h : P.Tracks b ps) (hne : b.activeIndices ≠ []) :
    (syncTurn R stops b = none ∧ (ps.mapM fun p ↦ p.turn R P (syncRules stops)) = none) ∨
      ∃ b' ps', syncTurn R stops b = some b' ∧
        (ps.mapM fun p ↦ p.turn R P (syncRules stops)) = some ps' ∧ P.Tracks b' ps' := by
  have hturns := mapM_turn (R := R) (P := P) (syncRules stops) ps
  rw [h.syncTurn_eq hP]
  cases hrs : (live ps).mapM (Progress.response R P (syncRules stops)) with
  | none =>
    rw [hrs] at hturns
    exact .inl ⟨rfl, hturns⟩
  | some rs =>
    have hlen : (live ps).length = rs.length := (forall₂_of_mapM hrs).length_eq
    set pairs := (live ps).zip rs with hpairs
    have hfst : live ps = pairs.map Prod.fst := (List.map_fst_zip hlen.le).symm
    have hsnd : rs = pairs.map Prod.snd := (List.map_snd_zip hlen.ge).symm
    have hreplied : ((live ps).map Progress.sample).zipWith (fun s r ↦ (s.reply r).toPrompt) rs =
        pairs.map fun x ↦ (x.1.sample.reply x.2).toPrompt := by
      rw [List.zipWith_map_left, List.map_zip_eq_zipWith]
      rfl
    rw [hrs, Option.bind_some, ← hpairs] at hturns
    by_cases hknown : ∀ x ∈ pairs, (R.taskToEnv x.1.sample.taskName).isSome
    · set news := pairs.map fun x ↦ x.1.after R P (syncRules stops) x.2 (x.1.answer P x.2)
      have hprompts : (pairs.map fun x ↦ (x.1.sample.reply x.2).toPrompt) ≠ [] := by
        intro hnil
        rw [List.map_eq_nil_iff.mp hnil] at hfst
        exact h.live_ne_nil hne hfst
      obtain ⟨rewards, hcalc, hrew⟩ := hP.calculateRewards_eq hprompts fun p hp ↦ by
        obtain ⟨x, hx, rfl⟩ := List.mem_map.mp hp
        exact hknown x hx
      rw [List.map_map] at hcalc hrew
      have hforall : List.Forall₂ (fun x q ↦
          (∀ n, q.components n = x.1.components n + x.2.component n) ∧
            q.sample.turnCount = x.1.sample.turnCount + 1)
          ((live ps).zip (pairs.map fun x ↦ x.1.answer P x.2)) news := by
        rw [hfst, List.zip_map', List.forall₂_map_left_iff, List.forall₂_map_right_iff]
        refine List.forall₂_same.mpr fun x _ ↦ ⟨fun n ↦ rfl, ?_⟩
        simp only [Progress.after]
        split_ifs <;> rfl
      have hlenNews : news.length = (live ps).length := by
        rw [hfst, List.length_map, List.length_map]
      obtain ⟨multi, hmulti, hcols⟩ := h.accumulate hP.nodup hrew hforall (by
        rw [hfst, List.length_map, List.length_map])
      have hends := mapM_syncSample hP stops hrew
      by_cases hroom : ∀ x ∈ pairs, x.1.Fits R x.2
      swap
      · -- a response that is too long raises in both
        push Not at hroom
        obtain ⟨x, hx, hlong⟩ := hroom
        rw [mapM_eq_none hx (if_neg fun htakes ↦ hlong (htakes.2 rfl))] at hturns
        rw [mapM_eq_none hx (if_neg hlong)] at hends
        refine .inl ⟨?_, hturns⟩
        rw [Option.bind_some, hreplied, hcalc, Option.bind_some, hmulti, Option.bind_some, hfst,
          hsnd, List.map_map]
        exact congrArg (Option.map _) hends
      have hnews : (pairs.mapM fun x ↦ if x.1.Takes R (syncRules stops) x.2
          then some (x.1.after R P (syncRules stops) x.2 (x.1.answer P x.2)) else none) = some news :=
        mapM_some fun x hx ↦ if_pos ⟨hknown x hx, fun _ ↦ hroom x hx⟩
      rw [hnews, Option.map_some] at hturns
      set ended := news.map fun q ↦ (q.sample, q.done) with hended
      rw [mapM_some fun x hx ↦ if_pos (hroom x hx)] at hends
      refine .inr ⟨⟨modifyAt (fun _ s ↦ s) b.activeIndices (ended.map Prod.fst) b.samples,
        ((b.activeIndices.zip ended).filter fun x ↦ !x.2.2).map Prod.fst, multi⟩,
        _, ?_, hturns, ?_, ?_, ?_⟩
      · rw [Option.bind_some, hreplied, hcalc, Option.bind_some, hmulti, Option.bind_some,
          hfst, hsnd, List.map_map]
        have hall : some (pairs.map fun x ↦
            ((x.1.after R P (syncRules stops) x.2 (x.1.answer P x.2)).sample,
              (x.1.after R P (syncRules stops) x.2 (x.1.answer P x.2)).done)) = some ended := by
          rw [hended, List.map_map]
          rfl
        exact (congrArg (Option.map _) (hends.trans hall)).trans rfl
      · rw [List.map_map, h.samples, h.active]
        refine map_modifyAt (k := fun _ s ↦ s) ?_ ((List.length_map _).trans hlenNews)
        rw [List.forall₂_iff_get]
        refine ⟨by simp [hlenNews, live], fun i h₁ h₂ ↦ ?_⟩
        simp
      · change ((b.activeIndices.zip ended).filter fun x ↦ !x.2.2).map Prod.fst = _
        rw [h.active, List.zip_map_right, List.filter_map, List.map_map]
        exact (indicesWhere_modifyAt (fun _ hd ↦ hd) hlenNews).symm
      · have hpos (names : List String) (hnames : P.names = some names) :=
          h.turnCount_pos hnames hturns
        cases hnames : P.names with
        | none =>
          rw [hnames] at hcols
          exact hcols
        | some names =>
          rw [hnames] at hcols
          obtain ⟨columns, hm, hcolumns⟩ := hcols
          rw [h.active] at hcolumns
          exact .inr ⟨columns, hm, hcolumns, hpos names hnames⟩
    · push Not at hknown
      obtain ⟨x, hx, hnone⟩ := hknown
      have htask : R.taskToEnv x.1.sample.taskName = none := by simpa using hnone
      have hmem : (x.1.sample.reply x.2).toPrompt ∈
          pairs.map fun x ↦ (x.1.sample.reply x.2).toPrompt := List.mem_map_of_mem hx
      refine .inl ⟨?_, ?_⟩
      · rw [Option.bind_some, hreplied, calculateRewards_unknown hmem htask]
        rfl
      · rw [hturns, mapM_eq_none hx (if_neg fun htakes ↦ hnone htakes.1)]
        rfl

theorem Pointwise.Tracks.turns (hP : P.Describes R) (stops : Bool) (n : ℕ) {b : Batch ι σ}
    {ps : List (Progress ι σ)} (h : P.Tracks b ps) :
    (syncTurns R stops n b = none ∧ (ps.mapM fun p ↦ p.turns R P (syncRules stops) n) = none) ∨
      ∃ b' ps', syncTurns R stops n b = some b' ∧
        (ps.mapM fun p ↦ p.turns R P (syncRules stops) n) = some ps' ∧ P.Tracks b' ps' := by
  induction n generalizing b ps with
  | zero => exact .inr ⟨b, ps, rfl, mapM_eq_some (List.forall₂_same.mpr fun _ _ ↦ rfl), h⟩
  | succ n ih =>
    rw [syncTurns]
    by_cases hne : b.activeIndices = []
    · have hdone : ∀ p ∈ ps, p.done = true := by
        intro p hp
        obtain ⟨i, hi⟩ := List.mem_iff_getElem?.mp hp
        by_contra hlive
        have hmem : i ∈ b.activeIndices := by
          rw [h.active]
          exact mem_indicesWhere.mpr ⟨p, hi, by simpa using hlive⟩
        exact List.not_mem_nil (hne ▸ hmem)
      rw [if_pos hne]
      refine .inr ⟨b, ps, rfl, ?_, h⟩
      exact mapM_eq_some (List.forall₂_same.mpr fun p hp ↦
        Progress.turns_of_done (hdone p hp) (n + 1))
    · rw [if_neg hne]
      have hcomp : (ps.mapM fun p ↦ p.turns R P (syncRules stops) (n + 1)) =
          (ps.mapM (Progress.turn R P (syncRules stops))).bind
            (List.mapM (Progress.turns R P (syncRules stops) n)) :=
        mapM_comp _ _ _
      rw [hcomp]
      rcases h.turn hP stops hne with ⟨h₁, h₂⟩ | ⟨b', ps', h₁, h₂, ht⟩
      · exact .inl ⟨by rw [h₁, Option.bind_none], by rw [h₂, Option.bind_none]⟩
      · rw [h₁, h₂, Option.bind_some, Option.bind_some]
        exact ih ht

end Sync

end NemoRL.Experience.Rollouts
