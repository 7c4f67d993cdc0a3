import Mathlib
import NemoRL.Experience.Rollouts
import NemoRL.Foundations.Positions

namespace NemoRL.Experience.Rollouts

open Foundations Foundations.ActiveRows Foundations.Classes Foundations.Positions

variable {ι σ : Type}

/-- What an environment answers to one sample. -/
structure Answer (ι σ : Type) where
  feedback : Feedback ι σ
  value : ℚ
  component : String → ℚ

/-- An engine and environments that answer each sample by itself, with one format of rewards. -/
structure Pointwise (ι σ : Type) where
  respond : List ℕ → Option σ → Option GenerationOutput
  answer : String → List View → ι → Answer ι σ
  /-- The names of the rewards, if they are named. -/
  names : Option (List String)

def Pointwise.answerOf (P : Pointwise ι σ) (p : Prompt ι σ) : Answer ι σ :=
  P.answer p.taskName (p.messageLog.map Message.view) p.extraEnvInfo

def Pointwise.reward (P : Pointwise ι σ) (a : Answer ι σ) : ℚ :=
  match P.names with
  | none => a.value
  | some names => (names.map a.component).sum

def Columns (names : List String) (columns : Dict String (List ℚ)) (column : String → List ℚ) :
    Prop :=
  (columns.map Prod.fst).Perm names ∧ ∀ n ∈ names, Dict.get columns n = some (column n)

def Pointwise.RewardsOf (P : Pointwise ι σ) (rewards : Rewards) (answers : List (Answer ι σ)) :
    Prop :=
  match P.names with
  | none => rewards = .scalar (answers.map Answer.value)
  | some names => ∃ columns, rewards = .named columns ∧
      Columns names columns fun n ↦ answers.map (·.component n)

/-- The engine and the environments of a rollout answer as `P` does. -/
structure Pointwise.Describes (P : Pointwise ι σ) (R : Setup ι σ) : Prop where
  generate : ∀ rows, R.generate rows = rows.mapM fun r ↦ P.respond r.1 r.2
  feedback : ∀ task env, R.taskToEnv task = some env → ∀ (rows : List (List View × ι)) (i : ℕ),
    (env (rows.map Prod.fst) (rows.map Prod.snd)).feedback i =
      (rows[i]?).map fun x ↦ (P.answer task x.1 x.2).feedback
  rewards : ∀ task env, R.taskToEnv task = some env → ∀ rows : List (List View × ι),
    P.RewardsOf (env (rows.map Prod.fst) (rows.map Prod.snd)).rewards
      (rows.map fun x ↦ P.answer task x.1 x.2)
  nodup : ∀ names, P.names = some names → names.Nodup

section Columns

variable {names : List String} {columns : Dict String (List ℚ)} {column : String → List ℚ}

theorem Columns.mem_keys (h : Columns names columns column) {n : String} :
    n ∈ columns.map Prod.fst ↔ n ∈ names := h.1.mem_iff

theorem Columns.nodup (h : Columns names columns column) (hn : names.Nodup) :
    (columns.map Prod.fst).Nodup := h.1.nodup_iff.mpr hn

theorem Columns.eq_of_mem (h : Columns names columns column) (hn : names.Nodup)
    {c : String × List ℚ} (hc : c ∈ columns) : c.1 ∈ names ∧ c.2 = column c.1 := by
  have hmem : c.1 ∈ names := h.mem_keys.mp (List.mem_map_of_mem hc)
  have hget : Dict.get columns c.1 = some c.2 := get_of_mem (h.nodup hn) hc
  rw [h.2 c.1 hmem] at hget
  exact ⟨hmem, (Option.some.inj hget).symm⟩

/-- Every name has a column, so a pass over the columns of one dictionary rewrites the columns of
another, name by name. -/
theorem Columns.foldlM {old : String → List ℚ} {start : Dict String (List ℚ)}
    {f : List ℚ → List ℚ → Option (List ℚ)} {g : String → List ℚ}
    (h : Columns names columns column) (hn : names.Nodup) (hs : Columns names start old)
    (hf : ∀ n ∈ names, f (old n) (column n) = some (g n)) :
    ∃ after, (columns.foldlM (fun d c ↦
      (Dict.get d c.1).bind fun o ↦ (f o c.2).map (Dict.set d c.1 ·)) start) = some after ∧
        Columns names after g := by
  -- the columns seen so far are new, the others old
  have hrun : ∀ (l : Dict String (List ℚ)) (start : Dict String (List ℚ)), l ⊆ columns →
      (l.map Prod.fst).Nodup → (start.map Prod.fst).Perm names →
      (∀ n ∈ names, Dict.get start n =
        some (if n ∈ l.map Prod.fst then old n else g n)) →
      ∃ after, (l.foldlM (fun d c ↦
        (Dict.get d c.1).bind fun o ↦ (f o c.2).map (Dict.set d c.1 ·)) start) = some after ∧
          Columns names after g := by
    intro l
    induction l with
    | nil => exact fun start _ _ hk hg ↦ ⟨start, rfl, hk, fun n hn ↦ by simpa using hg n hn⟩
    | cons c l ih =>
      intro start hsub hnd hk hg
      obtain ⟨hc, hcol⟩ := h.eq_of_mem hn (hsub List.mem_cons_self)
      obtain ⟨hnot, hnd⟩ := List.nodup_cons.mp hnd
      have hget : Dict.get start c.1 = some (old c.1) := by
        rw [hg c.1 hc, if_pos (by simp)]
      have hkeys : c.1 ∈ start.map Prod.fst := hk.mem_iff.mpr hc
      rw [List.foldlM_cons, hget, Option.bind_some, hcol, hf c.1 hc]
      refine ih _ (fun x hx ↦ hsub (List.mem_cons_of_mem _ hx)) hnd ?_ fun n hn ↦ ?_
      · rw [keys_set_of_mem _ hkeys]
        exact hk
      · rw [Dict.get_set]
        by_cases hnc : n = c.1
        · rw [if_pos hnc, hnc, if_neg hnot]
        · rw [if_neg hnc, hg n hn]
          simp only [List.map_cons, List.mem_cons, hnc, false_or]
  refine hrun columns start (List.Subset.refl _) (h.nodup hn) hs.1 fun n hn ↦ ?_
  rw [hs.2 n hn, if_pos (h.mem_keys.mpr hn)]

theorem columns_map {δ : Type} {columns : Dict String δ} (v : List ℚ)
    (h : (columns.map Prod.fst).Perm names) :
    Columns names (columns.map fun c ↦ (c.1, v)) fun _ ↦ v := by
  have hkeys : (columns.map fun c ↦ (c.1, v)).map Prod.fst = columns.map Prod.fst := by
    rw [List.map_map]
    rfl
  refine ⟨hkeys ▸ h, fun n hn ↦ ?_⟩
  have hmem : n ∈ (columns.map fun c ↦ (c.1, v)).map Prod.fst := hkeys ▸ h.mem_iff.mpr hn
  obtain ⟨w, hw⟩ := Option.isSome_iff_exists.mp (Dict.isSome_get.mpr hmem)
  obtain ⟨c, -, hc⟩ := List.mem_map.mp (Dict.mem_of_get hw)
  rw [hw, ← (Prod.mk.inj hc).2]

end Columns

section CalculateRewards

variable {R : Setup ι σ} {P : Pointwise ι σ}

def Pointwise.Gathered (P : Pointwise ι σ) (c : Collected ι σ) (heard : List (Prompt ι σ × ℕ)) :
    Prop :=
  let answers := heard.map fun x ↦ P.answerOf x.1
  c.indices = heard.map Prod.snd ∧ c.feedback = answers.map Answer.feedback ∧
    match P.names with
    | none => c.named = none ∧ c.scalars = answers.map Answer.value
    | some names => c.scalars = [] ∧ if heard = [] then c.named = none else
        ∃ columns, c.named = some columns ∧
          Columns names columns fun n ↦ answers.map (·.component n)

theorem Pointwise.Gathered.concat {c : Collected ι σ} {heard : List (Prompt ι σ × ℕ)}
    {x : Prompt ι σ × ℕ} {rewards : Rewards} {answers : List (Answer ι σ)} {i : ℕ}
    (h : P.Gathered c heard) (hn : ∀ names, P.names = some names → names.Nodup)
    (hr : P.RewardsOf rewards answers) (hi : answers[i]? = some (P.answerOf x.1)) :
    ∃ named scalars, collectReward c.named c.scalars i rewards = some (named, scalars) ∧
      P.Gathered ⟨c.indices ++ [x.2], scalars, named,
        c.feedback ++ [(P.answerOf x.1).feedback]⟩ (heard ++ [x]) := by
  obtain ⟨hidx, hfb, hrest⟩ := h
  have hidx' : c.indices ++ [x.2] = (heard ++ [x]).map Prod.snd := by rw [hidx]; simp
  have hfb' : c.feedback ++ [(P.answerOf x.1).feedback] =
      ((heard ++ [x]).map fun y ↦ P.answerOf y.1).map Answer.feedback := by
    rw [hfb]
    simp
  unfold Pointwise.RewardsOf at hr
  cases hnames : P.names with
  | none =>
    rw [hnames] at hrest hr
    obtain ⟨hnamed, hscal⟩ := hrest
    subst hr
    refine ⟨c.named, c.scalars ++ [(P.answerOf x.1).value], ?_, hidx', hfb', ?_⟩
    · simp only [collectReward, List.getElem?_map, hi, Option.map_some]
    · simp only [hnames]
      refine ⟨hnamed, ?_⟩
      rw [hscal]
      simp
  | some names =>
    rw [hnames] at hrest hr
    obtain ⟨hscal, hnamed⟩ := hrest
    obtain ⟨columns, rfl, hcols⟩ := hr
    have hnd := hn names hnames
    set start : Dict String (List ℚ) := c.named.getD (columns.map fun col ↦ (col.1, []))
    have hstart : Columns names start fun n ↦
        (heard.map fun y ↦ P.answerOf y.1).map (·.component n) := by
      by_cases hheard : heard = []
      · rw [if_pos hheard] at hnamed
        simp only [start, hnamed, hheard, Option.getD_none, List.map_nil]
        exact columns_map [] hcols.1
      · rw [if_neg hheard] at hnamed
        obtain ⟨all, hall, hold⟩ := hnamed
        simpa only [start, hall, Option.getD_some] using hold
    obtain ⟨after, hfold, hafter⟩ := hcols.foldlM (f := fun o col ↦ (col[i]?).map (o ++ [·]))
      (g := fun n ↦ ((heard ++ [x]).map fun y ↦ P.answerOf y.1).map (·.component n)) hnd hstart
      fun n _ ↦ by simp [hi]
    refine ⟨some after, c.scalars, ?_, hidx', hfb', ?_⟩
    · have hform : (fun (d : Dict String (List ℚ)) (col : String × List ℚ) ↦
          (Dict.get d col.1).bind fun o ↦ ((col.2[i]?).map (o ++ [·])).map (Dict.set d col.1 ·)) =
          fun d col ↦ (do
            let values ← Dict.get d col.1
            let r ← col.2[i]?
            pure (Dict.set d col.1 (values ++ [r]))) := by
        funext d col
        cases Dict.get d col.1 with
        | none => rfl
        | some o => cases col.2[i]? <;> rfl
      rw [hform] at hfold
      simp only [collectReward]
      rw [hfold]
      rfl
    · simp only [hnames]
      refine ⟨hscal, ?_⟩
      rw [if_neg (by simp)]
      exact ⟨after, rfl, hafter⟩

theorem Pointwise.Gathered.group {c : Collected ι σ} {heard group : List (Prompt ι σ × ℕ)}
    {r : EnvironmentReturn ι σ} (h : P.Gathered c heard)
    (hn : ∀ names, P.names = some names → names.Nodup)
    (hf : ∀ i, r.feedback i = (group[i]?).map fun x ↦ (P.answerOf x.1).feedback)
    (hr : P.RewardsOf r.rewards (group.map fun x ↦ P.answerOf x.1)) :
    ∃ after, collectGroup c (group.map Prod.snd, r) = some after ∧
      P.Gathered after (heard ++ group) := by
  have hrun : ∀ (rest : List (Prompt ι σ × ℕ)) (k : ℕ) (c : Collected ι σ)
      (heard : List (Prompt ι σ × ℕ)), (∀ i, rest[i]? = group[k + i]?) → P.Gathered c heard →
      ∃ after, (((rest.map Prod.snd).zipIdx k).foldlM (fun c x ↦ do
        let f ← r.feedback x.2
        let rewards ← collectReward c.named c.scalars x.2 r.rewards
        pure (⟨c.indices ++ [x.1], rewards.2, rewards.1, c.feedback ++ [f]⟩ : Collected ι σ)) c) =
          some after ∧ P.Gathered after (heard ++ rest) := by
    intro rest
    induction rest with
    | nil => exact fun k c heard _ hc ↦ ⟨c, rfl, by simpa using hc⟩
    | cons x rest ih =>
      intro k c heard hrest hc
      have hx : group[k]? = some x := by simpa using (hrest 0).symm
      obtain ⟨named, scalars, hrew, hnext⟩ := hc.concat (x := x) (i := k) hn hr
        (by rw [List.getElem?_map, hx]; rfl)
      obtain ⟨after, hafter, hG⟩ := ih (k + 1) _ _ (fun i ↦ by
        have h := hrest (i + 1)
        rw [List.getElem?_cons_succ] at h
        rw [h]
        congr 1
        omega) hnext
      refine ⟨after, ?_, ?_⟩
      · have hfeed : r.feedback k = some (P.answerOf x.1).feedback := by
          rw [hf, hx]
          rfl
        rw [List.map_cons, List.zipIdx_cons, List.foldlM_cons]
        simp only [hfeed, hrew, Option.bind_eq_bind, Option.bind_some, Option.pure_def] at hafter ⊢
        exact hafter
      · rw [List.append_assoc, List.singleton_append] at hG
        exact hG
  exact hrun group 0 c heard (fun i ↦ by rw [Nat.zero_add]) h

theorem Pointwise.Gathered.sorted {c : Collected ι σ} {heard : List (Prompt ι σ × ℕ)}
    {rows : List (Prompt ι σ)} (h : P.Gathered c heard) (hperm : heard.Perm rows.zipIdx)
    (hne : rows ≠ []) (hn : ∀ names, P.names = some names → names.Nodup) :
    ∃ rewards, c.sorted = some (rewards, rows.map fun p ↦ (P.answerOf p).feedback) ∧
      P.RewardsOf rewards (rows.map P.answerOf) := by
  obtain ⟨hidx, hfb, hrest⟩ := h
  have hlen : c.indices.length = heard.length := by rw [hidx, List.length_map]
  have hheard : heard ≠ [] := by
    rintro rfl
    exact hne (List.zipIdx_eq_nil_iff.mp hperm.symm.eq_nil)
  have hread (f : Answer ι σ → ℚ) :
      (sortBy (c.indices.getD · 0) (List.range c.indices.length)).mapM
        ((((heard.map fun x ↦ P.answerOf x.1).map f))[·]?) = some ((rows.map P.answerOf).map f) := by
    rw [hidx, List.length_map, List.map_map, List.map_map]
    exact mapM_sortBy_origin hperm fun p ↦ f (P.answerOf p)
  have hfeed : (sortBy (c.indices.getD · 0) (List.range c.indices.length)).mapM
      (c.feedback[·]?) = some (rows.map fun p ↦ (P.answerOf p).feedback) := by
    rw [hfb, hidx, List.length_map, List.map_map]
    exact mapM_sortBy_origin hperm fun p ↦ (P.answerOf p).feedback
  unfold Pointwise.RewardsOf
  cases hnames : P.names with
  | none =>
    rw [hnames] at hrest
    obtain ⟨hnamed, hscal⟩ := hrest
    refine ⟨.scalar ((rows.map P.answerOf).map Answer.value), ?_, rfl⟩
    simp only [Collected.sorted, hnamed, hscal, hread, hfeed]
    rfl
  | some names =>
    rw [hnames] at hrest
    obtain ⟨hscal, hcols⟩ := hrest
    rw [if_neg hheard] at hcols
    obtain ⟨columns, hnamed, hcols⟩ := hcols
    have hnd := hn names hnames
    set sorted : Dict String (List ℚ) :=
      columns.map fun col ↦ (col.1, (rows.map P.answerOf).map (·.component col.1))
    have hkeys : sorted.map Prod.fst = columns.map Prod.fst := by
      rw [List.map_map]
      rfl
    have hall : (columns.mapM fun col ↦
        ((sortBy (c.indices.getD · 0) (List.range c.indices.length)).mapM (col.2[·]?)).map
          fun vals ↦ (col.1, vals)) = some sorted := by
      refine Blocks.mapM_some fun col hcol ↦ ?_
      rw [(hcols.eq_of_mem hnd hcol).2, hread]
      rfl
    refine ⟨.named sorted, ?_, sorted, rfl, hkeys ▸ hcols.1, fun n hmem ↦ ?_⟩
    · simp only [Collected.sorted, hnamed, hscal, if_true, hall, hfeed]
      rfl
    · obtain ⟨col, hcol, rfl⟩ := List.mem_map.mp (hcols.mem_keys.mpr hmem)
      exact get_of_mem (hkeys ▸ hcols.nodup hnd) (List.mem_map_of_mem hcol)

theorem Pointwise.Describes.calculateRewards_eq (hP : P.Describes R) {rows : List (Prompt ι σ)}
    (hne : rows ≠ []) (hknown : ∀ p ∈ rows, (R.taskToEnv p.taskName).isSome) :
    ∃ rewards, calculateRewards R rows =
        some (rewards, rows.map fun p ↦ (P.answerOf p).feedback) ∧
      P.RewardsOf rewards (rows.map P.answerOf) := by
  set groups := groupBy (fun x : Prompt ι σ × ℕ ↦ x.1.taskName) rows.zipIdx
  set ask : String × List (Prompt ι σ × ℕ) → Option (List ℕ × EnvironmentReturn ι σ) :=
    fun group ↦ (R.taskToEnv group.1).map fun env ↦
      (group.2.map Prod.snd, env (group.2.map fun x ↦ x.1.messageLog.map Message.view)
        (group.2.map fun x ↦ x.1.extraEnvInfo))
  have hmem {group : String × List (Prompt ι σ × ℕ)} (h : group ∈ groups)
      {x : Prompt ι σ × ℕ} (hx : x ∈ group.2) : x.1.taskName = group.1 ∧ x.1 ∈ rows := by
    obtain ⟨-, heq⟩ := mem_groupBy h
    rw [heq, List.mem_filter, decide_eq_true_eq] at hx
    exact ⟨hx.2, List.fst_eq_of_mem_zipIdx hx.1 ▸ List.getElem_mem _⟩
  have hask {group : String × List (Prompt ι σ × ℕ)} (h : group ∈ groups) :
      ∃ r, ask group = some (group.2.map Prod.snd, r) ∧
        (∀ i, r.feedback i = (group.2[i]?).map fun x ↦ (P.answerOf x.1).feedback) ∧
        P.RewardsOf r.rewards (group.2.map fun x ↦ P.answerOf x.1) := by
    obtain ⟨x, hx, hkey⟩ := List.mem_map.mp (mem_groupBy h).1
    obtain ⟨env, henv⟩ := Option.isSome_iff_exists.mp
      (hknown x.1 (List.fst_eq_of_mem_zipIdx hx ▸ List.getElem_mem _))
    rw [hkey] at henv
    set views := group.2.map fun x ↦ (x.1.messageLog.map Message.view, x.1.extraEnvInfo)
    have hfst : views.map Prod.fst = group.2.map fun x ↦ x.1.messageLog.map Message.view := by
      rw [List.map_map]
      rfl
    have hsnd : views.map Prod.snd = group.2.map fun x ↦ x.1.extraEnvInfo := by
      rw [List.map_map]
      rfl
    have hans : (views.map fun y ↦ P.answer group.1 y.1 y.2) =
        group.2.map fun x ↦ P.answerOf x.1 := by
      rw [List.map_map]
      exact List.map_congr_left fun y hy ↦ by
        simp only [Function.comp_apply, Pointwise.answerOf, (hmem h hy).1]
    refine ⟨env (views.map Prod.fst) (views.map Prod.snd), ?_, fun i ↦ ?_, ?_⟩
    · simp only [ask, henv, Option.map_some, hfst, hsnd]
    · rw [hP.feedback group.1 env henv views i, ← List.getElem?_map, ← List.getElem?_map]
      have hmap : (views.map fun y ↦ (P.answer group.1 y.1 y.2).feedback) =
          group.2.map fun x ↦ (P.answerOf x.1).feedback :=
        List.map_map.symm.trans ((congrArg (List.map Answer.feedback) hans).trans List.map_map)
      exact congrArg (·[i]?) hmap
    · have hr := hP.rewards group.1 env henv views
      rwa [hans] at hr
  have hrun : ∀ (gs : List (String × List (Prompt ι σ × ℕ))) (c : Collected ι σ)
      (heard : List (Prompt ι σ × ℕ)), gs ⊆ groups → P.Gathered c heard →
      ∃ results after, gs.mapM ask = some results ∧ results.foldlM collectGroup c = some after ∧
        P.Gathered after (heard ++ gs.flatMap Prod.snd) := by
    intro gs
    induction gs with
    | nil => exact fun c heard _ hc ↦ ⟨[], c, rfl, rfl, by simpa using hc⟩
    | cons g gs ih =>
      intro c heard hsub hc
      obtain ⟨r, hr, hfeed, hrew⟩ := hask (hsub List.mem_cons_self)
      obtain ⟨mid, hmid, hG⟩ := hc.group hP.nodup hfeed hrew
      obtain ⟨results, after, hres, hfold, hG⟩ :=
        ih mid _ (fun x hx ↦ hsub (List.mem_cons_of_mem _ hx)) hG
      refine ⟨(g.2.map Prod.snd, r) :: results, after, ?_, ?_, ?_⟩
      · rw [List.mapM_cons, hr, hres]
        rfl
      · rw [List.foldlM_cons, hmid]
        exact hfold
      · rw [List.flatMap_cons, ← List.append_assoc]
        exact hG
  have hstart : P.Gathered (⟨[], [], none, []⟩ : Collected ι σ) [] := by
    refine ⟨rfl, rfl, ?_⟩
    cases P.names with
    | none => exact ⟨rfl, rfl⟩
    | some names => exact ⟨rfl, rfl⟩
  obtain ⟨results, after, hres, hfold, hG⟩ := hrun groups _ [] (List.Subset.refl _) hstart
  rw [List.nil_append] at hG
  obtain ⟨rewards, hsorted, hrew⟩ := hG.sorted (groupBy_perm _ _) hne hP.nodup
  refine ⟨rewards, ?_, hrew⟩
  have hcalc : calculateRewards R rows =
      (groups.mapM ask).bind fun results ↦
        (results.foldlM collectGroup ⟨[], [], none, []⟩).bind Collected.sorted := rfl
  rw [hcalc, hres, Option.bind_some, hfold, Option.bind_some, hsorted]

theorem calculateRewards_unknown {rows : List (Prompt ι σ)} {p : Prompt ι σ} (hp : p ∈ rows)
    (h : R.taskToEnv p.taskName = none) : calculateRewards R rows = none := by
  obtain ⟨i, hi⟩ := List.mem_iff_getElem?.mp hp
  have hmem : (p, i) ∈ rows.zipIdx := List.mem_zipIdx_iff_getElem?.mpr hi
  have hkey : p.taskName ∈ (groupBy (fun x : Prompt ι σ × ℕ ↦ x.1.taskName) rows.zipIdx).map
      Prod.fst := mem_keys_groupBy.mpr (List.mem_map_of_mem (f := fun x ↦ x.1.taskName) hmem)
  obtain ⟨group, hgroup, heq⟩ := List.mem_map.mp hkey
  rw [calculateRewards]
  refine Option.bind_eq_none_iff.mpr fun results hres ↦ ?_
  obtain ⟨k, hk⟩ := List.mem_iff_getElem?.mp hgroup
  have hall := forall₂_of_mapM hres
  have hlt : k < results.length := hall.length_eq ▸ (List.getElem?_eq_some_iff.mp hk).1
  obtain ⟨g, hg, hask⟩ := exists_of_mapM hres (List.getElem?_eq_getElem hlt)
  obtain rfl : g = group := Option.some.inj (hg.symm.trans hk)
  rw [heq, h] at hask
  exact absurd hask (by simp)

end CalculateRewards

end NemoRL.Experience.Rollouts
