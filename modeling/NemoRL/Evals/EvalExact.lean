import Mathlib
import NemoRL.Evals.Eval
import NemoRL.Foundations.Thresholds

namespace NemoRL.Evals

open Foundations.Blocks Foundations.Combinations Foundations.Thresholds

/-- One of the samples that a prompt is answered with. -/
structure Sample where
  answer : Option String
  correct : Bool
  deriving DecidableEq

namespace Sample

def reward (x : Sample) : ℚ := if x.correct then 1 else 0

end Sample

/-- The samples of a batch, in groups, as the environment scores them. -/
def envReturn (batch : List (List Sample)) : EnvReturn where
  rewards := batch.flatten.map Sample.reward
  answers := batch.flatten.map Sample.answer

/-- The fraction of the `k`-subsets of a group that contain a correct sample. -/
def passFraction (k : ℕ) (g : List Sample) : ℚ :=
  ((Finset.powersetCard k (Finset.univ : Finset (Fin g.length))).filter fun s ↦
    ∃ i ∈ s, (g.get i).correct).card / g.length.choose k

def Consistent (g : List Sample) : Prop :=
  ∀ x ∈ g, ∀ y ∈ g, x.answer = y.answer → x.correct = y.correct

def MostCommon (answers : List (Option String)) (a : Option String) : Prop :=
  a ∈ answers ∧ ∀ b ∈ answers, answers.count b ≤ answers.count a

/-- No `k`-subset of a group has a tie for the most common answer. -/
def NoTie (k : ℕ) (g : List Sample) : Prop :=
  ∀ s : List Sample, s.Sublist g → s.length = k → ∀ a b,
    MostCommon (s.map Sample.answer) a → MostCommon (s.map Sample.answer) b → a = b

section Groups

variable {n : ℕ} {batch : List (List Sample)}

theorem length_flatten_groups (h : ∀ g ∈ batch, g.length = n) :
    batch.flatten.length = batch.length * n := by
  rw [List.length_flatten, List.map_congr_left h, List.map_const', List.sum_replicate, smul_eq_mul]

theorem slices_groups {α : Type} (hn : 0 < n) (f : Sample → α) (h : ∀ g ∈ batch, g.length = n) :
    slices n (batch.flatten.map f) = batch.map (List.map f) := by
  have hcount : (batch.length * n + n - 1) / n = batch.length := by
    rw [Nat.add_sub_assoc hn, Nat.mul_comm, Nat.mul_add_div hn, Nat.div_eq_of_lt (by omega),
      Nat.add_zero]
  have hlen : (batch.flatten.map f).length = batch.length * n := by
    rw [List.length_map, length_flatten_groups h]
  have hgroups : ∀ g ∈ batch.map (List.map f), g.length = n := by
    intro g hg
    obtain ⟨g', hg', rfl⟩ := List.mem_map.mp hg
    rw [List.length_map, h g' hg']
  have hblocks := map_block_flatten hgroups
  rw [List.length_map] at hblocks
  rw [slices, hlen, hcount, List.map_flatten, hblocks]

theorem split_eq_slices {α : Type} (hn : 0 < n) {l : List α} (hl : l ≠ []) :
    split n l = slices n l := by
  have hpos := List.length_pos_iff.mpr hl
  have hone : 1 ≤ (l.length + n - 1) / n := (Nat.one_le_div_iff hn).mpr (by omega)
  rw [split, slices, Nat.max_eq_left hone]

theorem flatten_groups_ne_nil (hn : 0 < n) (h : ∀ g ∈ batch, g.length = n) (hne : batch ≠ []) :
    batch.flatten ≠ [] := by
  have hpos : 0 < batch.length * n := Nat.mul_pos (List.length_pos_iff.mpr hne) hn
  rw [← length_flatten_groups h] at hpos
  exact List.length_pos_iff.mp hpos

end Groups

section Pass

variable {n k : ℕ}

theorem sum_reward (g : List Sample) :
    (g.map Sample.reward).sum = (g.countP Sample.correct : ℚ) := by
  induction g with
  | nil => rfl
  | cons x g ih =>
    rw [List.map_cons, List.sum_cons, ih, List.countP_cons, Sample.reward]
    cases x.correct with
    | true => simp [add_comm]
    | false => simp

theorem card_filter_get (p : Sample → Bool) (g : List Sample) :
    ((Finset.univ : Finset (Fin g.length)).filter fun i ↦ p (g.get i)).card = g.countP p := by
  rw [← countP_ofFn, List.ofFn_get]

/-- The subsets without a correct sample are those of the incorrect samples. -/
theorem card_without_correct (k : ℕ) (g : List Sample) :
    ((Finset.powersetCard k (Finset.univ : Finset (Fin g.length))).filter fun s ↦
      ¬ ∃ i ∈ s, (g.get i).correct).card = (g.length - g.countP Sample.correct).choose k := by
  have hincorrect := card_filter_get (fun x ↦ !x.correct) g
  have hcount := List.length_eq_countP_add_countP Sample.correct (l := g)
  simp only [decide_not, Bool.decide_eq_true] at hcount
  have heq : ((Finset.powersetCard k (Finset.univ : Finset (Fin g.length))).filter fun s ↦
      ¬ ∃ i ∈ s, (g.get i).correct) =
        Finset.powersetCard k (Finset.univ.filter fun i ↦ !(g.get i).correct) := by
    ext s
    simp only [Finset.mem_filter, Finset.mem_powersetCard, Finset.subset_iff, Finset.mem_univ,
      true_and, not_exists, not_and, Bool.not_eq_true, Bool.not_eq_eq_eq_not, Bool.not_true,
      implies_true]
    exact and_comm
  rw [heq, Finset.card_powersetCard, hincorrect]
  rw [hcount, Nat.add_sub_cancel_left]

theorem passFraction_eq {g : List Sample} (hk : k ≤ g.length) :
    passFraction k g = 1 -
      ((g.length - g.countP Sample.correct).choose k : ℚ) / (g.length.choose k : ℚ) := by
  have hne : (g.length.choose k : ℚ) ≠ 0 := Nat.cast_ne_zero.mpr (Nat.choose_pos hk).ne'
  have hsplit := Finset.card_filter_add_card_filter_not
    (s := Finset.powersetCard k (Finset.univ : Finset (Fin g.length)))
    (fun s ↦ ∃ i ∈ s, (g.get i).correct)
  rw [card_without_correct, Finset.card_powersetCard, Finset.card_univ, Fintype.card_fin]
    at hsplit
  rw [passFraction, eq_sub_iff_add_eq, ← add_div, ← Nat.cast_add, hsplit, div_self hne]

theorem evalSingleChunk_group (hk : k ≤ n) {g : List Sample} (hg : g.length = n) :
    evalSingleChunk n (g.map Sample.reward).sum k = passFraction k g := by
  subst hg
  rw [sum_reward, evalSingleChunk_eq List.countP_le_length, passFraction_eq hk]

theorem evalPassK_eq_sum (rewards : List ℚ) (n k : ℕ) :
    evalPassK rewards n k = ((split n rewards).map fun g ↦ evalSingleChunk n g.sum k).sum := by
  rw [evalPassK, List.sum_eq_foldl, List.foldl_map]

theorem evalPassK_nil (hk : k ≤ n) : evalPassK [] n k = 0 := by
  have hchunks : split n ([] : List ℚ) = [[]] := by
    have hzero : (n - 1) / n = 0 := by
      rcases Nat.eq_zero_or_pos n with rfl | hn
      · rfl
      · exact Nat.div_eq_of_lt (by omega)
    rw [split, List.length_nil, Nat.zero_add, hzero]
    simp [block_eq]
  have hne : (n.choose k : ℚ) ≠ 0 := Nat.cast_ne_zero.mpr (Nat.choose_pos hk).ne'
  have hnone := evalSingleChunk_eq (Nat.zero_le n) k
  rw [Nat.sub_zero, div_self hne, sub_self, Nat.cast_zero] at hnone
  rw [evalPassK_eq_sum, hchunks, List.map_singleton, List.sum_singleton, List.sum_nil, hnone]

theorem evalPassK_groups (hk : 1 ≤ k) (hkn : k ≤ n) {batch : List (List Sample)}
    (h : ∀ g ∈ batch, g.length = n) :
    evalPassK (envReturn batch).rewards n k = (batch.map (passFraction k)).sum := by
  have hn : 0 < n := by omega
  rcases eq_or_ne batch [] with rfl | hne
  · exact evalPassK_nil hkn
  · have hflat : batch.flatten.map Sample.reward ≠ [] := by
      simpa using flatten_groups_ne_nil hn h hne
    have hgroup : ∀ g ∈ batch,
        evalSingleChunk n (g.map Sample.reward).sum k = passFraction k g := fun g hg ↦
      evalSingleChunk_group hkn (h g hg)
    rw [evalPassK_eq_sum, envReturn, split_eq_slices hn hflat, slices_groups hn _ h, List.map_map]
    exact congrArg List.sum (List.map_congr_left hgroup)

end Pass

section Votes

variable {k : ℕ} {g : List Sample}

theorem majorityVote_mostCommon {answers : List (Option String)} (h : answers ≠ []) :
    MostCommon answers (majorityVote answers) := by
  have hmem : ∀ a, a ∈ answers → (a, answers.count a) ∈ counter answers := by
    intro a ha
    exact List.mem_map_of_mem (List.mem_eraseDups.mpr ha)
  obtain ⟨a, ha⟩ := List.exists_mem_of_ne_nil answers h
  obtain ⟨w, hw⟩ := Option.ne_none_iff_exists'.mp
    (mt List.argmax_eq_none.mp (List.ne_nil_of_mem (hmem a ha)) :
      (counter answers).argmax Prod.snd ≠ none)
  have hvote : majorityVote answers = w.1 := by rw [majorityVote, hw, Option.elim_some]
  obtain ⟨b, hb, rfl⟩ := List.mem_map.mp (List.argmax_mem hw)
  rw [hvote]
  refine ⟨List.mem_eraseDups.mp hb, ?_⟩
  intro c hc
  exact List.le_of_mem_argmax (hmem c hc) hw

theorem mostCommon_perm {answers answers' : List (Option String)} {a : Option String}
    (h : answers.Perm answers') (ha : MostCommon answers a) : MostCommon answers' a := by
  refine ⟨h.mem_iff.mp ha.1, ?_⟩
  intro b hb
  rw [← h.count_eq, ← h.count_eq]
  exact ha.2 b (h.mem_iff.mpr hb)

def winsAt (g : List Sample) (a : Option String) : Bool :=
  (g.find? fun x ↦ x.answer = a).elim false Sample.correct

/-- The vote of a choice of samples of a group, as the group's rewards count it. -/
def wins (g s : List Sample) : Bool := winsAt g (majorityVote (s.map Sample.answer))

def consFraction (k : ℕ) (g : List Sample) : ℚ :=
  (combinations k g).countP (wins g) / g.length.choose k

theorem lookup_eq {a : Option String} (h : a ∈ g.map Sample.answer) :
    ∃ i, (g.map Sample.answer).idxOf? a = some i ∧
      (g.map Sample.reward).getD i 0 = if winsAt g a then 1 else 0 := by
  induction g with
  | nil => simp at h
  | cons x g ih =>
    by_cases hx : x.answer = a
    · refine ⟨0, ?_, ?_⟩
      · rw [List.map_cons, List.idxOf?_cons, if_pos (beq_iff_eq.mpr hx)]
      · rw [winsAt, List.find?_cons_of_pos (by simpa using hx)]
        rfl
    · obtain ⟨i, hi, hreward⟩ := ih (by simpa [Ne.symm hx] using h)
      refine ⟨i + 1, ?_, ?_⟩
      · rw [List.map_cons, List.idxOf?_cons, if_neg (by simpa using hx), hi, Option.map_some]
      · rw [winsAt, List.find?_cons_of_neg (by simpa using hx), List.map_cons, List.getD_cons_succ]
        exact hreward

theorem voteStep_eq {s : List Sample} {subset : List ℕ} (counts : ℕ × ℕ) (hs : s ≠ [])
    (hsub : s.Sublist g)
    (hsubset : subset.map ((g.map Sample.answer).getD · none) = s.map Sample.answer) :
    voteStep (g.map Sample.reward) (g.map Sample.answer) counts subset =
      .ok (counts.1 + 1, if wins g s then counts.2 + 1 else counts.2) := by
  have hvote := (majorityVote_mostCommon (by simpa using hs : s.map Sample.answer ≠ [])).1
  obtain ⟨i, hi, hreward⟩ := lookup_eq ((hsub.map Sample.answer).subset hvote)
  have hwins : (g.map Sample.reward).getD i 0 = if wins g s then 1 else 0 := hreward
  simp only [voteStep, hsubset, hi, Option.elim_some]
  change Except.ok (counts.1 + 1,
    if (g.map Sample.reward).getD i 0 = 1 then counts.2 + 1 else counts.2) = _
  rw [hwins]
  by_cases h : wins g s = true
  · rw [if_pos h, if_pos rfl, if_pos h]
  · rw [if_neg h, if_neg zero_ne_one, if_neg h]

theorem votes_foldlM {subsets : List (List ℕ)} {f : List ℕ → List Sample}
    (h : ∀ t ∈ subsets, f t ≠ [] ∧ (f t).Sublist g ∧
      t.map ((g.map Sample.answer).getD · none) = (f t).map Sample.answer) (counts : ℕ × ℕ) :
    subsets.foldlM (voteStep (g.map Sample.reward) (g.map Sample.answer)) counts =
      .ok (counts.1 + subsets.length, counts.2 + (subsets.map f).countP (wins g)) := by
  induction subsets generalizing counts with
  | nil => rfl
  | cons t subsets ih =>
    obtain ⟨⟨hne, hsub, hmap⟩, hrest⟩ := List.forall_mem_cons.mp h
    rw [List.foldlM_cons, voteStep_eq counts hne hsub hmap]
    refine (ih hrest _).trans ?_
    rw [List.length_cons, List.map_cons, List.countP_cons]
    congr 2
    · omega
    · split <;> omega

theorem combinations_range (k : ℕ) (g : List Sample) :
    (combinations k (List.range g.length)).map (List.map fun i ↦ g.getD i ⟨none, false⟩) =
      combinations k g := by
  have hself : (List.range g.length).map (fun i ↦ g.getD i ⟨none, false⟩) = g := by
    apply List.ext_getElem (by simp)
    intro i h₁ h₂
    simp [h₂]
  rw [← combinations_map, hself]

theorem evalSingleConsK_eq (hk : 1 ≤ k) (hkg : k ≤ g.length) :
    evalSingleConsK (g.map Sample.reward) (g.map Sample.answer) g.length k =
      .ok (consFraction k g) := by
  have hgood : ∀ t ∈ combinations k (List.range g.length),
      t.map (fun i ↦ g.getD i ⟨none, false⟩) ≠ [] ∧
      (t.map fun i ↦ g.getD i ⟨none, false⟩).Sublist g ∧
      t.map ((g.map Sample.answer).getD · none) =
        (t.map fun i ↦ g.getD i ⟨none, false⟩).map Sample.answer := by
    intro t ht
    have hmem : t.map (fun i ↦ g.getD i ⟨none, false⟩) ∈ combinations k g := by
      rw [← combinations_range]
      exact List.mem_map_of_mem ht
    obtain ⟨hsub, hlen⟩ := mem_combinations.mp hmem
    refine ⟨?_, hsub, ?_⟩
    · intro hnil
      rw [hnil, List.length_nil] at hlen
      omega
    · rw [List.map_map]
      exact List.map_congr_left fun i _ ↦ List.getD_map g ⟨none, false⟩ Sample.answer
  have hvotes := votes_foldlM hgood (0, 0)
  rw [combinations_range, length_combinations, List.length_range, Nat.zero_add, Nat.zero_add]
    at hvotes
  rw [evalSingleConsK, if_neg (by omega), hvotes]
  rfl

theorem consensusStep_foldlM (hk : 1 ≤ k) {batch : List (List Sample)}
    (h : ∀ g ∈ batch, k ≤ g.length) (score : ℚ) :
    (batch.map fun g ↦ (g.map Sample.reward, g.map Sample.answer)).foldlM (consensusStep k) score =
      .ok (score + (batch.map (consFraction k)).sum) := by
  induction batch generalizing score with
  | nil => rw [List.map_nil, List.map_nil, List.sum_nil, add_zero]; rfl
  | cons g batch ih =>
    obtain ⟨hg, hrest⟩ := List.forall_mem_cons.mp h
    have hstep : consensusStep k score (g.map Sample.reward, g.map Sample.answer) =
        .ok (score + consFraction k g) := by
      rw [consensusStep]
      simp only [List.length_map, evalSingleConsK_eq hk hg, ne_eq, not_true_eq_false, if_false]
      rfl
    rw [List.map_cons, List.foldlM_cons, hstep, List.map_cons, List.sum_cons, ← add_assoc]
    exact ih hrest _

theorem evalConsK_groups {n : ℕ} (hk : 1 ≤ k) (hkn : k ≤ n) {batch : List (List Sample)}
    (h : ∀ g ∈ batch, g.length = n) (hne : batch ≠ []) :
    evalConsK (envReturn batch).rewards n k (envReturn batch).answers =
      .ok (batch.map (consFraction k)).sum := by
  have hn : 0 < n := by omega
  have hflat : batch.flatten.map Sample.reward ≠ [] := by
    simpa using flatten_groups_ne_nil hn h hne
  have hsteps := consensusStep_foldlM hk (fun g hg ↦ hkn.trans (h g hg).ge) 0
  rw [zero_add] at hsteps
  rw [evalConsK, envReturn, split_eq_slices hn hflat]
  simp only [slices_groups hn _ h, List.length_map, List.zip_map', ne_eq, not_true_eq_false,
    if_false]
  exact hsteps

/-- The vote of a choice is the mark of each sample with the most common answer. -/
theorem wins_eq (hg : Consistent g) {s : List Sample} {x : Sample} (hx : x ∈ g)
    (hvote : x.answer = majorityVote (s.map Sample.answer)) : wins g s = x.correct := by
  rw [wins, winsAt, ← hvote]
  obtain ⟨y, hy⟩ := Option.ne_none_iff_exists'.mp
    (mt List.find?_eq_none.mp (fun hnone ↦ hnone x hx (decide_eq_true rfl)) :
      g.find? (fun y ↦ y.answer = x.answer) ≠ none)
  have hanswer : y.answer = x.answer := by simpa using List.find?_some hy
  rw [hy, Option.elim_some]
  exact hg y (List.mem_of_find?_eq_some hy) x hx hanswer

theorem exists_voter {s : List Sample} (hs : s ≠ []) :
    ∃ x ∈ s, x.answer = majorityVote (s.map Sample.answer) :=
  List.mem_map.mp (majorityVote_mostCommon (by simpa using hs)).1

theorem passFraction_eq_countP (hkg : k ≤ g.length) :
    passFraction k g =
      (combinations k g).countP (List.any · Sample.correct) / g.length.choose k := by
  have hne : (g.length.choose k : ℚ) ≠ 0 := Nat.cast_ne_zero.mpr (Nat.choose_pos hkg).ne'
  have hcount := List.length_eq_countP_add_countP Sample.correct (l := g)
  have hall := List.length_eq_countP_add_countP (List.any · Sample.correct) (l := combinations k g)
  simp only [decide_not, Bool.decide_eq_true] at hcount hall
  have hnone : (combinations k g).countP (fun s ↦ !s.any Sample.correct) =
      (g.length - g.countP Sample.correct).choose k := by
    simp only [List.not_any_eq_all_not]
    rw [countP_all_combinations, hcount, Nat.add_sub_cancel_left]
  rw [length_combinations, hnone] at hall
  rw [passFraction_eq hkg, sub_eq_iff_eq_add, ← add_div, ← Nat.cast_add, ← hall, div_self hne]

theorem consFraction_le (hk : 1 ≤ k) (hkg : k ≤ g.length) (hg : Consistent g) :
    consFraction k g ≤ passFraction k g := by
  have hle : (combinations k g).countP (wins g) ≤
      (combinations k g).countP (List.any · Sample.correct) := by
    apply List.countP_mono_left
    intro s hs hwins
    obtain ⟨hsub, hlen⟩ := mem_combinations.mp hs
    obtain ⟨x, hx, hvote⟩ := exists_voter (List.ne_nil_of_length_pos (by omega : 0 < s.length))
    rw [wins_eq hg (hsub.subset hx) hvote] at hwins
    exact List.any_eq_true.mpr ⟨x, hx, hwins⟩
  rw [consFraction, passFraction_eq_countP hkg]
  gcongr

theorem consFraction_one (hkg : 1 ≤ g.length) (hg : Consistent g) :
    consFraction 1 g = passFraction 1 g := by
  have heq : (combinations 1 g).countP (wins g) =
      (combinations 1 g).countP (List.any · Sample.correct) := by
    apply List.countP_congr
    intro s hs
    obtain ⟨hsub, hlen⟩ := mem_combinations.mp hs
    obtain ⟨x, rfl⟩ := List.length_eq_one_iff.mp hlen
    obtain ⟨y, hy, hvote⟩ := exists_voter (List.cons_ne_nil x [])
    rw [wins_eq hg (hsub.subset hy) hvote, List.mem_singleton.mp hy]
    simp
  rw [consFraction, passFraction_eq_countP hkg, heq]

theorem passFraction_perm {g' : List Sample} (hkg : k ≤ g.length) (h : g.Perm g') :
    passFraction k g = passFraction k g' := by
  rw [passFraction_eq hkg, passFraction_eq (h.length_eq ▸ hkg), h.length_eq, h.countP_eq]

theorem consFraction_perm (hk : 1 ≤ k) {g' : List Sample} (h : g.Perm g') (hg : Consistent g)
    (htie : NoTie k g) : consFraction k g = consFraction k g' := by
  have hg' : Consistent g' := by
    intro x hx y hy
    exact hg x (h.mem_iff.mpr hx) y (h.mem_iff.mpr hy)
  have hvote : ∀ s ∈ combinations k g, ∀ s', s.Perm s' → wins g s = wins g s' := by
    intro s hs s' hss'
    obtain ⟨hsub, hlen⟩ := mem_combinations.mp hs
    have hne : s.map Sample.answer ≠ [] := by
      intro hnil
      rw [List.map_eq_nil_iff.mp hnil, List.length_nil] at hlen
      omega
    have hne' : s'.map Sample.answer ≠ [] := fun hnil ↦
      hne ((hss'.map Sample.answer).trans (hnil ▸ List.Perm.refl _)).eq_nil
    have hsame := htie s hsub hlen _ _ (majorityVote_mostCommon hne)
      (mostCommon_perm (hss'.map Sample.answer).symm (majorityVote_mostCommon hne'))
    rw [wins, wins, hsame]
  have hgroups : ∀ s' ∈ combinations k g', wins g s' = wins g' s' := by
    intro s' hs'
    obtain ⟨hsub, hlen⟩ := mem_combinations.mp hs'
    obtain ⟨x, hx, hmost⟩ := exists_voter (List.ne_nil_of_length_pos (by omega : 0 < s'.length))
    have hx' := hsub.subset hx
    rw [wins_eq hg (h.mem_iff.mpr hx') hmost, wins_eq hg' hx' hmost]
  rw [consFraction, consFraction, countP_combinations_of_perm h hvote, h.length_eq]
  congr 2
  exact List.countP_congr fun s' hs' ↦ by rw [hgroups s' hs']

end Votes

section Batches

variable {n k : ℕ}

theorem sum_forall₂ {α : Type} {R : α → α → Prop} {f : α → ℚ} {l l' : List α}
    (h : List.Forall₂ R l l') (hf : ∀ x ∈ l, ∀ y, R x y → f x = f y) :
    (l.map f).sum = (l'.map f).sum := by
  induction h with
  | nil => rfl
  | @cons x y l l' hxy _ ih =>
    obtain ⟨hx, hrest⟩ := List.forall_mem_cons.mp hf
    rw [List.map_cons, List.map_cons, List.sum_cons, List.sum_cons, hx y hxy, ih hrest]

theorem length_forall₂ {batch batch' : List (List Sample)} (h : List.Forall₂ List.Perm batch batch')
    (hn : ∀ g ∈ batch, g.length = n) : ∀ g ∈ batch', g.length = n := by
  induction h with
  | nil => exact hn
  | @cons g g' batch batch' hg _ ih =>
    obtain ⟨hlen, hrest⟩ := List.forall_mem_cons.mp hn
    exact List.forall_mem_cons.mpr ⟨hg.length_eq.symm.trans hlen, ih hrest⟩

/-- A score that adds up over the groups of a batch adds up over the batches. -/
theorem runEnvEval_groups {metric : String} {f : List Sample → ℚ}
    {batches : List (List (List Sample))}
    (h : ∀ batch ∈ batches, ∀ score, scoreStep metric n k score (envReturn batch) =
      .ok (score + (batch.map f).sum)) (score : ℚ) :
    (batches.map envReturn).foldlM (scoreStep metric n k) score =
      .ok (score + (batches.flatten.map f).sum) := by
  induction batches generalizing score with
  | nil => rw [List.flatten_nil, List.map_nil, List.map_nil, List.sum_nil, add_zero]; rfl
  | cons batch batches ih =>
    obtain ⟨hbatch, hrest⟩ := List.forall_mem_cons.mp h
    rw [List.map_cons, List.foldlM_cons, hbatch score, List.flatten_cons, List.map_append,
      List.sum_append, ← add_assoc]
    exact ih hrest _

theorem runEnvEval_pass (hk : 1 ≤ k) (hkn : k ≤ n) {batches : List (List (List Sample))}
    (h : ∀ batch ∈ batches, ∀ g ∈ batch, g.length = n) :
    runEnvEval "pass@k" n k (batches.map envReturn) =
      .ok (evalPassK (envReturn batches.flatten).rewards n k) := by
  have hstep : ∀ batch ∈ batches, ∀ score, scoreStep "pass@k" n k score (envReturn batch) =
      .ok (score + (batch.map (passFraction k)).sum) := by
    intro batch hbatch score
    rw [scoreStep, if_pos rfl, evalPassK_groups hk hkn (h batch hbatch)]
    rfl
  have hall : ∀ g ∈ batches.flatten, g.length = n := by
    intro g hg
    obtain ⟨batch, hbatch, hg⟩ := List.mem_flatten.mp hg
    exact h batch hbatch g hg
  rw [runEnvEval, runEnvEval_groups hstep, zero_add, evalPassK_groups hk hkn hall]

theorem runEnvEval_cons (hk : 1 ≤ k) (hkn : k ≤ n) {batches : List (List (List Sample))}
    (h : ∀ batch ∈ batches, batch ≠ [] ∧ ∀ g ∈ batch, g.length = n) (hne : batches ≠ []) :
    runEnvEval "cons@k" n k (batches.map envReturn) =
      evalConsK (envReturn batches.flatten).rewards n k (envReturn batches.flatten).answers := by
  have hstep : ∀ batch ∈ batches, ∀ score, scoreStep "cons@k" n k score (envReturn batch) =
      .ok (score + (batch.map (consFraction k)).sum) := by
    intro batch hbatch score
    obtain ⟨hsome, hlen⟩ := h batch hbatch
    rw [scoreStep, if_neg (by decide), if_pos rfl, evalConsK_groups hk hkn hlen hsome]
    rfl
  have hall : ∀ g ∈ batches.flatten, g.length = n := by
    intro g hg
    obtain ⟨batch, hbatch, hg⟩ := List.mem_flatten.mp hg
    exact (h batch hbatch).2 g hg
  have hsome : batches.flatten ≠ [] := by
    obtain ⟨batch, hbatch⟩ := List.exists_mem_of_ne_nil batches hne
    obtain ⟨g, hg⟩ := List.exists_mem_of_ne_nil batch (h batch hbatch).1
    exact List.ne_nil_of_mem (List.mem_flatten.mpr ⟨batch, hbatch, hg⟩)
  rw [runEnvEval, runEnvEval_groups hstep, zero_add, evalConsK_groups hk hkn hall hsome]

/-- `eval_pass_k` adds up the fractions of the subsets with a correct sample, and
`eval_cons_k` stays below it, meets it for single samples and, without ties, does not see
the order of a group. Both add up over the batches of the dataloader. -/
theorem evalScores_estimate (hk : 1 ≤ k) (hkn : k ≤ n) :
    (∀ batch : List (List Sample), (∀ g ∈ batch, g.length = n) →
      evalPassK (envReturn batch).rewards n k = (batch.map (passFraction k)).sum ∧
      (∀ batch', List.Forall₂ List.Perm batch batch' →
        evalPassK (envReturn batch').rewards n k = evalPassK (envReturn batch).rewards n k) ∧
      (batch ≠ [] → (∀ g ∈ batch, Consistent g) → ∃ v,
        evalConsK (envReturn batch).rewards n k (envReturn batch).answers = .ok v ∧
        v ≤ evalPassK (envReturn batch).rewards n k ∧
        (k = 1 → v = evalPassK (envReturn batch).rewards n k) ∧
        ((∀ g ∈ batch, NoTie k g) → ∀ batch', List.Forall₂ List.Perm batch batch' →
          evalConsK (envReturn batch').rewards n k (envReturn batch').answers = .ok v))) ∧
    ∀ batches : List (List (List Sample)),
      (∀ batch ∈ batches, batch ≠ [] ∧ ∀ g ∈ batch, g.length = n) → batches ≠ [] →
        runEnvEval "pass@k" n k (batches.map envReturn) =
          .ok (evalPassK (envReturn batches.flatten).rewards n k) ∧
        runEnvEval "cons@k" n k (batches.map envReturn) =
          evalConsK (envReturn batches.flatten).rewards n k
            (envReturn batches.flatten).answers := by
  constructor
  · intro batch hlen
    have hk' : ∀ g ∈ batch, k ≤ g.length := fun g hg ↦ hkn.trans (hlen g hg).ge
    refine ⟨evalPassK_groups hk hkn hlen, ?_, ?_⟩
    · intro batch' hperm
      rw [evalPassK_groups hk hkn hlen, evalPassK_groups hk hkn (length_forall₂ hperm hlen)]
      exact (sum_forall₂ hperm fun g hg g' h ↦ passFraction_perm (hk' g hg) h).symm
    · intro hne hcons
      refine ⟨_, evalConsK_groups hk hkn hlen hne, ?_, ?_, ?_⟩
      · rw [evalPassK_groups hk hkn hlen]
        exact List.sum_le_sum fun g hg ↦ consFraction_le hk (hk' g hg) (hcons g hg)
      · rintro rfl
        rw [evalPassK_groups hk hkn hlen]
        exact congrArg List.sum
          (List.map_congr_left fun g hg ↦ consFraction_one (hk' g hg) (hcons g hg))
      · intro htie batch' hperm
        have hne' : batch' ≠ [] := by
          rintro rfl
          exact hne (List.forall₂_nil_right_iff.mp hperm)
        rw [evalConsK_groups hk hkn (length_forall₂ hperm hlen) hne']
        exact congrArg Except.ok (sum_forall₂ hperm fun g hg g' h ↦
          consFraction_perm hk h (hcons g hg) (htie g hg)).symm
  · intro batches h hne
    exact ⟨runEnvEval_pass hk hkn fun batch hbatch ↦ (h batch hbatch).2,
      runEnvEval_cons hk hkn h hne⟩

def samplePair : List (List Sample) :=
  [[⟨some "4", true⟩, ⟨some "4", true⟩, ⟨none, false⟩],
    [⟨some "7", false⟩, ⟨none, false⟩, ⟨some "9", true⟩]]

theorem evalScores_estimate_pair :
    (∀ g ∈ samplePair, g.length = 3 ∧ ∀ x ∈ g, ∀ y ∈ g, x.answer = y.answer →
      x.correct = y.correct) ∧
    (∃ v, evalConsK (envReturn samplePair).rewards 3 2 (envReturn samplePair).answers = .ok v ∧
      v ≤ evalPassK (envReturn samplePair).rewards 3 2) ∧
    runEnvEval "cons@k" 3 2 ([samplePair, samplePair].map envReturn) =
      evalConsK (envReturn [samplePair, samplePair].flatten).rewards 3 2
        (envReturn [samplePair, samplePair].flatten).answers := by
  have hpair : ∀ g ∈ samplePair, g.length = 3 ∧ ∀ x ∈ g, ∀ y ∈ g, x.answer = y.answer →
      x.correct = y.correct := by decide
  obtain ⟨hbatch, hbatches⟩ := evalScores_estimate (n := 3) (k := 2) (by decide) (by decide)
  obtain ⟨v, hv, hle, -⟩ := (hbatch samplePair fun g hg ↦ (hpair g hg).1).2.2 (by decide)
    fun g hg ↦ (hpair g hg).2
  exact ⟨hpair, ⟨v, hv, hle⟩, (hbatches [samplePair, samplePair] (by decide) (by decide)).2⟩

end Batches

end NemoRL.Evals
