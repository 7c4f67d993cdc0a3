import Mathlib
import NemoRL.Foundations.Spread

namespace NemoRL.Algorithms

open Foundations.Spread

variable {ρ κ K : Type} [DecidableEq κ] [Field K] [LinearOrder K] (prompt : ρ → κ)
  (reward stdReward : ρ → K)

/-- What `calculate_baseline_and_std_per_prompt` returns for a row. The standard
deviation stands by its square: it is zero when the square is. -/
structure PromptStatistic (K : Type) where
  baseline : K
  variance : K

def promptGroup (rows : List ρ) (row : ρ) : List ρ :=
  rows.filter fun other ↦ prompt other = prompt row

/-- A row of the product with the mask matrix: all of the group, or all but the row itself. -/
def maskedSum (leaveOneOut : Bool) (f : ρ → K) (group : List ρ) (row : ρ) : K :=
  (group.map f).sum - if leaveOneOut then f row else 0

/-- One row of `calculate_baseline_and_std_per_prompt`, with every row valid:
all callers pass a mask of ones. -/
def promptStatistic (leaveOneOut : Bool) (rows : List ρ) (row : ρ) : PromptStatistic K :=
  let group := promptGroup prompt rows row
  if group.length ≤ 1 then ⟨reward row, 0⟩
  else
    let numValid : K := group.length - if leaveOneOut then 1 else 0
    let mean f := maskedSum leaveOneOut f group row / numValid
    let stdBaseline := mean stdReward
    let stdBaselineSquare := mean fun r ↦ stdReward r ^ 2
    -- with one valid row the code has `0 * inf`, which `nan_to_num` makes 0
    ⟨mean reward, if numValid = 1 then 0
      else (stdBaselineSquare - stdBaseline ^ 2) * (numValid / (numValid - 1))⟩

variable {prompt reward stdReward} {leaveOneOut : Bool}

theorem promptGroup_append_left {a b : List ρ} {row : ρ}
    (h : ∀ other ∈ b, prompt other ≠ prompt row) :
    promptGroup prompt (a ++ b) row = promptGroup prompt a row := by
  have hnone : promptGroup prompt b row = [] :=
    List.filter_eq_nil_iff.mpr fun other hother ↦ by simpa using h other hother
  rw [promptGroup] at hnone ⊢
  rw [List.filter_append, hnone, List.append_nil, promptGroup]

theorem promptGroup_append_right {a b : List ρ} {row : ρ}
    (h : ∀ other ∈ a, prompt other ≠ prompt row) :
    promptGroup prompt (a ++ b) row = promptGroup prompt b row := by
  have hnone : promptGroup prompt a row = [] :=
    List.filter_eq_nil_iff.mpr fun other hother ↦ by simpa using h other hother
  rw [promptGroup] at hnone ⊢
  rw [List.filter_append, hnone, List.nil_append, promptGroup]

theorem promptStatistic_congr {rows rows' : List ρ} {row : ρ}
    (h : promptGroup prompt rows row = promptGroup prompt rows' row) :
    promptStatistic prompt reward stdReward leaveOneOut rows row =
      promptStatistic prompt reward stdReward leaveOneOut rows' row := by
  rw [promptStatistic, promptStatistic, h]

def spreadValues (stdReward : ρ → K) (leaveOneOut : Bool) (group : List ρ) (row : ρ) : List K :=
  if leaveOneOut then (group.map stdReward).erase (stdReward row) else group.map stdReward

variable (stdReward leaveOneOut)

theorem maskedSum_eq (f : K → K) {group : List ρ} {row : ρ} (hrow : row ∈ group) :
    maskedSum leaveOneOut (fun r ↦ f (stdReward r)) group row =
      ((spreadValues stdReward leaveOneOut group row).map f).sum := by
  rw [maskedSum, spreadValues]
  have hmap : (group.map fun r ↦ f (stdReward r)).sum = ((group.map stdReward).map f).sum := by
    rw [List.map_map]
    rfl
  cases leaveOneOut with
  | false => simpa using hmap
  | true =>
    have hmem : stdReward row ∈ group.map stdReward := List.mem_map_of_mem hrow
    have hperm := ((List.perm_cons_erase hmem).map f).sum_eq
    rw [List.map_cons, List.sum_cons] at hperm
    simp only [if_true]
    rw [hmap, hperm]
    ring

theorem length_spreadValues {group : List ρ} {row : ρ} (hrow : row ∈ group) :
    ((spreadValues stdReward leaveOneOut group row).length : K) =
      group.length - if leaveOneOut then 1 else 0 := by
  rw [spreadValues]
  cases leaveOneOut with
  | false => simp
  | true =>
    have hmem : stdReward row ∈ group.map stdReward := List.mem_map_of_mem hrow
    have hpos : 0 < group.length := List.length_pos_of_mem hrow
    simp only [if_true]
    rw [List.length_erase_of_mem hmem, List.length_map]
    push_cast [Nat.cast_sub hpos]
    ring

variable {stdReward leaveOneOut}

variable [IsStrictOrderedRing K]

theorem variance_ne_zero_iff {rows : List ρ} {row : ρ} (hrow : row ∈ rows) :
    (promptStatistic prompt reward stdReward leaveOneOut rows row).variance ≠ 0 ↔
      Varied (spreadValues stdReward leaveOneOut (promptGroup prompt rows row) row) := by
  set group := promptGroup prompt rows row with hgroup
  have hmem : row ∈ group := List.mem_filter.mpr ⟨hrow, decide_eq_true rfl⟩
  set values := spreadValues stdReward leaveOneOut group row with hvalues
  have hlen := length_spreadValues stdReward leaveOneOut hmem
  have hshort : values.length ≤ 1 → ¬ Varied values := by
    intro hle
    rw [not_varied_iff]
    match values, hle with
    | [], _ => exact nofun
    | [x], _ => simp
  have hsum := maskedSum_eq stdReward leaveOneOut id hmem
  have hsquare := maskedSum_eq stdReward leaveOneOut
    (fun x ↦ x ^ 2) hmem
  simp only [id_eq, List.map_id] at hsum
  rw [← hvalues] at hlen hsum hsquare
  rw [promptStatistic]
  simp only [← hgroup, ← hlen, hsum, hsquare]
  by_cases hone : group.length ≤ 1
  · have hle : values.length ≤ group.length := by
      rw [hvalues, spreadValues]
      split_ifs
      · exact (List.length_erase_le).trans (List.length_map _).le
      · exact (List.length_map _).le
    rw [if_pos hone]
    simpa using hshort (hle.trans hone)
  · rw [if_neg hone]
    by_cases hvalid : (values.length : K) = 1
    · have hle : values.length ≤ 1 := by exact_mod_cast hvalid.le
      simp only [if_pos hvalid]
      simpa using hshort hle
    · have hne : values ≠ [] := by
        intro hnil
        have hge : (2 : K) ≤ group.length := by exact_mod_cast Nat.lt_of_not_le hone
        rw [hnil, List.length_nil, Nat.cast_zero] at hlen
        split_ifs at hlen <;> linarith
      have hpos : (values.length : K) ≠ 0 := by
        exact_mod_cast List.length_eq_zero_iff.not.mpr hne
      have hscale : (values.length : K) / (values.length - 1) ≠ 0 :=
        div_ne_zero hpos (sub_ne_zero.mpr hvalid)
      simp only [if_neg hvalid]
      rw [mul_ne_zero_iff, and_iff_left hscale, ne_eq, meanSq_sub_sq_mean_eq_zero hne, not_not]

end NemoRL.Algorithms
