import Mathlib
import NemoRL.Algorithms.PromptStatistics
import NemoRL.Foundations.Spread

namespace NemoRL.Algorithms

open Foundations.Spread

/-- The tensors that `calculate_baseline_and_std_per_prompt` is given, with a row
for each index. -/
structure BaselineBatch (κ K : Type) [Zero K] [One K] (b : ℕ) where
  prompts : Fin b → κ
  rewards : Fin b → K
  validMask : Fin b → K
  stdRewards : Option (Fin b → K)
  binary : ∀ i, validMask i = 0 ∨ validMask i = 1

/-- The two tensors that it returns. The standard deviation stands by its square. -/
@[ext]
structure Baselines (K : Type) (b : ℕ) where
  baseline : Fin b → K
  variance : Fin b → K

section Tensors

variable {K : Type} [Field K] [LinearOrder K] {b : ℕ}

def writeRows (t : Fin b → K) (idx : List (Fin b)) (values : List K) : Fin b → K :=
  (idx.zip values).foldl (fun t w ↦ Function.update t w.1 w.2) t

def baselineMaskMatrix (leaveOneOut : Bool) (a c : ℕ) : K :=
  if leaveOneOut then 1 - (if a = c then 1 else 0) else 1

def matmul (matrix : ℕ → ℕ → K) (values : List K) : List K :=
  (List.range values.length).map fun a ↦
    ∑ c ∈ Finset.range values.length, matrix a c * values.getD c 0

/-- The square of what `.sqrt().nan_to_num(0)` leaves of `d * (n / (n - 1))`. The
factor is infinite for one valid row, and `largest` stands for an infinite result. -/
def squaredStd (largest d numValid : K) : K :=
  if numValid = 1 then if 0 < d then largest ^ 2 else 0
  else max (d * (numValid / (numValid - 1))) 0

end Tensors

namespace BaselineBatch

variable {κ K : Type} [LinearOrder κ] [Field K] [LinearOrder K] {b : ℕ} (batch : BaselineBatch κ K b)
  (leaveOneOut : Bool) (largest : K)

def uniquePrompts : List κ :=
  ((List.finRange b).map batch.prompts).dedup.mergeSort fun p q ↦ p ≤ q

def promptIdx (p : κ) : List (Fin b) := (List.finRange b).filter fun i ↦ batch.prompts i = p

/-- The mean over the valid rows of a prompt that `matmul` takes for each row. -/
def promptMean (idx : List (Fin b)) (numValid : K) (f : Fin b → K) : List K :=
  (matmul (baselineMaskMatrix leaveOneOut) (idx.map fun i ↦ f i * batch.validMask i)).map
    (· / numValid)

def promptStep (s : Baselines K b) (p : κ) : Baselines K b :=
  let idx := batch.promptIdx p
  let stdRewards := batch.stdRewards.getD batch.rewards
  let valid := (idx.map batch.validMask).sum
  if valid ≤ 1 then { s with baseline := writeRows s.baseline idx (idx.map batch.rewards) }
  else
    let numValid := valid - if leaveOneOut then 1 else 0
    let promptBaseline := batch.promptMean leaveOneOut idx numValid batch.rewards
    let stdPromptBaseline := batch.promptMean leaveOneOut idx numValid stdRewards
    let stdPromptBaselineSquare :=
      batch.promptMean leaveOneOut idx numValid fun i ↦ stdRewards i ^ 2
    { baseline := writeRows s.baseline idx promptBaseline
      variance := writeRows s.variance idx
        (List.zipWith (fun square mean ↦ squaredStd largest (square - mean ^ 2) numValid)
          stdPromptBaselineSquare stdPromptBaseline) }

def calculateBaselineAndStdPerPrompt : Baselines K b :=
  batch.uniquePrompts.foldl (batch.promptStep leaveOneOut largest) ⟨fun _ ↦ 0, fun _ ↦ 0⟩

end BaselineBatch

section Tensors

variable {K : Type} [Field K] {b : ℕ}

omit [Field K] in
theorem writeRows_map (f : Fin b → K) (t : Fin b → K) (idx : List (Fin b)) (i : Fin b) :
    writeRows t idx (idx.map f) i = if i ∈ idx then f i else t i := by
  induction idx generalizing t with
  | nil => rfl
  | cons j idx ih =>
    have hstep : writeRows t (j :: idx) ((j :: idx).map f) =
        writeRows (Function.update t j (f j)) idx (idx.map f) := rfl
    rw [hstep, ih]
    by_cases hmem : i ∈ idx
    · rw [if_pos hmem, if_pos (List.mem_cons_of_mem j hmem)]
    · rw [if_neg hmem]
      by_cases hij : i = j
      · rw [hij, Function.update_self, if_pos List.mem_cons_self]
      · rw [Function.update_of_ne hij, if_neg (by simp [hij, hmem])]

/-- A row of the product with the mask matrix: the sum of all, less the row's own
where it is left out. -/
theorem sum_range_getD (l : List K) : ∑ c ∈ Finset.range l.length, l.getD c 0 = l.sum := by
  rw [Finset.sum_range]
  have hget : ∀ c : Fin l.length, l.getD c 0 = l[c] := fun c ↦ List.getD_eq_getElem l 0 c.isLt
  rw [Finset.sum_congr rfl fun c _ ↦ hget c]
  exact Fin.sum_univ_getElem l

theorem matmul_map {α : Type} (leaveOneOut : Bool) (f : α → K) (idx : List α) :
    matmul (baselineMaskMatrix leaveOneOut) (idx.map f) =
      idx.map fun i ↦ (idx.map f).sum - if leaveOneOut then f i else 0 := by
  refine List.ext_getElem (by simp [matmul]) fun a ha ha' ↦ ?_
  have hidx : a < idx.length := by simpa using ha'
  have hlt : a < (idx.map f).length := by rwa [List.length_map]
  have hsum := sum_range_getD (idx.map f)
  simp only [matmul, List.getElem_map, List.getElem_range]
  cases leaveOneOut with
  | false => simpa [baselineMaskMatrix] using hsum
  | true =>
    have hown : ∑ c ∈ Finset.range (idx.map f).length,
        (if a = c then (1 : K) else 0) * (idx.map f).getD c 0 = f idx[a] := by
      simp only [ite_mul, one_mul, zero_mul]
      rw [Finset.sum_ite_eq, if_pos (Finset.mem_range.mpr hlt), List.getD_eq_getElem _ _ hlt,
        List.getElem_map]
    simp only [baselineMaskMatrix, if_true, sub_mul, one_mul, Finset.sum_sub_distrib]
    rw [hsum, hown]

end Tensors

namespace BaselineBatch

variable {κ K : Type} [LinearOrder κ] [Field K] [LinearOrder K] {b : ℕ} (batch : BaselineBatch κ K b)
  (leaveOneOut : Bool) (largest : K)

section Groups

def group (i : Fin b) : Finset (Fin b) := Finset.univ.filter fun j ↦ batch.prompts j = batch.prompts i

/-- What a row's entries are made of: the group's sum, less the row's own part where
it is left out. -/
def groupTotal (f : Fin b → K) (i : Fin b) : K :=
  ∑ j ∈ batch.group i, f j * batch.validMask j -
    if leaveOneOut then f i * batch.validMask i else 0

def rowStatistic (i : Fin b) : PromptStatistic K :=
  let stdRewards := batch.stdRewards.getD batch.rewards
  let valid := ∑ j ∈ batch.group i, batch.validMask j
  if valid ≤ 1 then ⟨batch.rewards i, 0⟩
  else
    let numValid := valid - if leaveOneOut then 1 else 0
    let mean f := batch.groupTotal leaveOneOut f i / numValid
    ⟨mean batch.rewards,
      squaredStd largest ((mean fun j ↦ stdRewards j ^ 2) - mean stdRewards ^ 2) numValid⟩

end Groups

variable {batch leaveOneOut largest}

omit [LinearOrder K] in
theorem mem_promptIdx {p : κ} {i : Fin b} : i ∈ batch.promptIdx p ↔ batch.prompts i = p := by
  rw [promptIdx, List.mem_filter, decide_eq_true_iff, and_iff_right (List.mem_finRange i)]

omit [LinearOrder K] in
theorem sum_promptIdx (f : Fin b → K) {p : κ} {i : Fin b} (h : batch.prompts i = p) :
    ((batch.promptIdx p).map f).sum = ∑ j ∈ batch.group i, f j := by
  have hnodup : (batch.promptIdx p).Nodup := (List.nodup_finRange b).filter _
  rw [← List.sum_toFinset f hnodup]
  refine Finset.sum_congr (Finset.ext fun j ↦ ?_) fun _ _ ↦ rfl
  rw [List.mem_toFinset, mem_promptIdx, group, Finset.mem_filter,
    and_iff_right (Finset.mem_univ j), h]

omit [LinearOrder K] in
theorem promptMean_eq {p : κ} {numValid : K} (f : Fin b → K) :
    batch.promptMean leaveOneOut (batch.promptIdx p) numValid f =
      (batch.promptIdx p).map fun i ↦ batch.groupTotal leaveOneOut f i / numValid := by
  rw [promptMean, matmul_map, List.map_map]
  refine List.map_congr_left fun i hi ↦ ?_
  rw [Function.comp_apply, sum_promptIdx _ (mem_promptIdx.mp hi), groupTotal]

def Unspread (batch : BaselineBatch κ K b) (s : Baselines K b) : Prop :=
  ∀ i, ∑ j ∈ batch.group i, batch.validMask j ≤ 1 → s.variance i = 0

theorem rowStatistic_of_few {i : Fin b} (h : ∑ j ∈ batch.group i, batch.validMask j ≤ 1) :
    batch.rowStatistic leaveOneOut largest i = ⟨batch.rewards i, 0⟩ := if_pos h

theorem promptStep_apply {s : Baselines K b} (hs : batch.Unspread s) (p : κ) (i : Fin b) :
    (batch.promptStep leaveOneOut largest s p).baseline i =
        (if batch.prompts i = p then (batch.rowStatistic leaveOneOut largest i).baseline
          else s.baseline i) ∧
      (batch.promptStep leaveOneOut largest s p).variance i =
        if batch.prompts i = p then (batch.rowStatistic leaveOneOut largest i).variance
          else s.variance i := by
  have hmem : i ∈ batch.promptIdx p ↔ batch.prompts i = p := mem_promptIdx
  by_cases hi : batch.prompts i = p
  · have hvalid : ((batch.promptIdx p).map batch.validMask).sum =
        ∑ j ∈ batch.group i, batch.validMask j := sum_promptIdx _ hi
    rw [if_pos hi, if_pos hi]
    by_cases hfew : ∑ j ∈ batch.group i, batch.validMask j ≤ 1
    · rw [rowStatistic_of_few hfew]
      simp only [promptStep, hvalid, if_pos hfew, writeRows_map, if_pos (hmem.mpr hi), hs i hfew,
        and_self]
    · simp only [promptStep, hvalid, if_neg hfew, promptMean_eq, List.zipWith_map,
        List.zipWith_self, writeRows_map, if_pos (hmem.mpr hi), rowStatistic, and_self]
  · rw [if_neg hi, if_neg hi]
    by_cases hfew : ((batch.promptIdx p).map batch.validMask).sum ≤ 1
    · simp only [promptStep, if_pos hfew, writeRows_map, if_neg (hmem.not.mpr hi), and_self]
    · simp only [promptStep, if_neg hfew, promptMean_eq, List.zipWith_map, List.zipWith_self,
        writeRows_map, if_neg (hmem.not.mpr hi), and_self]

theorem Unspread.step {s : Baselines K b} (hs : batch.Unspread s) (p : κ) :
    batch.Unspread (batch.promptStep leaveOneOut largest s p) := by
  intro i hfew
  rw [(promptStep_apply hs p i).2, rowStatistic_of_few hfew, hs i hfew, ite_self]

theorem foldl_promptStep (l : List κ) {s : Baselines K b} (hs : batch.Unspread s) (i : Fin b) :
    (l.foldl (batch.promptStep leaveOneOut largest) s).baseline i =
        (if batch.prompts i ∈ l then (batch.rowStatistic leaveOneOut largest i).baseline
          else s.baseline i) ∧
      (l.foldl (batch.promptStep leaveOneOut largest) s).variance i =
        if batch.prompts i ∈ l then (batch.rowStatistic leaveOneOut largest i).variance
          else s.variance i := by
  induction l generalizing s with
  | nil => exact ⟨rfl, rfl⟩
  | cons p l ih =>
    obtain ⟨hbaseline, hvariance⟩ := @promptStep_apply _ _ _ _ _ _ _ leaveOneOut largest _ hs p i
    obtain ⟨hbaseline', hvariance'⟩ := ih (hs.step p)
    rw [List.foldl_cons, hbaseline', hvariance', hbaseline, hvariance]
    by_cases hl : batch.prompts i ∈ l
    · simp only [if_pos hl, if_pos (List.mem_cons_of_mem p hl), and_self]
    · have hcons : batch.prompts i ∈ p :: l ↔ batch.prompts i = p := by
        rw [List.mem_cons, or_iff_left hl]
      simp only [if_neg hl, hcons, and_self]

theorem calculateBaselineAndStdPerPrompt_apply (i : Fin b) :
    (batch.calculateBaselineAndStdPerPrompt leaveOneOut largest).baseline i =
        (batch.rowStatistic leaveOneOut largest i).baseline ∧
      (batch.calculateBaselineAndStdPerPrompt leaveOneOut largest).variance i =
        (batch.rowStatistic leaveOneOut largest i).variance := by
  have hmem : batch.prompts i ∈ batch.uniquePrompts := by
    rw [uniquePrompts, List.mem_mergeSort, List.mem_dedup]
    exact List.mem_map_of_mem (List.mem_finRange i)
  have hrun := @foldl_promptStep _ _ _ _ _ _ batch leaveOneOut largest batch.uniquePrompts
    ⟨fun _ ↦ 0, fun _ ↦ 0⟩ (fun _ _ ↦ rfl) i
  rwa [if_pos hmem, if_pos hmem] at hrun

section Valid

def validGroup (batch : BaselineBatch κ K b) (i : Fin b) : Finset (Fin b) :=
  Finset.univ.filter fun j ↦ batch.prompts j = batch.prompts i ∧ batch.validMask j = 1

def peers (batch : BaselineBatch κ K b) (leaveOneOut : Bool) (i : Fin b) : Finset (Fin b) :=
  if leaveOneOut then (batch.validGroup i).erase i else batch.validGroup i

theorem sum_group_mul (f : Fin b → K) (i : Fin b) :
    ∑ j ∈ batch.group i, f j * batch.validMask j = ∑ j ∈ batch.validGroup i, f j := by
  rw [group, validGroup, Finset.sum_filter, Finset.sum_filter]
  refine Finset.sum_congr rfl fun j _ ↦ ?_
  rcases batch.binary j with hzero | hone
  · simp only [hzero, mul_zero, ite_self, zero_ne_one, and_false, if_false]
  · simp only [hone, mul_one, and_true]

theorem sum_validMask (i : Fin b) :
    ∑ j ∈ batch.group i, batch.validMask j = (batch.validGroup i).card := by
  have hsum := @sum_group_mul _ _ _ _ _ _ batch (fun _ ↦ 1) i
  simpa using hsum

theorem mem_validGroup {i : Fin b} (h : batch.validMask i = 1) : i ∈ batch.validGroup i :=
  Finset.mem_filter.mpr ⟨Finset.mem_univ i, rfl, h⟩

theorem groupTotal_eq (f : Fin b → K) {i : Fin b} (h : batch.validMask i = 1) :
    batch.groupTotal leaveOneOut f i = ∑ j ∈ batch.peers leaveOneOut i, f j := by
  rw [groupTotal, sum_group_mul, h, mul_one, peers]
  cases leaveOneOut with
  | false => exact sub_zero _
  | true => exact (Finset.sum_erase_eq_sub (mem_validGroup h)).symm

theorem card_peers {i : Fin b} (h : batch.validMask i = 1) :
    (batch.peers leaveOneOut i).card =
      (batch.validGroup i).card - if leaveOneOut then 1 else 0 := by
  rw [peers]
  cases leaveOneOut with
  | false => rfl
  | true => exact Finset.card_erase_of_mem (mem_validGroup h)

theorem cast_card_peers {i : Fin b} (h : batch.validMask i = 1) :
    ((batch.peers leaveOneOut i).card : K) =
      (batch.validGroup i).card - if leaveOneOut then 1 else 0 := by
  have hpos : 0 < (batch.validGroup i).card := Finset.card_pos.mpr ⟨i, mem_validGroup h⟩
  rw [card_peers h]
  split_ifs
  · rw [Nat.cast_sub hpos, Nat.cast_one]
  · rw [sub_zero, Nat.sub_zero]

/-- What `calculate_baseline_and_std_per_prompt` promises a row. -/
structure LeaveOneOut (batch : BaselineBatch κ K b) (leaveOneOut : Bool) (out : Baselines K b)
    (i : Fin b) : Prop where
  baseline : batch.validMask i = 1 → 2 ≤ (batch.validGroup i).card →
    out.baseline i = (∑ j ∈ batch.peers leaveOneOut i, batch.rewards j) /
      (batch.peers leaveOneOut i).card
  variance : batch.validMask i = 1 → 2 ≤ (batch.validGroup i).card →
    out.variance i = if (batch.peers leaveOneOut i).card = 1 then 0
      else unbiasedVariance (batch.peers leaveOneOut i) (batch.stdRewards.getD batch.rewards)
  ignored : (batch.validGroup i).card ≤ 1 → out.baseline i = batch.rewards i ∧ out.variance i = 0

theorem peers_nonempty {i : Fin b} (h : batch.validMask i = 1)
    (hcard : 2 ≤ (batch.validGroup i).card) : (batch.peers leaveOneOut i).Nonempty := by
  rw [← Finset.card_pos, card_peers h]
  split_ifs <;> omega

variable [IsStrictOrderedRing K]

theorem rowStatistic_of_many {i : Fin b} (h : batch.validMask i = 1)
    (hcard : 2 ≤ (batch.validGroup i).card) :
    batch.rowStatistic leaveOneOut largest i =
      ⟨(∑ j ∈ batch.peers leaveOneOut i, batch.rewards j) / (batch.peers leaveOneOut i).card,
        if (batch.peers leaveOneOut i).card = 1 then 0
        else unbiasedVariance (batch.peers leaveOneOut i) (batch.stdRewards.getD batch.rewards)⟩ := by
  have hmany : ¬ ∑ j ∈ batch.group i, batch.validMask j ≤ 1 := by
    rw [sum_validMask, not_le]
    exact_mod_cast hcard
  have hpeers := @peers_nonempty _ _ _ _ _ _ _ leaveOneOut _ h hcard
  have hnum : ∑ j ∈ batch.group i, batch.validMask j - (if leaveOneOut then 1 else 0) =
      ((batch.peers leaveOneOut i).card : K) := by
    rw [sum_validMask, cast_card_peers h]
  simp only [rowStatistic, if_neg hmany, hnum, groupTotal_eq _ h, squaredStd, Nat.cast_eq_one]
  congr 1
  by_cases hone : (batch.peers leaveOneOut i).card = 1
  · obtain ⟨j, hj⟩ := Finset.card_eq_one.mp hone
    rw [if_pos hone, if_pos hone, if_neg]
    simp [hj]
  · rw [if_neg hone, if_neg hone, moments_unbiased hpeers,
      max_eq_left (unbiasedVariance_nonneg hpeers _)]

theorem leaveOneOut_spec (i : Fin b) :
    batch.LeaveOneOut leaveOneOut (batch.calculateBaselineAndStdPerPrompt leaveOneOut largest) i := by
  obtain ⟨hbaseline, hvariance⟩ := @calculateBaselineAndStdPerPrompt_apply _ _ _ _ _ _ batch
    leaveOneOut largest i
  refine ⟨fun h hcard ↦ ?_, fun h hcard ↦ ?_, fun hfew ↦ ?_⟩
  · rw [hbaseline, rowStatistic_of_many h hcard]
  · rw [hvariance, rowStatistic_of_many h hcard]
  · rw [hbaseline, hvariance, rowStatistic_of_few]
    · exact ⟨rfl, rfl⟩
    · rw [sum_validMask]
      exact_mod_cast hfew

end Valid

section Order

def reorder (batch : BaselineBatch κ K b) (σ : Equiv.Perm (Fin b)) : BaselineBatch κ K b :=
  ⟨batch.prompts ∘ σ, batch.rewards ∘ σ, batch.validMask ∘ σ, batch.stdRewards.map (· ∘ σ),
    fun i ↦ batch.binary (σ i)⟩

omit [LinearOrder K] in
theorem sum_group_reorder (σ : Equiv.Perm (Fin b)) (f : Fin b → K) (i : Fin b) :
    ∑ j ∈ (batch.reorder σ).group i, f (σ j) = ∑ j ∈ batch.group (σ i), f j := by
  rw [group, group, Finset.sum_filter, Finset.sum_filter]
  exact Equiv.sum_comp σ fun j ↦ if batch.prompts j = batch.prompts (σ i) then f j else 0

theorem rowStatistic_reorder (σ : Equiv.Perm (Fin b)) (i : Fin b) :
    (batch.reorder σ).rowStatistic leaveOneOut largest i =
      batch.rowStatistic leaveOneOut largest (σ i) := by
  have hvalid : ∑ j ∈ (batch.reorder σ).group i, (batch.reorder σ).validMask j =
      ∑ j ∈ batch.group (σ i), batch.validMask j := sum_group_reorder σ batch.validMask i
  have htotal : ∀ f : Fin b → K, (batch.reorder σ).groupTotal leaveOneOut (f ∘ σ) i =
      batch.groupTotal leaveOneOut f (σ i) := fun f ↦ by
    have hsum := @sum_group_reorder _ _ _ _ _ batch σ (fun j ↦ f j * batch.validMask j) i
    rw [groupTotal, groupTotal, ← hsum]
    rfl
  have hstd : (batch.reorder σ).stdRewards.getD (batch.reorder σ).rewards =
      batch.stdRewards.getD batch.rewards ∘ σ := by
    rw [reorder]
    cases batch.stdRewards <;> rfl
  have hrewards := htotal batch.rewards
  have hfirst := htotal (batch.stdRewards.getD batch.rewards)
  have hsecond := htotal fun j ↦ batch.stdRewards.getD batch.rewards j ^ 2
  simp only [rowStatistic, hvalid, hstd]
  rw [← hrewards, ← hfirst, ← hsecond]
  rfl

/-- Two batches that differ in the rewards of other prompts only. -/
structure SameGroup (batch batch' : BaselineBatch κ K b) (i : Fin b) : Prop where
  prompts : batch.prompts = batch'.prompts
  validMask : batch.validMask = batch'.validMask
  rewards : ∀ j ∈ batch.group i, batch.rewards j = batch'.rewards j
  stdRewards : ∀ j ∈ batch.group i,
    batch.stdRewards.getD batch.rewards j = batch'.stdRewards.getD batch'.rewards j

theorem SameGroup.rowStatistic {batch' : BaselineBatch κ K b} {i : Fin b} (h : SameGroup batch batch' i) :
    batch.rowStatistic leaveOneOut largest i = batch'.rowStatistic leaveOneOut largest i := by
  have hgroup : batch.group i = batch'.group i := by rw [group, h.prompts, group]
  have hi : i ∈ batch.group i := Finset.mem_filter.mpr ⟨Finset.mem_univ i, rfl⟩
  have htotal : ∀ {f f' : Fin b → K}, (∀ j ∈ batch.group i, f j = f' j) →
      batch.groupTotal leaveOneOut f i = batch'.groupTotal leaveOneOut f' i := fun {f f'} hf ↦ by
    rw [groupTotal, groupTotal, ← hgroup, ← h.validMask, hf i hi]
    congr 1
    exact Finset.sum_congr rfl fun j hj ↦ by rw [hf j hj]
  have hsquare := htotal fun j hj ↦ congrArg (· ^ 2) (h.stdRewards j hj)
  simp only [BaselineBatch.rowStatistic]
  rw [htotal h.rewards, htotal h.stdRewards, hsquare, ← hgroup, ← h.validMask, h.rewards i hi]

end Order

section AllValid

variable {ρ : Type} (prompt : ρ → κ) (reward stdReward : ρ → K) (rows : List ρ)

def ofRows : BaselineBatch κ K rows.length :=
  ⟨fun i ↦ prompt rows[i], fun i ↦ reward rows[i], fun _ ↦ 1, some fun i ↦ stdReward rows[i],
    fun _ ↦ .inr rfl⟩

variable {prompt reward stdReward rows}

omit [LinearOrder K] in
theorem sum_group_ofRows (f : ρ → K) (i : Fin rows.length) :
    ∑ j ∈ (ofRows prompt reward stdReward rows).group i, f rows[j] =
      ((promptGroup prompt rows rows[i]).map f).sum := by
  have hterm : ((promptGroup prompt rows rows[i]).map f).sum =
      (rows.map fun row ↦ if prompt row = prompt rows[i] then f row else 0).sum := by
    rw [promptGroup, sum_map_filter]
  rw [hterm, group, Finset.sum_filter]
  exact Fin.sum_univ_fun_getElem rows fun row ↦ if prompt row = prompt rows[i] then f row else 0

theorem calculateBaselineAndStdPerPrompt_ofRows [IsStrictOrderedRing K] (i : Fin rows.length) :
    let out := (ofRows prompt reward stdReward rows).calculateBaselineAndStdPerPrompt leaveOneOut
      largest
    promptStatistic prompt reward stdReward leaveOneOut rows rows[i] =
      ⟨out.baseline i, out.variance i⟩ := by
  intro out
  set batch := ofRows prompt reward stdReward rows with hbatch
  obtain ⟨hbaseline, hvariance⟩ := @calculateBaselineAndStdPerPrompt_apply _ _ _ _ _ _ batch
    leaveOneOut largest i
  rw [hbaseline, hvariance]
  set members := promptGroup prompt rows rows[i] with hmembers
  have hsum : ∀ f : ρ → K, ∑ j ∈ batch.group i, f rows[j] = (members.map f).sum := fun f ↦
    sum_group_ofRows f i
  have hvalid : ∑ j ∈ batch.group i, batch.validMask j = members.length := by
    have hone := hsum fun _ ↦ 1
    rwa [List.map_const', List.sum_replicate, nsmul_one] at hone
  have hcard : (batch.validGroup i).card = members.length := by
    rw [sum_validMask] at hvalid
    exact_mod_cast hvalid
  by_cases hfew : members.length ≤ 1
  · rw [rowStatistic_of_few (by rw [hvalid]; exact_mod_cast hfew), promptStatistic]
    simp only [← hmembers, if_pos hfew]
    rfl
  · have hmany : 2 ≤ (batch.validGroup i).card := by omega
    have hvalidRow : batch.validMask i = 1 := rfl
    have htotal : ∀ f : ρ → K, maskedSum leaveOneOut f members rows[i] =
        ∑ j ∈ batch.peers leaveOneOut i, f rows[j] := fun f ↦ by
      have hgroup := @groupTotal_eq _ _ _ _ _ _ _ leaveOneOut (fun j ↦ f rows[j]) _ hvalidRow
      rw [← hgroup, groupTotal, maskedSum, ← hsum]
      simp only [mul_one, hbatch, ofRows]
    have hpeers := @peers_nonempty _ _ _ _ _ _ _ leaveOneOut _ hvalidRow hmany
    have hnum : (members.length : K) - (if leaveOneOut then 1 else 0) =
        (batch.peers leaveOneOut i).card := by
      rw [cast_card_peers hvalidRow, hcard]
    rw [rowStatistic_of_many hvalidRow hmany, promptStatistic]
    simp only [← hmembers, if_neg hfew, htotal, hnum, Nat.cast_eq_one]
    rw [moments_unbiased hpeers fun j ↦ stdReward rows[j]]
    rfl

end AllValid

/-- Each valid row's baseline and spread are those of the other valid rows with its
prompt, in whatever order the rows stand and whatever other prompts' rewards are. -/
theorem calculateBaselineAndStdPerPrompt_leaveOneOut [IsStrictOrderedRing K]
    (batch : BaselineBatch κ K b) (leaveOneOut : Bool) (largest : K) :
    let out := batch.calculateBaselineAndStdPerPrompt leaveOneOut largest
    (∀ i, batch.LeaveOneOut leaveOneOut out i) ∧
      (∀ σ : Equiv.Perm (Fin b),
        (batch.reorder σ).calculateBaselineAndStdPerPrompt leaveOneOut largest =
          ⟨out.baseline ∘ σ, out.variance ∘ σ⟩) ∧
      ∀ (batch' : BaselineBatch κ K b) (i : Fin b), SameGroup batch batch' i →
        let out' := batch'.calculateBaselineAndStdPerPrompt leaveOneOut largest
        out.baseline i = out'.baseline i ∧ out.variance i = out'.variance i := by
  intro out
  have hout : ∀ (batch : BaselineBatch κ K b) (i : Fin b), _ := fun batch i ↦
    @calculateBaselineAndStdPerPrompt_apply _ _ _ _ _ _ batch leaveOneOut largest i
  refine ⟨leaveOneOut_spec, fun σ ↦ ?_, fun batch' i h ↦ ?_⟩
  · ext i
    · rw [(hout (batch.reorder σ) i).1, rowStatistic_reorder, ← (hout batch (σ i)).1]
      rfl
    · rw [(hout (batch.reorder σ) i).2, rowStatistic_reorder, ← (hout batch (σ i)).2]
      rfl
  · intro out'
    rw [(hout batch i).1, (hout batch i).2, (hout batch' i).1, (hout batch' i).2, h.rowStatistic]
    exact ⟨rfl, rfl⟩

theorem scatteredMask_binary (i : Fin 5) :
    (if i = 3 then (0 : ℚ) else 1) = 0 ∨ (if i = 3 then (0 : ℚ) else 1) = 1 := by
  split_ifs
  · exact .inl rfl
  · exact .inr rfl

/-- A prompt with three valid rows apart from each other and a prompt with one. -/
def scattered : BaselineBatch ℕ ℚ 5 :=
  ⟨fun i ↦ if i = 1 then 9 else 7, fun i ↦ i.val ^ 2, fun i ↦ if i = 3 then 0 else 1, none,
    scatteredMask_binary⟩

theorem calculateBaselineAndStdPerPrompt_scattered :
    let out := scattered.calculateBaselineAndStdPerPrompt true 1000
    out.baseline 0 = 10 ∧ out.baseline 1 = 1 ∧ out.variance 0 = 72 := by
  obtain ⟨hrows, -, -⟩ := calculateBaselineAndStdPerPrompt_leaveOneOut scattered true 1000
  have hfirst := (hrows 0).baseline (by decide) (by decide)
  have hspread := (hrows 0).variance (by decide) (by decide)
  have hsecond := ((hrows 1).ignored (by decide)).1
  refine ⟨hfirst.trans ?_, hsecond, hspread.trans ?_⟩ <;> decide +kernel

end BaselineBatch

end NemoRL.Algorithms
