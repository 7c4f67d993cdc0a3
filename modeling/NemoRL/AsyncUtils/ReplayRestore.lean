import Mathlib
import NemoRL.AsyncUtils.ReplayRows

namespace NemoRL.AsyncUtils.ReplayBufferImpl

open Foundations.Positions

section Truncation

/-- How often a value is among the first entries of a sorted list: what room the
smaller ones leave it. -/
theorem count_take_of_pairwise {α : Type*} [LinearOrder α] {l : List α}
    (h : l.Pairwise (· ≤ ·)) (m : ℕ) (t : α) :
    (l.take m).count t = min (l.count t) (m - l.countP (· < t)) := by
  induction l generalizing m with
  | nil => rw [List.take_nil, List.count_nil, Nat.zero_min]
  | cons a l ih =>
    obtain ⟨hle, hl⟩ := List.pairwise_cons.mp h
    cases m with
    | zero => rw [List.take_zero, List.count_nil, Nat.zero_sub, Nat.min_zero]
    | succ m =>
      rw [List.take_succ_cons, List.count_cons, List.count_cons, List.countP_cons, ih hl]
      rcases lt_trichotomy a t with hlt | rfl | hgt
      · have hne : (a == t) = false := beq_eq_false_iff_ne.mpr hlt.ne
        simp only [hne, hlt, decide_true, Bool.false_eq_true, if_false, if_true]
        omega
      · have hnone : l.countP (· < a) = 0 := List.countP_eq_zero.mpr fun b hb hlt ↦
          absurd (of_decide_eq_true hlt) (not_lt.mpr (hle b hb))
        simp only [hnone, beq_self_eq_true, lt_irrefl, decide_false, Bool.false_eq_true, if_false,
          if_true]
        omega
      · have hnone : l.count t = 0 := List.count_eq_zero.mpr fun hmem ↦
          absurd (hle t hmem) (not_le.mpr hgt)
        have hne : (a == t) = false := beq_eq_false_iff_ne.mpr hgt.ne'
        simp only [hnone, hne, Bool.false_eq_true, if_false, Nat.zero_min, Nat.add_zero]

instance (targets : List ℕ) : Std.Total (Prior targets) where
  total i j := by
    simp only [Prior]
    omega

instance (targets : List ℕ) : IsTrans ℕ (Prior targets) where
  trans i j k := by
    simp only [Prior]
    omega

variable {τ : Type} {b : ReplayBufferImpl τ} {R : List (ReplayRow τ)}

theorem Holds.truncateToMaxSize_count (h : b.Holds R) (step : ℕ) :
    ∃ R', (b.truncateToMaxSize (some step)).Holds R' ∧ R'.Sublist R ∧ R'.length ≤ b.maxSize ∧
      ∀ t, (R'.map ReplayRow.target).count t = min ((R.map ReplayRow.target).count t)
        (b.maxSize - (R.map ReplayRow.target).countP (· < t)) := by
  obtain ⟨R', hholds, hsub, hlen⟩ := h.truncateToMaxSize (some step)
  refine ⟨R', hholds, hsub, hlen, fun t ↦ ?_⟩
  have htargets := hholds.targets
  unfold ReplayBufferImpl.truncateToMaxSize at htargets
  rw [h.length] at htargets
  simp only at htargets
  split_ifs at htargets with hsize
  · -- nothing is cut off, and all of the target's rows find room
    rw [← htargets, h.targets]
    have hroom : (R.map ReplayRow.target).count t + (R.map ReplayRow.target).countP (· < t) ≤
        R.length := by
      have hsplit := List.length_eq_countP_add_countP (l := R.map ReplayRow.target)
        fun a ↦ decide (a < t)
      rw [List.length_map] at hsplit
      have hle : (R.map ReplayRow.target).count t ≤
          (R.map ReplayRow.target).countP fun a ↦ decide ¬ decide (a < t) = true :=
        List.countP_mono_left fun a _ ha ↦ by
          obtain rfl := eq_of_beq ha
          simp
      omega
    omega
  · let order := (List.range R.length).insertionSort (Prior b.targetWeightVersions)
    let target : ℕ → ℕ := fun i ↦ (b.targetWeightVersions[i]?).getD 0
    have hperm : order.Perm (List.range R.length) := List.perm_insertionSort _ _
    have hsorted : (order.map target).Pairwise (· ≤ ·) := by
      rw [List.pairwise_map]
      refine (List.pairwise_insertionSort (Prior b.targetWeightVersions) _).imp ?_
      rintro i j (hlt | ⟨heq, -⟩)
      · exact hlt.le
      · exact heq.le
    have htargetsPerm : (order.map target).Perm (R.map ReplayRow.target) := by
      refine (hperm.map target).trans (.of_eq ?_)
      refine List.ext_getElem? fun i ↦ ?_
      rw [List.getElem?_map, ← h.targets]
      rcases Nat.lt_or_ge i R.length with hi | hi
      · have hlt : i < b.targetWeightVersions.length := by
          rw [h.targets, List.length_map]
          exact hi
        rw [List.getElem?_range hi, Option.map_some, List.getElem?_eq_getElem hlt]
        show some ((b.targetWeightVersions[i]?).getD 0) = _
        rw [List.getElem?_eq_getElem hlt, Option.getD_some]
      · rw [List.getElem?_eq_none (by rw [List.length_range]; exact hi), Option.map_none,
          List.getElem?_eq_none (by rw [h.targets, List.length_map]; exact hi)]
    have hcut := List.perm_insertionSort (· ≤ ·) (order.take b.maxSize)
    have hentries : (entriesAt b.targetWeightVersions
        ((order.take b.maxSize).insertionSort (· ≤ ·))).Perm ((order.map target).take b.maxSize) := by
      refine (hcut.filterMap (b.targetWeightVersions[·]?)).trans (.of_eq ?_)
      rw [← List.map_take, ← List.filterMap_eq_map]
      refine List.filterMap_congr fun i hi ↦ ?_
      have hlt : i < b.targetWeightVersions.length := by
        rw [h.targets, List.length_map]
        exact List.mem_range.mp (hperm.mem_iff.mp (List.mem_of_mem_take hi))
      show b.targetWeightVersions[i]? = some ((b.targetWeightVersions[i]?).getD 0)
      rw [List.getElem?_eq_getElem hlt, Option.getD_some]
    have hkept : (R'.map ReplayRow.target).Perm ((order.map target).take b.maxSize) := by
      rw [← htargets]
      exact hentries
    rw [hkept.count_eq, count_take_of_pairwise hsorted, htargetsPerm.count_eq,
      htargetsPerm.countP_eq]

end Truncation

section Restore

variable {τ : Type} {b b' : ReplayBufferImpl τ} {R : List (ReplayRow τ)} {num step age : ℕ}

/-- The rows within the age window of a target that is still to be trained. -/
def currentRows (R : List (ReplayRow τ)) (step age : ℕ) : List (ReplayRow τ) :=
  (R.filter fun r ↦ isValidForTarget r.version r.target (some age)).filter
    fun r ↦ decide (step ≤ r.target)

def completeRows (R : List (ReplayRow τ)) (num : ℕ) : List (ReplayRow τ) :=
  R.filter fun r ↦ decide (num ≤ (R.map ReplayRow.target).count r.target)

theorem count_filter_target (p : ℕ → Bool) (R : List (ReplayRow τ)) {t : ℕ} (ht : p t = true) :
    ((R.filter fun r ↦ p r.target).map ReplayRow.target).count t =
      (R.map ReplayRow.target).count t := by
  have hmap : (R.filter fun r ↦ p r.target).map ReplayRow.target =
      (R.map ReplayRow.target).filter p := by
    rw [List.filter_map]
    rfl
  rw [hmap, List.count_filter ht]

theorem le_count_completeRows {r : ReplayRow τ} (h : r ∈ completeRows R num) :
    num ≤ ((completeRows R num).map ReplayRow.target).count r.target := by
  have hcomplete := (List.mem_filter.mp h).2
  rw [completeRows, count_filter_target
    (fun t ↦ decide (num ≤ (R.map ReplayRow.target).count t)) R hcomplete]
  exact of_decide_eq_true hcomplete

theorem mem_currentRows {r : ReplayRow τ} (h : r ∈ currentRows R step age) :
    step ≤ r.target ∧ r.target - age ≤ r.version ∧ r.version ≤ r.target := by
  obtain ⟨hvalid, htarget⟩ := List.mem_filter.mp h
  exact ⟨of_decide_eq_true htarget, of_decide_eq_true (List.mem_filter.mp hvalid).2⟩

theorem maxSize_prepareForTrainingStep (b : ReplayBufferImpl τ) (step num : ℕ) :
    (b.prepareForTrainingStep step num).maxSize = b.maxSize := by
  simp only [ReplayBufferImpl.prepareForTrainingStep]
  split_ifs <;> rfl

theorem Holds.keepComplete (h : b.Holds R) :
    (b.keepIndices (b.completeIndices num)).Holds (completeRows R num) := by
  have hkept := h.filterTargets fun t ↦ decide (num ≤ b.targetWeightVersions.count t)
  have hrows : completeRows R num =
      R.filter fun r ↦ decide (num ≤ b.targetWeightVersions.count r.target) := by
    rw [h.targets]
    rfl
  rw [hrows]
  exact hkept

theorem Holds.prepareForTrainingStep_rows (h : b.Holds R) (step num : ℕ) :
    (b.prepareForTrainingStep step num).Holds
      (if b.dropIncompleteTargetsOnRestore then
        completeRows (R.filter fun r ↦ decide (step ≤ r.target)) num
      else R.filter fun r ↦ decide (step ≤ r.target)) := by
  have hpast := h.filterTargets fun t ↦ decide (step ≤ t)
  unfold ReplayBufferImpl.prepareForTrainingStep
  simp only
  by_cases hdrop : b.dropIncompleteTargetsOnRestore = true
  · have hkept : (b.keepIndices (indicesWhere (fun t ↦ decide (step ≤ t))
        b.targetWeightVersions)).dropIncompleteTargetsOnRestore = true := hdrop
    rw [if_pos hkept, if_pos hdrop]
    exact hpast.keepComplete.withLast _
  · have hkept : ¬ (b.keepIndices (indicesWhere (fun t ↦ decide (step ≤ t))
        b.targetWeightVersions)).dropIncompleteTargetsOnRestore = true := hdrop
    rw [if_neg hkept, if_neg hdrop]
    exact hpast.withLast _

structure Restored (b : ReplayBufferImpl τ) (saved : List (ReplayRow τ)) (num step age : ℕ)
    (b' : ReplayBufferImpl τ) (R : List (ReplayRow τ)) : Prop where
  holds : b'.Holds R
  sublist : R.Sublist saved
  size : R.length ≤ b.maxSize
  window : ∀ r ∈ R, step ≤ r.target ∧ r.target - age ≤ r.version ∧ r.version ≤ r.target
  last : b'.lastTargetWeightAlreadyGenerated = (step : ℤ) - 1
  complete : b.dropIncompleteTargetsOnRestore = true →
    ∀ r ∈ R, num ≤ (R.map ReplayRow.target).count r.target

def preparedRows (b : ReplayBufferImpl τ) (saved : List (ReplayRow τ)) (num step age : ℕ) :
    List (ReplayRow τ) :=
  if b.dropIncompleteTargetsOnRestore then completeRows (currentRows saved step age) num
  else currentRows saved step age

theorem loadStateDict_rows {ts : List τ} {vs gs : List ℕ} {last : ℤ}
    (h : b.loadStateDict ⟨some ts, some vs, some gs, some last⟩ (some num) (some step) (some age) =
      .ok b') :
    b'.lastTargetWeightAlreadyGenerated = (step : ℤ) - 1 ∧
    ∃ R, b'.Holds R ∧ R.Sublist (preparedRows b (ofLists ts vs gs) num step age) ∧
      R.length ≤ b.maxSize ∧ ∀ t, (R.map ReplayRow.target).count t =
        min (((preparedRows b (ofLists ts vs gs) num step age).map ReplayRow.target).count t)
          (b.maxSize -
            ((preparedRows b (ofLists ts vs gs) num step age).map ReplayRow.target).countP
              (· < t)) := by
  unfold ReplayBufferImpl.loadStateDict at h
  simp only at h
  split_ifs at h with hlen
  obtain rfl := Except.ok.inj h
  obtain ⟨h₁, h₂, h₃⟩ := map_ofLists hlen
  have hloaded : { b with
      trajectories := ts
      trajectoryVersions := vs
      targetWeightVersions := gs
      lastTargetWeightAlreadyGenerated := last }.Holds (ofLists ts vs gs) := ⟨h₁, h₂, h₃⟩
  have hprepared := (hloaded.removeStaleTrajectories age).prepareForTrainingStep_rows step num
  obtain ⟨R, hholds, hsub, hsize, hcount⟩ := hprepared.truncateToMaxSize_count step
  rw [maxSize_prepareForTrainingStep] at hsize hcount
  refine ⟨?_, R, hholds, hsub, hsize, hcount⟩
  simp only [ReplayBufferImpl.truncateToMaxSize]
  split_ifs <;> rfl

/-- A restore keeps full batches where the rows before each complete target leave
the size of the buffer no room for it, or room for a batch. -/
theorem loadStateDict_restored_iff {ts : List τ} {vs gs : List ℕ} {last : ℤ}
    (hlen : ts.length = vs.length ∧ vs.length = gs.length) :
    ∃ b', b.loadStateDict ⟨some ts, some vs, some gs, some last⟩ (some num) (some step)
        (some age) = .ok b' ∧
      ((∃ R, Restored b (ofLists ts vs gs) num step age b' R) ↔
        (b.dropIncompleteTargetsOnRestore = true →
          ∀ r ∈ completeRows (currentRows (ofLists ts vs gs) step age) num,
            let earlier := ((completeRows (currentRows (ofLists ts vs gs) step age) num).map
              ReplayRow.target).countP (· < r.target)
            b.maxSize ≤ earlier ∨ earlier + num ≤ b.maxSize)) := by
  have hload : ∃ b', b.loadStateDict ⟨some ts, some vs, some gs, some last⟩ (some num)
      (some step) (some age) = .ok b' := by
    unfold ReplayBufferImpl.loadStateDict
    simp only [if_pos hlen]
    exact ⟨_, rfl⟩
  obtain ⟨b', hb'⟩ := hload
  obtain ⟨hlast, R, hholds, hsub, hsize, hcount⟩ := loadStateDict_rows hb'
  refine ⟨b', hb', ?_⟩
  have hcurrent : ∀ r ∈ R, r ∈ currentRows (ofLists ts vs gs) step age := by
    intro r hr
    have hprepared := hsub.subset hr
    rw [preparedRows] at hprepared
    split_ifs at hprepared
    · exact List.mem_of_mem_filter hprepared
    · exact hprepared
  have hsaved : R.Sublist (ofLists ts vs gs) := by
    refine hsub.trans ?_
    rw [preparedRows]
    split_ifs
    · exact List.filter_sublist.trans (List.filter_sublist.trans List.filter_sublist)
    · exact List.filter_sublist.trans List.filter_sublist
  have hcomplete : (∃ R, Restored b (ofLists ts vs gs) num step age b' R) ↔
      (b.dropIncompleteTargetsOnRestore = true →
        ∀ r ∈ R, num ≤ (R.map ReplayRow.target).count r.target) := by
    constructor
    · rintro ⟨R', hrestored⟩ hdrop r hr
      have htargets : R'.map ReplayRow.target = R.map ReplayRow.target :=
        hrestored.holds.targets.symm.trans hholds.targets
      have hmem : r.target ∈ R'.map ReplayRow.target :=
        htargets ▸ List.mem_map.mpr ⟨r, hr, rfl⟩
      obtain ⟨r', hr', htarget⟩ := List.mem_map.mp hmem
      have hle := hrestored.complete hdrop r' hr'
      rw [htarget, htargets] at hle
      exact hle
    · intro hfull
      exact ⟨R, hholds, hsaved, hsize, fun r hr ↦ mem_currentRows (hcurrent r hr), hlast, hfull⟩
  rw [hcomplete]
  refine imp_congr_right fun hdrop ↦ ?_
  rw [preparedRows, if_pos hdrop] at hcount hsub
  constructor
  · intro hfull r hr
    have hkept := hcount r.target
    have hall := le_count_completeRows hr
    by_cases hmem : r.target ∈ R.map ReplayRow.target
    · obtain ⟨r', hr', htarget⟩ := List.mem_map.mp hmem
      have hle := hfull r' hr'
      rw [htarget] at hle
      have hpos := List.count_pos_iff.mpr hmem
      omega
    · rw [List.count_eq_zero.mpr hmem] at hkept
      have hpos : 0 < ((completeRows (currentRows (ofLists ts vs gs) step age) num).map
          ReplayRow.target).count r.target :=
        List.count_pos_iff.mpr (List.mem_map.mpr ⟨r, hr, rfl⟩)
      omega
  · intro hroom r hr
    have hkept := hcount r.target
    have hall := le_count_completeRows (hsub.subset hr)
    have hpos : 0 < (R.map ReplayRow.target).count r.target :=
      List.count_pos_iff.mpr (List.mem_map.mpr ⟨r, hr, rfl⟩)
    have hchoice := hroom r (hsub.subset hr)
    simp only at hchoice
    omega

def threeRowBuffer : ReplayBufferImpl ℕ := .empty 3 true (by decide)

/-- Two rows for step 5 and two for step 6: one of the latter is cut off. -/
theorem threeRowBuffer_not_restored :
    ∃ b', threeRowBuffer.loadStateDict ⟨some [10, 11, 12, 13], some [5, 5, 5, 5],
        some [5, 5, 6, 6], some 6⟩ (some 2) (some 5) (some 1) = .ok b' ∧
      b'.targetWeightVersions = [5, 5, 6] ∧
      ¬ ∃ R, Restored threeRowBuffer (ofLists [10, 11, 12, 13] [5, 5, 5, 5] [5, 5, 6, 6]) 2 5 1
        b' R := by
  refine ⟨⟨3, true, [10, 11, 12], [5, 5, 5], [5, 5, 6], 4, by decide⟩, ?_, rfl, ?_⟩
  · simp only [loadStateDict]
    rfl
  · rintro ⟨R, hrestored⟩
    have htargets : [5, 5, 6] = R.map ReplayRow.target := hrestored.holds.targets
    have hmem : 6 ∈ R.map ReplayRow.target := htargets ▸ by decide
    obtain ⟨r, hr, htarget⟩ := List.mem_map.mp hmem
    have hle := hrestored.complete rfl r hr
    rw [htarget, ← htargets] at hle
    exact absurd hle (by decide)

theorem loadStateDict_restored_iff_three :
    ∃ b', threeRowBuffer.loadStateDict ⟨some [10, 11, 12, 13], some [5, 5, 5, 5],
        some [5, 5, 6, 6], some 6⟩ (some 2) (some 5) (some 1) = .ok b' ∧
      ((∃ R, Restored threeRowBuffer (ofLists [10, 11, 12, 13] [5, 5, 5, 5] [5, 5, 6, 6]) 2 5 1
        b' R) ↔
        (threeRowBuffer.dropIncompleteTargetsOnRestore = true →
          ∀ r ∈ completeRows (currentRows (ofLists [10, 11, 12, 13] [5, 5, 5, 5] [5, 5, 6, 6]) 5 1)
            2, let earlier := ((completeRows (currentRows
                (ofLists [10, 11, 12, 13] [5, 5, 5, 5] [5, 5, 6, 6]) 5 1) 2).map
                  ReplayRow.target).countP (· < r.target)
              threeRowBuffer.maxSize ≤ earlier ∨ earlier + 2 ≤ threeRowBuffer.maxSize)) :=
  loadStateDict_restored_iff (by decide)

end Restore

end NemoRL.AsyncUtils.ReplayBufferImpl
