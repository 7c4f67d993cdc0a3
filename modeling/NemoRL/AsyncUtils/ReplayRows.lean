import Mathlib
import NemoRL.AsyncUtils.ReplayBuffer

namespace NemoRL.AsyncUtils

open Foundations.Positions

/-- One stored group with its generation version and its target. -/
structure ReplayRow (τ : Type) where
  trajectory : τ
  version : ℕ
  target : ℕ
  deriving DecidableEq

namespace ReplayBufferImpl

variable {τ : Type} {b b' : ReplayBufferImpl τ} {R : List (ReplayRow τ)}

/-- The three lists describe these rows, in this order. -/
structure Holds (b : ReplayBufferImpl τ) (R : List (ReplayRow τ)) : Prop where
  trajectories : b.trajectories = R.map ReplayRow.trajectory
  versions : b.trajectoryVersions = R.map ReplayRow.version
  targets : b.targetWeightVersions = R.map ReplayRow.target

theorem Holds.lengths (h : b.Holds R) : b.trajectories.length = b.trajectoryVersions.length ∧
    b.trajectoryVersions.length = b.targetWeightVersions.length := by
  simp [h.trajectories, h.versions, h.targets]

theorem Holds.length (h : b.Holds R) : b.trajectories.length = R.length := by
  simp [h.trajectories]

theorem Holds.removeIndices (h : b.Holds R) (idxs : List ℕ) :
    (b.removeIndices idxs).Holds (dropAll R idxs) where
  trajectories := by simp only [ReplayBufferImpl.removeIndices, h.trajectories, map_dropAll]
  versions := by simp only [ReplayBufferImpl.removeIndices, h.versions, map_dropAll]
  targets := by simp only [ReplayBufferImpl.removeIndices, h.targets, map_dropAll]

theorem Holds.keepIndices (h : b.Holds R) (idxs : List ℕ) :
    (b.keepIndices idxs).Holds (entriesAt R idxs) where
  trajectories := by simp only [ReplayBufferImpl.keepIndices, h.trajectories, entriesAt_map]
  versions := by simp only [ReplayBufferImpl.keepIndices, h.versions, entriesAt_map]
  targets := by simp only [ReplayBufferImpl.keepIndices, h.targets, entriesAt_map]

theorem Holds.withLast (h : b.Holds R) (last : ℤ) :
    { b with lastTargetWeightAlreadyGenerated := last }.Holds R :=
  ⟨h.trajectories, h.versions, h.targets⟩

theorem Holds.add {b : ReplayBufferImpl τ} (h : b.Holds R) (t : τ) (v g : ℕ) :
    (b.add t v g = (b, .full) ∧ b.maxSize ≤ R.length) ∨
      ∃ b', b.add t v g = (b', .success) ∧ b'.Holds (R ++ [⟨t, v, g⟩]) := by
  unfold ReplayBufferImpl.add
  split_ifs with hfull
  · exact .inl ⟨rfl, h.length ▸ hfull⟩
  · exact .inr ⟨_, rfl, by simp [h.trajectories], by simp [h.versions], by simp [h.targets]⟩

def usable (minValidVersion currentWeightVersion : ℕ) (r : ReplayRow τ) : Bool :=
  decide (minValidVersion ≤ r.version ∧ r.version ≤ currentWeightVersion) &&
    decide (r.target = currentWeightVersion)

theorem Holds.intendedIndices (h : b.Holds R) (lo v : ℕ) :
    b.intendedIndices lo v =
      (indicesWhere (fun r ↦ decide (lo ≤ r.version ∧ r.version ≤ v)) R,
        indicesWhere (usable lo v) R) := by
  have hvalid : indicesWhere (fun w ↦ decide (lo ≤ w ∧ w ≤ v)) b.trajectoryVersions =
      indicesWhere (fun r : ReplayRow τ ↦ decide (lo ≤ r.version ∧ r.version ≤ v)) R := by
    rw [h.versions, indicesWhere_map]
  simp only [ReplayBufferImpl.intendedIndices, hvalid]
  congr 1
  have hfilter := filter_indicesWhere
    (fun r : ReplayRow τ ↦ decide (lo ≤ r.version ∧ r.version ≤ v))
    (fun r ↦ decide (r.target = v)) R
  rw [show usable lo v = fun r : ReplayRow τ ↦ decide (lo ≤ r.version ∧ r.version ≤ v) &&
    decide (r.target = v) from rfl, ← hfilter]
  refine List.filter_congr fun i _ ↦ ?_
  rw [h.targets, List.getElem?_map]
  cases R[i]? <;> rfl

/-- What a call of `sample` hands out, with the rows it leaves behind. -/
inductive Samples (R : List (ReplayRow τ)) (n lo v : ℕ) :
    SampleResult τ → List (ReplayRow τ) → Prop
  | insufficient : Samples R n lo v .insufficient (R.filter fun r ↦ decide (lo ≤ r.version))
  | zeroDivision : n = 0 →
      Samples R n lo v .zeroDivision (R.filter fun r ↦ decide (lo ≤ r.version))
  | data (chosen rest : List (ReplayRow τ)) (age : ℚ) : chosen.length = n →
      chosen = (R.filter (usable lo v)).take n → rest.Sublist R →
      (R.filter fun r ↦ decide (lo ≤ r.version)).Perm (chosen ++ rest) →
      Samples R n lo v (.data (chosen.map ReplayRow.trajectory) age) rest

theorem Holds.takeIntended (h : b.Holds R) (n lo v : ℕ) :
    (b.takeIntended n lo v = (b, .insufficient)) ∨
    (n = 0 ∧ b.takeIntended n lo v = (b, .zeroDivision)) ∨
    ∃ b' chosen rest age, b.takeIntended n lo v =
        (b', .data (chosen.map ReplayRow.trajectory) age) ∧ b'.Holds rest ∧
      chosen.length = n ∧ chosen = (R.filter (usable lo v)).take n ∧ rest.Sublist R ∧
      R.Perm (chosen ++ rest) ∧ b'.maxSize = b.maxSize := by
  have hlt : ∀ i ∈ indicesWhere (usable lo v) R, i < R.length := fun i hi ↦
    lt_length_of_mem_indicesWhere hi
  have hchosen : entriesAt R ((indicesWhere (usable lo v) R).take n) =
      (R.filter (usable lo v)).take n := by
    rw [entriesAt_take hlt, entriesAt_indicesWhere_eq]
  have hlen : (indicesWhere (usable lo v) R).length = (R.filter (usable lo v)).length := by
    rw [length_indicesWhere, List.countP_eq_length_filter]
  unfold ReplayBufferImpl.takeIntended
  rw [h.intendedIndices]
  simp only [h.versions, h.trajectories, entriesAt_map, hchosen]
  split_ifs with hvalid hfew hzero
  · exact .inl rfl
  · exact .inl rfl
  · refine .inr (.inl ⟨?_, rfl⟩)
    have hsize := congrArg List.length hzero
    simp only [List.length_map, List.length_take, List.length_nil] at hsize
    omega
  · refine .inr (.inr ⟨_, _, _, _, rfl, (h.removeIndices _).withLast _, ?_, rfl,
      dropAll_sublist _ _, ?_, rfl⟩)
    · rw [List.length_take]
      omega
    · rw [← hchosen]
      exact dropAll_perm ((nodup_indicesWhere _ _).sublist (List.take_sublist _ _))
        fun i hi ↦ hlt i (List.mem_of_mem_take hi)

/-- `sample` evicts the rows below the window, and then takes the oldest rows
of its step if there are enough of them. -/
theorem Holds.sample {b : ReplayBufferImpl τ} (h : b.Holds R) (n v age : ℕ) :
    ∃ b' result R', b.sample n v age = (b', result) ∧ b'.Holds R' ∧
      Samples R n (v - age) v result R' ∧ R'.Sublist R := by
  unfold ReplayBufferImpl.sample
  split_ifs with hempty
  · have hnil : R = [] := by simpa [h.trajectories] using hempty
    subst hnil
    exact ⟨b, _, [], rfl, h, .insufficient, List.Sublist.refl _⟩
  · have hdrop : dropAll R (indicesWhere (fun w ↦ decide (w < v - age)) b.trajectoryVersions) =
        R.filter fun r ↦ decide (v - age ≤ r.version) := by
      rw [h.versions, indicesWhere_map, dropAll_indicesWhere]
      refine List.filter_congr fun r _ ↦ ?_
      rw [← decide_not]
      exact decide_eq_decide.mpr Nat.not_lt
    have hkept := h.removeIndices (indicesWhere (fun w ↦ decide (w < v - age)) b.trajectoryVersions)
    rw [hdrop] at hkept
    have hsub : (R.filter fun r ↦ decide (v - age ≤ r.version)).Sublist R := List.filter_sublist
    have husable : (R.filter fun r ↦ decide (v - age ≤ r.version)).filter (usable (v - age) v) =
        R.filter (usable (v - age) v) := by
      rw [List.filter_filter]
      refine List.filter_congr fun r _ ↦ ?_
      simp only [usable]
      by_cases hr : v - age ≤ r.version <;> simp [hr]
    rcases hkept.takeIntended n (v - age) v with heq | ⟨hn, heq⟩ |
      ⟨b', chosen, rest, q, heq, hholds, hlen, hchosen, hrest, hperm, _⟩
    · exact ⟨_, _, _, heq, hkept, .insufficient, hsub⟩
    · exact ⟨_, _, _, heq, hkept, .zeroDivision hn, hsub⟩
    · exact ⟨_, _, _, heq, hholds, .data chosen rest q hlen (husable ▸ hchosen) (hrest.trans hsub)
        hperm, hrest.trans hsub⟩

theorem holds_clear (b : ReplayBufferImpl τ) : b.clear.Holds [] := ⟨rfl, rfl, rfl⟩

theorem Holds.keepIncreasing (h : b.Holds R) {idxs : List ℕ} (hp : idxs.Pairwise (· < ·))
    (hlt : ∀ i ∈ idxs, i < R.length) :
    ∃ R', (b.keepIndices idxs).Holds R' ∧ R'.Sublist R ∧ R'.length = idxs.length :=
  ⟨_, h.keepIndices idxs, entriesAt_sublist hp hlt, length_entriesAt hlt⟩

theorem Holds.truncateToMaxSize (h : b.Holds R) (step : Option ℕ) :
    ∃ R', (b.truncateToMaxSize step).Holds R' ∧ R'.Sublist R ∧ R'.length ≤ b.maxSize := by
  unfold ReplayBufferImpl.truncateToMaxSize
  rw [h.length]
  simp only
  split_ifs with hsize
  · exact ⟨R, h, List.Sublist.refl _, hsize⟩
  · cases step with
    | none =>
      obtain ⟨R', hholds, hsub, hlen⟩ := h.keepIncreasing
        (List.pairwise_lt_range' :
          (List.range' (R.length - b.maxSize) b.maxSize).Pairwise (· < ·)) (by
          intro i hi
          rw [List.mem_range'_1] at hi
          omega)
      exact ⟨R', hholds, hsub, by simp [hlen]⟩
    | some current =>
      have hperm := List.perm_insertionSort (Prior b.targetWeightVersions) (List.range R.length)
      have hsorted := List.perm_insertionSort (· ≤ ·)
        (((List.range R.length).insertionSort (Prior b.targetWeightVersions)).take b.maxSize)
      have hnd := hsorted.nodup_iff.mpr
        ((hperm.nodup_iff.mpr List.nodup_range).sublist (List.take_sublist _ _))
      have hincreasing := (List.pairwise_insertionSort (· ≤ ·) (((List.range R.length).insertionSort
        (Prior b.targetWeightVersions)).take b.maxSize)).and hnd
      obtain ⟨R', hholds, hsub, hlen⟩ := h.keepIncreasing
        (hincreasing.imp fun ⟨hle, hne⟩ ↦ lt_of_le_of_ne hle hne) (by
          intro i hi
          exact List.mem_range.mp (hperm.mem_iff.mp
            (List.mem_of_mem_take (hsorted.mem_iff.mp hi))))
      refine ⟨R', hholds, hsub, ?_⟩
      rw [hlen, hsorted.length_eq]
      exact List.length_take_le _ _

theorem Holds.filterTargets (h : b.Holds R) (p : ℕ → Bool) :
    (b.keepIndices (indicesWhere p b.targetWeightVersions)).Holds
      (R.filter fun r ↦ p r.target) := by
  have hkeep := h.keepIndices (indicesWhere p b.targetWeightVersions)
  have hrows : entriesAt R (indicesWhere p b.targetWeightVersions) =
      R.filter fun r ↦ p r.target := by
    rw [h.targets, indicesWhere_map, entriesAt_indicesWhere_eq]
  rwa [hrows] at hkeep

theorem Holds.removeStaleTrajectories (h : b.Holds R) (age : ℕ) :
    (b.removeStaleTrajectories age).Holds
      (R.filter fun r ↦ isValidForTarget r.version r.target (some age)) := by
  have hdrop := h.removeIndices (indicesWhere
    (fun x ↦ !isValidForTarget x.1 x.2 (some age)) (b.trajectoryVersions.zip b.targetWeightVersions))
  have hrows : dropAll R (indicesWhere (fun x ↦ !isValidForTarget x.1 x.2 (some age))
      (b.trajectoryVersions.zip b.targetWeightVersions)) =
      R.filter fun r ↦ isValidForTarget r.version r.target (some age) := by
    rw [h.versions, h.targets, List.zip_map', indicesWhere_map, dropAll_indicesWhere]
    simp
  rwa [hrows] at hdrop

theorem Holds.prepareForTrainingStep (h : b.Holds R) (step num : ℕ) :
    ∃ R', (b.prepareForTrainingStep step num).Holds R' ∧ R'.Sublist R := by
  have hpast := h.filterTargets fun t ↦ decide (step ≤ t)
  unfold ReplayBufferImpl.prepareForTrainingStep
  simp only
  split_ifs
  · exact ⟨_, (hpast.filterTargets _).withLast _, List.filter_sublist.trans List.filter_sublist⟩
  · exact ⟨_, hpast.withLast _, List.filter_sublist⟩

theorem Holds.removeIncompleteTargetSteps (h : b.Holds R) (num : ℕ) :
    ∃ R', (b.removeIncompleteTargetSteps num).Holds R' ∧ R'.Sublist R := by
  unfold ReplayBufferImpl.removeIncompleteTargetSteps
  split_ifs
  · exact ⟨R, h, List.Sublist.refl _⟩
  · exact ⟨_, (h.filterTargets _).withLast _, List.filter_sublist⟩

def ofLists (ts : List τ) (vs gs : List ℕ) : List (ReplayRow τ) :=
  List.zipWith3 ReplayRow.mk ts vs gs

theorem map_ofLists {ts : List τ} {vs gs : List ℕ}
    (h : ts.length = vs.length ∧ vs.length = gs.length) :
    ts = (ofLists ts vs gs).map ReplayRow.trajectory ∧
    vs = (ofLists ts vs gs).map ReplayRow.version ∧
    gs = (ofLists ts vs gs).map ReplayRow.target := by
  induction ts generalizing vs gs with
  | nil =>
    obtain rfl : vs = [] := by simpa using h.1.symm
    obtain rfl : gs = [] := by simpa using h.2.symm
    exact ⟨rfl, rfl, rfl⟩
  | cons t ts ih =>
    obtain ⟨v, vs, rfl⟩ := List.exists_cons_of_length_eq_add_one h.1.symm
    obtain ⟨g, gs, rfl⟩ := List.exists_cons_of_length_eq_add_one h.2.symm
    obtain ⟨h₁, h₂, h₃⟩ := ih (by simpa using h : ts.length = vs.length ∧ vs.length = gs.length)
    refine ⟨?_, ?_, ?_⟩ <;> simp only [ofLists, List.zipWith3, List.map_cons] at *
    · rw [← h₁]
    · rw [← h₂]
    · rw [← h₃]

def savedRows : ReplayState τ → List (ReplayRow τ)
  | ⟨some ts, some vs, some gs, some _⟩ => ofLists ts vs gs
  | _ => []

theorem Holds.filterStale (h : b.Holds R) (age : Option ℕ) :
    ∃ R', (b.filterStale age).Holds R' ∧ R'.Sublist R := by
  cases age with
  | none => exact ⟨R, h, List.Sublist.refl _⟩
  | some age => exact ⟨_, h.removeStaleTrajectories age, List.filter_sublist⟩

theorem Holds.prepareTargets (h : b.Holds R) (step num : Option ℕ) :
    ∃ R', (b.prepareTargets step num).Holds R' ∧ R'.Sublist R := by
  cases num with
  | none => cases step <;> exact ⟨R, h, List.Sublist.refl _⟩
  | some num =>
    cases step with
    | some current => exact h.prepareForTrainingStep current num
    | none =>
      simp only [ReplayBufferImpl.prepareTargets]
      split_ifs
      · exact ⟨R, h, List.Sublist.refl _⟩
      · exact h.removeIncompleteTargetSteps num

theorem loadStateDict_eq_ok {state : ReplayState τ} {num step age : Option ℕ}
    (h : b.loadStateDict state num step age = .ok b') :
    ∃ R, b'.Holds R ∧ R.Sublist (savedRows state) := by
  unfold ReplayBufferImpl.loadStateDict at h
  split at h
  · rename_i ts vs gs last
    split_ifs at h with hlen
    obtain rfl := Except.ok.inj h
    obtain ⟨h₁, h₂, h₃⟩ := map_ofLists hlen
    have hloaded : { b with
        trajectories := ts
        trajectoryVersions := vs
        targetWeightVersions := gs
        lastTargetWeightAlreadyGenerated := last }.Holds (ofLists ts vs gs) := ⟨h₁, h₂, h₃⟩
    obtain ⟨R₁, hR₁, hsub₁⟩ := hloaded.filterStale age
    obtain ⟨R₂, hR₂, hsub₂⟩ := hR₁.prepareTargets step num
    obtain ⟨R₃, hR₃, hsub₃, _⟩ := hR₂.truncateToMaxSize step
    exact ⟨R₃, hR₃, hsub₃.trans (hsub₂.trans hsub₁)⟩
  · simp at h

end ReplayBufferImpl

/-! Sequences of calls. -/

inductive ReplayCall (τ : Type)
  | add (trajectory : τ) (weightVersion targetWeightVersion : ℕ)
  | sample (numPromptGroups currentWeightVersion maxAgeSteps : ℕ)
  | clear
  | loadStateDict (state : ReplayState τ)
      (numPromptsPerStep currentTrainingStep maxAgeSteps : Option ℕ)

/-- A buffer with every row that has entered it, by a successful `add` or in a
loaded state, and every trajectory that `sample` has returned. -/
structure ReplayHistory (τ : Type) where
  buffer : ReplayBufferImpl τ
  entered : List (ReplayRow τ)
  sampled : List τ

namespace ReplayHistory

variable {τ : Type}

def call (h : ReplayHistory τ) : ReplayCall τ → ReplayHistory τ
  | .add t v g =>
    match h.buffer.add t v g with
    | (b, .success) => ⟨b, h.entered ++ [⟨t, v, g⟩], h.sampled⟩
    | (b, .full) => ⟨b, h.entered, h.sampled⟩
  | .sample n v age =>
    let (b, result) := h.buffer.sample n v age
    ⟨b, h.entered, h.sampled ++ result.items⟩
  | .clear => { h with buffer := h.buffer.clear }
  | .loadStateDict state num step age =>
    match h.buffer.loadStateDict state num step age with
    | .ok b => ⟨b, h.entered ++ ReplayBufferImpl.savedRows state, h.sampled⟩
    | .error _ => h

def run (b : ReplayBufferImpl τ) (calls : List (ReplayCall τ)) : ReplayHistory τ :=
  calls.foldl call ⟨b, [], []⟩

/-- The buffer holds rows that have entered it, in that order, and each entry
is either still there or has been handed out at most once. -/
def Kept (h : ReplayHistory τ) : Prop :=
  ∃ R, h.buffer.Holds R ∧ R.Sublist h.entered ∧
    (h.sampled ++ R.map ReplayRow.trajectory).Subperm (h.entered.map ReplayRow.trajectory)

theorem Kept.call {h : ReplayHistory τ} (hk : h.Kept) (c : ReplayCall τ) : (h.call c).Kept := by
  obtain ⟨R, hR, hsub, hperm⟩ := hk
  cases c with
  | add t v g =>
    rcases hR.add t v g with ⟨heq, _⟩ | ⟨b', heq, hR'⟩
    · simp only [ReplayHistory.call, heq]
      exact ⟨R, hR, hsub, hperm⟩
    · simp only [ReplayHistory.call, heq]
      refine ⟨_, hR', hsub.append (List.Sublist.refl _), ?_⟩
      simp only [List.map_append, ← List.append_assoc]
      exact hperm.append (List.Subperm.refl _)
  | sample n v age =>
    obtain ⟨b', result, R', heq, hR', hs, hsub'⟩ := hR.sample n v age
    simp only [ReplayHistory.call, heq]
    have hless : (h.sampled ++ R'.map ReplayRow.trajectory).Subperm
        (h.entered.map ReplayRow.trajectory) :=
      ((List.Sublist.refl h.sampled).append (hsub'.map _)).subperm.trans hperm
    cases hs with
    | insufficient =>
      refine ⟨_, hR', hsub'.trans hsub, ?_⟩
      simpa only [SampleResult.items, List.append_nil] using hless
    | zeroDivision _ =>
      refine ⟨_, hR', hsub'.trans hsub, ?_⟩
      simpa only [SampleResult.items, List.append_nil] using hless
    | data chosen rest q _ _ _ hkeep =>
      refine ⟨_, hR', hsub'.trans hsub, ?_⟩
      have hrows : (chosen.map ReplayRow.trajectory ++ R'.map ReplayRow.trajectory).Subperm
          (R.map ReplayRow.trajectory) := by
        rw [← List.map_append]
        exact (hkeep.symm.map _).subperm.trans (List.filter_sublist.map _).subperm
      rw [SampleResult.items, List.append_assoc]
      exact ((List.Subperm.refl h.sampled).append hrows).trans hperm
  | clear =>
    refine ⟨[], ReplayBufferImpl.holds_clear _, List.nil_sublist _, ?_⟩
    simp only [ReplayHistory.call, List.map_nil, List.append_nil]
    exact (List.sublist_append_left _ _).subperm.trans hperm
  | loadStateDict state num step age =>
    simp only [ReplayHistory.call]
    cases hload : h.buffer.loadStateDict state num step age with
    | error e => exact ⟨R, hR, hsub, hperm⟩
    | ok b' =>
      obtain ⟨R', hR', hsub'⟩ := ReplayBufferImpl.loadStateDict_eq_ok hload
      refine ⟨R', hR', hsub'.trans (List.sublist_append_right _ _), ?_⟩
      rw [List.map_append]
      exact ((List.sublist_append_left _ _).subperm.trans hperm).append (hsub'.map _).subperm

theorem kept_run {b : ReplayBufferImpl τ} (hb : b.Holds []) (calls : List (ReplayCall τ)) :
    (run b calls).Kept := by
  have hfold : ∀ h : ReplayHistory τ, h.Kept → (calls.foldl call h).Kept := by
    induction calls with
    | nil => exact fun h hk ↦ hk
    | cons c calls ih => exact fun h hk ↦ ih _ (hk.call c)
  exact hfold _ ⟨[], hb, List.Sublist.refl _, List.Subperm.refl _⟩

theorem sample_spec {b b' : ReplayBufferImpl τ} {R : List (ReplayRow τ)} (hR : b.Holds R)
    {n v age : ℕ} {result : SampleResult τ} (h : b.sample n v age = (b', result)) :
    (∀ ts q, result = .data ts q → ts.length = n ∧
      ts = ((R.filter (ReplayBufferImpl.usable (v - age) v)).take n).map ReplayRow.trajectory) ∧
    (result = .insufficient → b'.Holds (R.filter fun r ↦ decide (v - age ≤ r.version))) ∧
    ((∀ r ∈ R, v - age ≤ r.version) →
      ∃ rest, b'.Holds rest ∧ (R.map ReplayRow.trajectory).Perm
        (result.items ++ rest.map ReplayRow.trajectory)) := by
  obtain ⟨b'', result', R', heq, hR', hs, _⟩ := hR.sample n v age
  obtain ⟨rfl, rfl⟩ := Prod.mk.inj (h.symm.trans heq)
  have hall : (∀ r ∈ R, v - age ≤ r.version) →
      R.filter (fun r ↦ decide (v - age ≤ r.version)) = R := fun hw ↦
    List.filter_eq_self.mpr fun r hr ↦ decide_eq_true (hw r hr)
  cases hs with
  | insufficient =>
    refine ⟨by simp, fun _ ↦ hR', fun hw ↦ ⟨R, ?_, List.Perm.refl _⟩⟩
    rwa [hall hw] at hR'
  | zeroDivision _ =>
    refine ⟨by simp, by simp, fun hw ↦ ⟨R, ?_, List.Perm.refl _⟩⟩
    rwa [hall hw] at hR'
  | data chosen rest q hlen hchosen _ hperm =>
    refine ⟨?_, by simp, fun hw ↦ ⟨R', hR', ?_⟩⟩
    · rintro ts q' ⟨⟩
      exact ⟨by simp [hlen], by rw [← hchosen]⟩
    · rw [hall hw] at hperm
      simp only [SampleResult.items, ← List.map_append]
      exact hperm.map _

/-- Over any calls, the lists stay parallel, rows keep their data and their
order, and each entry is handed out at most once; a sample returns the oldest
rows of its step, and evicts none that its own step could still use. -/
theorem replay_rows_sampled_once (maxSize : ℕ) (dropIncomplete : Bool) (hpos : 0 < maxSize)
    (calls : List (ReplayCall τ)) :
    let h := run (.empty maxSize dropIncomplete hpos) calls
    (h.buffer.trajectories.length = h.buffer.trajectoryVersions.length ∧
      h.buffer.trajectoryVersions.length = h.buffer.targetWeightVersions.length) ∧
    ∃ R, h.buffer.Holds R ∧ R.Sublist h.entered ∧
      (h.sampled ++ R.map ReplayRow.trajectory).Subperm (h.entered.map ReplayRow.trajectory) ∧
      ∀ n v age b' result, h.buffer.sample n v age = (b', result) →
        (∀ ts q, result = .data ts q → ts.length = n ∧ ts =
          ((R.filter (ReplayBufferImpl.usable (v - age) v)).take n).map ReplayRow.trajectory) ∧
        (result = .insufficient → b'.Holds (R.filter fun r ↦ decide (v - age ≤ r.version))) ∧
        (∀ r ∈ R, r.version < v - age → v ≤ r.target →
          ReplayBufferImpl.isValidForTarget r.version r.target (some age) = false) ∧
        ((∀ r ∈ h.entered, r.target - age ≤ r.version ∧ r.version ≤ r.target) →
          (∀ r ∈ R, v ≤ r.target) →
          ∃ rest, b'.Holds rest ∧ (R.map ReplayRow.trajectory).Perm
            (result.items ++ rest.map ReplayRow.trajectory)) := by
  intro h
  obtain ⟨R, hR, hsub, hperm⟩ := kept_run
    (b := .empty maxSize dropIncomplete hpos) ⟨rfl, rfl, rfl⟩ calls
  refine ⟨hR.lengths, R, hR, hsub, hperm, fun n v age b' result heq ↦ ?_⟩
  obtain ⟨hdata, hkeep, hnone⟩ := sample_spec hR heq
  refine ⟨hdata, hkeep, ?_, ?_⟩
  · intro r _ hold hle
    simp only [ReplayBufferImpl.isValidForTarget, decide_eq_false_iff_not]
    omega
  · intro hwindow hlater
    refine hnone fun r hr ↦ ?_
    have hr₁ := hwindow r (hsub.subset hr)
    have hr₂ := hlater r hr
    omega

def shortRun : List (ReplayCall ℕ) :=
  [.add 10 0 1, .add 20 1 2, .add 11 1 1, .sample 2 1 1]

theorem replay_rows_sampled_once_short :
    let h := run (.empty 3 true (by decide)) shortRun
    (h.buffer.trajectories.length = h.buffer.trajectoryVersions.length ∧
      h.buffer.trajectoryVersions.length = h.buffer.targetWeightVersions.length) ∧
    ∃ R, h.buffer.Holds R ∧ R.Sublist h.entered ∧
      (h.sampled ++ R.map ReplayRow.trajectory).Subperm (h.entered.map ReplayRow.trajectory) ∧
      ∀ n v age b' result, h.buffer.sample n v age = (b', result) →
        (∀ ts q, result = .data ts q → ts.length = n ∧ ts =
          ((R.filter (ReplayBufferImpl.usable (v - age) v)).take n).map ReplayRow.trajectory) ∧
        (result = .insufficient → b'.Holds (R.filter fun r ↦ decide (v - age ≤ r.version))) ∧
        (∀ r ∈ R, r.version < v - age → v ≤ r.target →
          ReplayBufferImpl.isValidForTarget r.version r.target (some age) = false) ∧
        ((∀ r ∈ h.entered, r.target - age ≤ r.version ∧ r.version ≤ r.target) →
          (∀ r ∈ R, v ≤ r.target) →
          ∃ rest, b'.Holds rest ∧ (R.map ReplayRow.trajectory).Perm
            (result.items ++ rest.map ReplayRow.trajectory)) :=
  replay_rows_sampled_once 3 true (by decide) shortRun

example : (run (.empty 3 true (by decide)) shortRun).sampled = [10, 11] := by decide

def added (calls : List (ReplayCall τ)) : List τ :=
  calls.filterMap fun
    | .add t _ _ => some t
    | _ => none

/-- A state saved before a sample brings the sampled row back. -/
theorem restored_row_sampled_twice :
    ¬ ∀ calls : List (ReplayCall ℕ), (added calls).Nodup →
      (run (.empty 1 true (by decide)) calls).sampled.Nodup := by
  intro h
  have htwice := h [.add 7 0 0, .sample 1 0 1,
    .loadStateDict ⟨some [7], some [0], some [0], some (-1)⟩ none none none, .sample 1 0 1]
    (by decide)
  revert htwice
  decide

end ReplayHistory

end NemoRL.AsyncUtils
