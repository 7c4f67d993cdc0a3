import Mathlib
import NemoRL.AsyncUtils.TQReplayBuffer

namespace NemoRL.AsyncUtils

open Foundations.Positions

inductive SamplerConfig
  | windowed (maxStalenessVersions : ℕ) (sampleFreshestFirst : Bool)
  | readyFirst (maxStalenessVersions : ℕ)
  | weightFifo (maxStalenessVersions : ℕ)
  | inOrder (maxLookaheadVersions : ℕ) (warmupLookaheadVersions : Option ℕ)
  deriving DecidableEq, Repr

namespace SamplerConfig

def stamps : SamplerConfig → Bool
  | .inOrder _ _ => true
  | _ => false

def warmupLookaheadVersions : SamplerConfig → Option ℕ
  | .inOrder _ warmup => warmup
  | _ => none

end SamplerConfig

/-- A sampler with its dispatch counter and its gate window. -/
structure Sampler where
  config : SamplerConfig
  dispatchIndex : ℤ
  gateWindow : ℕ

namespace Sampler

def steadyWindow : SamplerConfig → ℕ
  | .windowed w _ => w
  | .readyFirst w => w
  | .weightFifo w => w
  | .inOrder w _ => w

/-- A sampler whose cursor is seeded for the step a run starts from. -/
def create (config : SamplerConfig) (resumeFromStep : ℕ) : Sampler :=
  ⟨config, resumeFromStep - 1, steadyWindow config⟩

def setGateWindow (s : Sampler) (gateWindow : ℕ) : Sampler := { s with gateWindow }

def evictionWindow (s : Sampler) : ℕ :=
  match s.config with
  | .windowed w _ => w
  | _ => s.gateWindow

def admits (s : Sampler) (trainerVersion : ℕ) : Bool :=
  match s.config with
  | .windowed _ _ => true
  | _ => decide (s.dispatchIndex < trainerVersion + s.gateWindow)

def stamp (s : Sampler) : Option ℕ :=
  match s.config with
  | .inOrder _ _ => some s.dispatchIndex.toNat
  | _ => none

def admitBatch (s : Sampler) : Sampler × Option ℕ :=
  match s.config with
  | .windowed _ _ => (s, none)
  | _ =>
    let next := { s with dispatchIndex := s.dispatchIndex + 1 }
    (next, next.stamp)

def stale (s : Sampler) (currentTrainWeight : ℕ) (x : Slot) : Bool :=
  match s.config with
  | .readyFirst _ => false
  | .inOrder _ _ => x.targetStep.any (fun t ↦ decide (t < currentTrainWeight)) && x.ready
  | _ => decide (x.startWeight < currentTrainWeight - s.evictionWindow) && x.ready

def staleIdxs (s : Sampler) (slots : List Slot) (currentTrainWeight : ℕ) : List ℕ :=
  indicesWhere (s.stale currentTrainWeight) slots

/-- The start weights a strict first-in-first-out selection looks at, those of
unready slots included. -/
def inWindow (window currentTrainWeight : ℕ) (slots : List Slot) : List ℕ :=
  (slots.map Slot.startWeight).filter fun w ↦
    decide (currentTrainWeight - window ≤ w ∧ w ≤ currentTrainWeight)

def eligible (s : Sampler) (slots : List Slot) (currentTrainWeight : ℕ) (x : Slot) : Bool :=
  match s.config with
  | .windowed w _ => decide (currentTrainWeight - w ≤ x.startWeight ∧
      x.startWeight ≤ currentTrainWeight) && x.ready
  | .readyFirst _ => decide (x.startWeight ≤ currentTrainWeight) && x.ready
  | .weightFifo w =>
    match (inWindow w currentTrainWeight slots).min? with
    | none => false
    | some targetVersion => decide (x.startWeight = targetVersion) && x.ready
  | .inOrder _ _ => decide (x.targetStep = some currentTrainWeight) && x.ready

/-- The order of a freshest-first selection: smaller lag first, then position. -/
def Fresher (slots : List Slot) (currentTrainWeight i j : ℕ) : Prop :=
  let lag := fun k ↦ currentTrainWeight - (slots[k]?.elim 0 Slot.startWeight)
  lag i < lag j ∨ (lag i = lag j ∧ i ≤ j)

instance (slots : List Slot) (w i j : ℕ) : Decidable (Fresher slots w i j) :=
  inferInstanceAs (Decidable (_ ∨ _))

def validIdxs (s : Sampler) (slots : List Slot) (currentTrainWeight : ℕ) : List ℕ :=
  let idxs := indicesWhere (s.eligible slots currentTrainWeight) slots
  match s.config with
  | .windowed _ true => idxs.insertionSort (Fresher slots currentTrainWeight)
  | _ => idxs

/-- `select` up to the removal of the chosen slots: nothing where the bounds
are refused, `some none` where too few groups are eligible. -/
def select (s : Sampler) (slots : List Slot) (currentTrainWeight minPromptGroups
    maxPromptGroups : ℕ) : Option (Option (List ℕ)) :=
  if minPromptGroups < 1 ∨ maxPromptGroups < minPromptGroups then none
  else
    let valid := s.validIdxs slots currentTrainWeight
    if valid.length < minPromptGroups then some none
    else some (some (valid.take (min valid.length maxPromptGroups)))

def shouldAbortInflight (s : Sampler) (startWeightVersion currentTrainWeight : ℕ) : Bool :=
  match s.config with
  | .windowed w _ => decide (startWeightVersion < currentTrainWeight - w)
  | _ => false

def peakWindow : SamplerConfig → ℕ
  | .inOrder _ (some w) => w
  | config => steadyWindow config

def requiredBufferCapacity (config : SamplerConfig) (groupsPerStep : ℕ) : Option ℕ :=
  match config with
  | .windowed _ _ => none
  | _ => some (groupsPerStep * (peakWindow config + 1))

theorem ready_of_stale {s : Sampler} {v : ℕ} {x : Slot} (h : s.stale v x = true) :
    x.ready = true := by
  unfold stale at h
  cases hc : s.config with
  | readyFirst w => simp [hc] at h
  | _ =>
    simp only [hc, Bool.and_eq_true] at h
    exact h.2

theorem ready_of_eligible {s : Sampler} {slots : List Slot} {v : ℕ} {x : Slot}
    (h : s.eligible slots v x = true) : x.ready = true := by
  unfold eligible at h
  cases hc : s.config with
  | weightFifo w =>
    cases hm : (inWindow w v slots).min? with
    | none => simp [hc, hm] at h
    | some t =>
      simp only [hc, hm, Bool.and_eq_true] at h
      exact h.2
  | _ =>
    simp only [hc, Bool.and_eq_true] at h
    exact h.2

theorem validIdxs_perm (s : Sampler) (slots : List Slot) (v : ℕ) :
    (s.validIdxs slots v).Perm (indicesWhere (s.eligible slots v) slots) := by
  unfold validIdxs
  split
  · exact List.perm_insertionSort _ _
  · exact List.Perm.refl _

/-- The chosen indices are distinct and eligible, and within the bounds asked for. -/
theorem select_eq_some {s : Sampler} {slots : List Slot} {v lo hi : ℕ} {idxs : List ℕ}
    (h : s.select slots v lo hi = some (some idxs)) :
    idxs.Nodup ∧ (∀ x ∈ entriesAt slots idxs, s.eligible slots v x = true) ∧
      (∀ i ∈ idxs, i < slots.length) ∧ 1 ≤ idxs.length ∧ lo ≤ idxs.length ∧ idxs.length ≤ hi := by
  simp only [select] at h
  split_ifs at h with hb hlen
  · simp at h
  obtain ⟨hlo, hhi⟩ := not_or.mp hb
  obtain rfl := Option.some.inj (Option.some.inj h)
  have hperm := s.validIdxs_perm slots v
  have hsub : ∀ i ∈ (s.validIdxs slots v).take (min (s.validIdxs slots v).length hi),
      i ∈ indicesWhere (s.eligible slots v) slots := fun i hi ↦
    hperm.mem_iff.mp (List.mem_of_mem_take hi)
  have hnd : (s.validIdxs slots v).Nodup := hperm.nodup_iff.mpr (nodup_indicesWhere _ _)
  have htake : ((s.validIdxs slots v).take (min (s.validIdxs slots v).length hi)).length =
      min (min (s.validIdxs slots v).length hi) (s.validIdxs slots v).length := List.length_take
  refine ⟨hnd.sublist (List.take_sublist _ _),
    fun x hx ↦ (entriesAt_indicesWhere hsub x hx).2,
    fun i hi ↦ lt_length_of_mem_indicesWhere (hsub i hi), ?_, ?_, ?_⟩ <;> omega

theorem staleIdxs_spec (s : Sampler) (slots : List Slot) (v : ℕ) :
    (s.staleIdxs slots v).Nodup ∧
      (∀ x ∈ entriesAt slots (s.staleIdxs slots v), s.stale v x = true) ∧
      (∀ i ∈ s.staleIdxs slots v, i < slots.length) ∧
      (s.staleIdxs slots v).length = slots.countP (s.stale v) :=
  ⟨nodup_indicesWhere _ _, fun x hx ↦ (entriesAt_indicesWhere (fun _ h ↦ h) x hx).2,
    fun _ h ↦ lt_length_of_mem_indicesWhere h, length_indicesWhere _ _⟩

end Sampler

end NemoRL.AsyncUtils
