import Mathlib
import NemoRL.SingleController.Staleness

namespace NemoRL.SingleController

open DataPlane AsyncUtils Experience Experience.RolloutManager
open Foundations Foundations.Positions Foundations.Transition

variable {ρ : Type} {cfg : Config} {s s' : State ρ}

def TrainPhase.inStep : TrainPhase ρ → Bool
  | .polling | .napping | .evicting _ _ | .training _ | .closing => true
  | _ => false

def TrainPhase.between : TrainPhase ρ → Bool
  | .syncing | .stepped | .saving _ _ | .fetching _ _ _ => true
  | _ => false

/-- How the open step and the dispatch cursor stand to the trainer's version. -/
structure Clocked (cfg : Config) (s : State ρ) : Prop where
  inStep : s.train.inStep = true → s.versionDuringStep = s.trainerVersion
  between : s.train.between = true → s.versionDuringStep < s.trainerVersion
  starting : s.train.starting = true → s.versionDuringStep = s.trainerVersion ∧
    s.groupsDispatched = 0 ∧ s.admissions = [] ∧ s.selected = []
  done : s.train = .done → s.stopping = true
  closing : s.train = .closing →
    cfg.numPromptsPerStep ≤ s.groupsDispatched + s.batchShortfall s.versionDuringStep
  cursor : -1 ≤ s.sampler.dispatchIndex
  admitted : ∀ a ∈ s.admissions, ∀ t ∈ a.target, (t : ℤ) ≤ s.sampler.dispatchIndex

theorem TrainPhase.emptyHanded.cases {p : TrainPhase ρ} (h : p.emptyHanded = true) :
    p = .polling ∨ p = .napping ∨ p = .closing ∨ p = .done := by
  cases p <;> simp_all [TrainPhase.emptyHanded]

theorem TrainPhase.selecting.inStep {p : TrainPhase ρ} (h : p.selecting = true) :
    p.inStep = true := by
  cases p <;> simp_all [TrainPhase.selecting, TrainPhase.inStep]

namespace Clocked

theorem keep (hc : Clocked cfg s) (hf : s'.train = s.train ∧
      s'.versionDuringStep = s.versionDuringStep ∧ s'.trainerVersion = s.trainerVersion ∧
      s'.groupsDispatched = s.groupsDispatched ∧ s'.sampler = s.sampler ∧
      s'.admissions = s.admissions ∧ s'.selected = s.selected)
    (hstop : s.stopping = true → s'.stopping = true)
    (hshort : ∀ t, s.batchShortfall t ≤ s'.batchShortfall t) : Clocked cfg s' := by
  obtain ⟨h₁, h₂, h₃, h₄, h₅, h₆, h₇⟩ := hf
  refine ⟨?_, ?_, ?_, ?_, ?_, ?_, ?_⟩
  · rw [h₁, h₂, h₃]
    exact hc.inStep
  · rw [h₁, h₂, h₃]
    exact hc.between
  · rw [h₁, h₂, h₃, h₄, h₆, h₇]
    exact hc.starting
  · rw [h₁]
    exact fun h ↦ hstop (hc.done h)
  · rw [h₁, h₂, h₄]
    intro h
    have h₁ := hc.closing h
    have h₂ := hshort s.versionDuringStep
    omega
  · rw [h₅]
    exact hc.cursor
  · rw [h₅, h₆]
    exact hc.admitted

theorem idle {dispatched : ℕ} {phase : TrainPhase ρ} {stopping : Bool} (hc : Clocked cfg s)
    (hin : s.train.inStep = true)
    (hi : Idles cfg s s.versionDuringStep dispatched phase stopping)
    (hf : s'.train = phase ∧ s'.versionDuringStep = s.versionDuringStep ∧
      s'.trainerVersion = s.trainerVersion ∧ s'.groupsDispatched = dispatched ∧
      s'.sampler = s.sampler ∧ s'.admissions = s.admissions ∧ s'.stopping = stopping ∧
      s'.batchShortfall = s.batchShortfall) : Clocked cfg s' := by
  obtain ⟨h₁, h₂, h₃, h₄, h₅, h₆, h₇, h₈⟩ := hf
  have hv := hc.inStep hin
  refine ⟨fun _ ↦ by rw [h₂, h₃, hv], ?_, ?_, ?_, ?_, ?_, ?_⟩
  · intro hb
    rw [h₁] at hb
    rcases TrainPhase.emptyHanded.cases hi.emptyHanded with rfl | rfl | rfl | rfl <;>
      simp [TrainPhase.between] at hb
  · intro hs
    rw [h₁, TrainPhase.emptyHanded.starting hi.emptyHanded] at hs
    cases hs
  · intro hd
    by_contra hstop
    rw [h₇] at hstop
    exact (hi.running (by simpa using hstop)).2 (h₁ ▸ hd)
  · intro hcl
    rw [h₂, h₄, h₈]
    exact hi.closing (h₁ ▸ hcl)
  · rw [h₅]
    exact hc.cursor
  · rw [h₅, h₆]
    exact hc.admitted

theorem begins {version dispatched : ℕ} {phase : TrainPhase ρ} {stopping : Bool}
    (hc : Clocked cfg s) (hb : Begins cfg s version dispatched phase stopping)
    (hf : s'.train = phase ∧ s'.versionDuringStep = version ∧
      s'.trainerVersion = s.trainerVersion ∧ s'.groupsDispatched = dispatched ∧
      s'.sampler = s.sampler ∧ s'.admissions = s.admissions ∧ s'.stopping = stopping ∧
      s'.batchShortfall = s.batchShortfall) : Clocked cfg s' := by
  obtain ⟨h₁, h₂, h₃, h₄, h₅, h₆, h₇, h₈⟩ := hf
  have hi := hb.idles
  refine ⟨?_, ?_, ?_, ?_, ?_, ?_, ?_⟩
  · intro hin
    rcases hb.opened with ⟨hv, _⟩ | ⟨hd, _⟩
    · rw [h₂, h₃, hv]
    · simp [h₁, hd, TrainPhase.inStep] at hin
  · intro hbt
    rw [h₁] at hbt
    rcases TrainPhase.emptyHanded.cases hi.emptyHanded with rfl | rfl | rfl | rfl <;>
      simp [TrainPhase.between] at hbt
  · intro hs
    rw [h₁, TrainPhase.emptyHanded.starting hi.emptyHanded] at hs
    cases hs
  · intro hd
    by_contra hstop
    rw [h₇] at hstop
    exact (hi.running (by simpa using hstop)).2 (h₁ ▸ hd)
  · intro hcl
    rw [h₂, h₄, h₈]
    exact hi.closing (h₁ ▸ hcl)
  · rw [h₅]
    exact hc.cursor
  · rw [h₅, h₆]
    exact hc.admitted

theorem between_steps (hc : Clocked cfg s) (hb : s'.train.between = true)
    (hlt : s'.versionDuringStep < s'.trainerVersion)
    (hd : s'.sampler.dispatchIndex = s.sampler.dispatchIndex)
    (ha : s'.admissions = s.admissions) : Clocked cfg s' := by
  have hcases : s'.train.inStep = false ∧ s'.train.starting = false ∧ s'.train ≠ .done ∧
      s'.train ≠ .closing := by
    cases ht : s'.train <;> simp_all [TrainPhase.between, TrainPhase.inStep, TrainPhase.starting]
  obtain ⟨h₁, h₂, h₃, h₄⟩ := hcases
  refine ⟨by simp [h₁], fun _ ↦ hlt, by simp [h₂], fun h ↦ absurd h h₃, fun h ↦ absurd h h₄,
    hd ▸ hc.cursor, ?_⟩
  rw [ha, hd]
  exact hc.admitted

end Clocked

theorem bump_le (counts : ℕ → ℕ) (target : Option ℕ) (t : ℕ) : counts t ≤ bump counts target t := by
  unfold bump
  cases target with
  | none => exact le_rfl
  | some u =>
    simp only [Function.update_apply]
    split_ifs with h
    · subst h
      omega
    · exact le_rfl

theorem Turn.shortfall_le {i : ℕ} {t : Task ρ} (h : Turn cfg s i t s') (step : ℕ) :
    s.batchShortfall step ≤ s'.batchShortfall step := by
  cases h with
  | shortened rm _ _ => exact bump_le _ _ _
  | _ => exact le_rfl

theorem Turn.keeps {i : ℕ} {t : Task ρ} (h : Turn cfg s i t s') :
    s'.versionDuringStep = s.versionDuringStep ∧ s'.groupsDispatched = s.groupsDispatched ∧
    s'.admissions = s.admissions ∧ (s.stopping = true → s'.stopping = true) ∧
    s'.draining = s.draining := by
  cases h with
  | ended rm stopping hstop _ =>
    refine ⟨rfl, rfl, rfl, fun hs ↦ ?_, rfl⟩
    by_contra hne
    have hfalse := (hstop (by simpa [endTask, release] using hne)).1
    simp [hfalse] at hs
  | _ => exact ⟨rfl, rfl, rfl, id, rfl⟩

theorem Clocked.steps_kept {e : Event ρ} (hc : Clocked cfg s)
    (hs : Sound cfg s) (h : Steps cfg s e s') : Clocked cfg s' := by
  have hsame : s.train = s.train ∧ s.versionDuringStep = s.versionDuringStep ∧
      s.trainerVersion = s.trainerVersion ∧ s.groupsDispatched = s.groupsDispatched ∧
      s.sampler = s.sampler ∧ s.admissions = s.admissions ∧ s.selected = s.selected :=
    ⟨rfl, rfl, rfl, rfl, rfl, rfl, rfl⟩
  cases h with
  | diverted n _ _ => exact hc.keep hsame id fun _ ↦ le_rfl
  | pulled n _ _ => exact hc.keep hsame id fun _ ↦ le_rfl
  | settling _ => exact hc.keep hsame id fun _ ↦ le_rfl
  | admitted prompts hpump hadm =>
    obtain ⟨_, _, hd⟩ := admitBatch_fields hadm
    have hcursor := hc.cursor
    have hrun := hs.running (.inr (by simp [hpump]))
    refine ⟨hc.inStep, hc.between, ?_, hc.done, hc.closing, ?_, ?_⟩
    · intro hst
      have hfalse : s.train.starting = true := hst
      simp [hrun] at hfalse
    · simp only [admitBatch]
      rcases hd with hd | ⟨hd, _⟩ <;> rw [hd] <;> omega
    · intro a ha t ht
      simp only [admitBatch] at ha ⊢
      rcases List.mem_append.mp ha with ha | ha
      · have hle := hc.admitted a ha t ht
        rcases hd with hd | ⟨hd, _⟩ <;> rw [hd] <;> omega
      · obtain rfl := List.mem_singleton.mp ha
        obtain ⟨_, heq⟩ := admitBatch_stamp hadm ht
        have hnext : s.sampler.admitBatch.1.dispatchIndex = s.sampler.dispatchIndex + 1 := by
          unfold Sampler.admitBatch at ht ⊢
          cases hcfg : s.sampler.config <;> simp [hcfg] at ht ⊢
        rw [hnext]
        omega
  | acquiredBuffer prompts target _ _ => exact hc.keep hsame id fun _ ↦ le_rfl
  | acquiredSem prompts target _ _ => exact hc.keep hsame id fun _ ↦ le_rfl
  | launched prompt rest target _ => exact hc.keep hsame id fun _ ↦ le_rfl
  | settled pump draining exhausted _ _ _ => exact hc.keep hsame id fun _ ↦ le_rfl
  | drained _ _ _ => exact hc.keep hsame id fun _ ↦ le_rfl
  | turn i t hi hturn _ =>
    obtain ⟨h₁, h₂, _, _, h₅, _, _, h₈, _⟩ := hturn.frame
    obtain ⟨k₁, k₂, k₃, k₄, _⟩ := hturn.keeps
    exact hc.keep ⟨h₅, k₁, h₂, k₂, h₁, k₃, h₈⟩ k₄ hturn.shortfall_le
  | flagged i t _ _ => exact hc.keep hsame id fun _ ↦ le_rfl
  | leaked i t _ _ _ _ => exact hc.keep hsame id fun _ ↦ le_rfl
  | launchCancelled prompts target stage _ _ => exact hc.keep hsame id fun _ ↦ le_rfl
  | evicts gone rm ids htrain hev _ =>
    refine ⟨fun _ ↦ hc.inStep (by rw [htrain]; rfl), by simp [TrainPhase.between],
      by simp [TrainPhase.starting], by simp, by simp, hc.cursor, hc.admitted⟩
  | waits dp phase stopping hsel hi =>
    exact hc.idle (TrainPhase.selecting.inStep hsel) hi ⟨rfl, rfl, rfl, rfl, rfl, rfl, rfl, rfl⟩
  | selects chunk rm hsel _ hch =>
    refine ⟨fun _ ↦ hc.inStep (TrainPhase.selecting.inStep hsel), by simp [TrainPhase.between],
      by simp [TrainPhase.starting], by simp, by simp, hc.cursor, hc.admitted⟩
  | trained chunk dp phase stopping opened htrain hi =>
    exact hc.idle (by rw [htrain]; rfl) hi ⟨rfl, rfl, rfl, rfl, rfl, rfl, rfl, rfl⟩
  | finished _ _ _ =>
    exact ⟨by simp [finishRun, TrainPhase.inStep], by simp [finishRun, TrainPhase.between],
      by simp [finishRun, TrainPhase.starting], fun _ ↦ rfl, by simp [finishRun], hc.cursor,
      hc.admitted⟩
  | closed tasks htrain _ _ _ =>
    refine hc.between_steps rfl ?_ rfl rfl
    have hv := hc.inStep (by rw [htrain]; rfl)
    simp only [advanceVersion]
    omega
  | closedFrozen htrain _ =>
    refine hc.between_steps rfl ?_ (retune_config cfg _ _).2 rfl
    have hv := hc.inStep (by rw [htrain]; rfl)
    simp only [settleStep, advanceVersion]
    omega
  | synced htrain =>
    exact hc.between_steps rfl (hc.between (by rw [htrain]; rfl)) (retune_config cfg _ _).2 rfl
  | saving stop htrain =>
    exact hc.between_steps rfl (hc.between (by rw [htrain]; rfl)) rfl rfl
  | fetching save stop htrain =>
    exact hc.between_steps rfl (hc.between (by rw [htrain]; rfl)) rfl rfl
  | begins checkpoints phase stopping version dispatched opened hfrom hb =>
    exact hc.begins hb ⟨rfl, rfl, rfl, rfl, rfl, rfl, rfl, rfl⟩
  | failed => exact hc.keep hsame (fun _ ↦ rfl) fun _ ↦ le_rfl
  | restarted k ck groups _ _ =>
    have hd := (retune_config cfg (.create cfg.sampler ck.currentStep) ck.currentStep).2
    refine ⟨by simp [boot, TrainPhase.inStep], by simp [boot, TrainPhase.between],
      fun _ ↦ ⟨rfl, rfl, rfl, rfl⟩, by simp [boot], by simp [boot], ?_, by rintro a ⟨⟩⟩
    have hcreate : (boot cfg s.rm.nextSerial ck.toSaveState groups
        s.checkpoints).sampler.dispatchIndex = ck.currentStep - 1 := hd
    omega
  | restored g rest n reserve htrain =>
    have hst := hc.starting (by rw [htrain]; rfl)
    exact ⟨by simp [TrainPhase.inStep], by simp [TrainPhase.between], fun _ ↦ hst, by simp,
      by simp, hc.cursor, hc.admitted⟩
  | acquiredRestored n reserve htrain _ =>
    have hst := hc.starting (by rw [htrain]; rfl)
    exact ⟨by simp [TrainPhase.inStep], by simp [TrainPhase.between], fun _ ↦ hst, by simp,
      by simp, hc.cursor, hc.admitted⟩
  | started reserve phase stopping version dispatched opened htrain hb =>
    exact hc.begins hb ⟨rfl, rfl, rfl, rfl, rfl, rfl, rfl, rfl⟩

def TrainPhase.inHand : TrainPhase ρ → ℕ
  | .training chunk => chunk.length
  | _ => 0

def selectedFor (s : State ρ) (step : ℕ) : ℕ :=
  if s.versionDuringStep = step then s.groupsDispatched + s.train.inHand else 0

def PumpPhase.unlaunchedFor : PumpPhase → ℕ → ℕ
  | .launching prompts target _, step => if target = some step then prompts.length else 0
  | _, _ => 0

def TrainPhase.pendingFor : TrainPhase ρ → ℕ → ℕ
  | .restoring groups _ _, step => groups.countP fun g ↦ decide (g.targetStep = some step)
  | _, _ => 0

def aimedAt (step : ℕ) (t : Task ρ) : Bool := decide (t.target = some step)

def stampedFor (step : ℕ) (x : Slot) : Bool := decide (x.targetStep = some step)

def slotlessFor (s : State ρ) (step : ℕ) : ℕ :=
  s.tasks.countP fun t ↦ aimedAt step t && t.held.isNone

def stepAccount (s : State ρ) (step : ℕ) : ℕ :=
  selectedFor s step + s.rm.slots.countP (stampedFor step) + slotlessFor s step +
    s.pump.unlaunchedFor step + s.batchShortfall step

def ledger (s : State ρ) (step : ℕ) : ℕ :=
  selectedFor s step + (readySlots s.rm).countP (stampedFor step) +
    s.tasks.countP (aimedAt step) + s.pump.unlaunchedFor step + s.batchShortfall step

theorem countP_held (tasks : List (Task ρ)) (step : ℕ) :
    (tasks.flatMap fun t ↦ t.held.toList).countP (stampedFor step) +
      (tasks.countP fun t ↦ aimedAt step t && t.held.isNone) = tasks.countP (aimedAt step) := by
  induction tasks with
  | nil => rfl
  | cons t tasks ih =>
    rw [List.flatMap_cons, List.countP_append, List.countP_cons, List.countP_cons]
    have hone : t.held.toList.countP (stampedFor step) +
        (if (aimedAt step t && t.held.isNone) = true then 1 else 0) =
        if aimedAt step t = true then 1 else 0 := by
      cases hh : t.held with
      | none => simp
      | some x =>
        have htarget := Task.targetStep_held (t := t) (x := x) hh
        simp [stampedFor, aimedAt, htarget, List.countP_cons]
    omega

theorem stepAccount_eq (hs : Sound cfg s) (step : ℕ) : stepAccount s step = ledger s step := by
  have hslots := hs.pool.owns.slots.countP_eq (stampedFor step)
  rw [List.countP_append] at hslots
  have hheld := countP_held s.tasks step
  simp only [stepAccount, ledger, slotlessFor]
  omega

theorem bump_apply (counts : ℕ → ℕ) (target : Option ℕ) (step : ℕ) :
    bump counts target step = counts step + if target = some step then 1 else 0 := by
  unfold bump
  cases target with
  | none => simp
  | some t =>
    simp only [Function.update_apply, Option.some.injEq]
    by_cases h : t = step
    · subst h
      simp
    · simp [h, Ne.symm h]

/-- What a task, a ready group and a shortfall count for a step. -/
def poolFor (s : State ρ) (step : ℕ) : ℕ :=
  (readySlots s.rm).countP (stampedFor step) + s.tasks.countP (aimedAt step) +
    s.batchShortfall step

/-- No turn of a task that goes on, commits, is dropped, substituted or repaid
with a borrowed group takes a group from any step. -/
theorem Turn.poolFor {i : ℕ} {t : Task ρ} (hi : s.tasks[i]? = some t) (h : Turn cfg s i t s')
    (hu : t.Uncancelled) (hrun : s'.stopping = false) (step : ℕ) :
    poolFor s' step = poolFor s step := by
  simp only [SingleController.poolFor]
  cases h with
  | moved rm t' hf hr =>
    have hready := hr.slots.countP_eq (stampedFor step)
    have htasks := countP_set (aimedAt step) hi t'
    have haim : aimedAt step t' = aimedAt step t := by simp [aimedAt, hf.target]
    rw [haim] at htasks
    simp only at *
    omega
  | committed rm x m e counts hx hr =>
    have hready := hr.slots.countP_eq (stampedFor step)
    have htasks := countP_eraseIdx (aimedAt step) hi
    have hstamp : stampedFor step (x.filled m e) = aimedAt step t := by
      simp [stampedFor, aimedAt, Slot.filled, Task.targetStep_held hx]
    rw [List.countP_cons, hstamp] at hready
    simp only [endTask]
    omega
  | shortened rm _ hr =>
    have hready := hr.slots.countP_eq (stampedFor step)
    have htasks := countP_eraseIdx (aimedAt step) hi
    simp only [endTask, release, bump_apply]
    simp only [aimedAt, decide_eq_true_eq] at htasks ⊢
    omega
  | replaced rm t' reserve hsub htarget hr =>
    have hready := hr.slots.countP_eq (stampedFor step)
    have htasks := countP_set (aimedAt step) hi t'
    have haim : aimedAt step t' = aimedAt step t := by simp [aimedAt, htarget]
    rw [haim] at htasks
    simp only at *
    omega
  | promoted rm t' reserve step' lender x rest counts hsub htarget _ hlender hlend hx hr =>
    have hready := hr.slots.countP_eq (stampedFor step)
    have hbefore := hx.countP_eq (stampedFor step)
    have htasks := countP_set (aimedAt step) hi t'
    have h₁ : stampedFor step x = aimedAt step t' := by
      simp [stampedFor, aimedAt, hlend.2.1, hlender]
    have h₂ : stampedFor step (x.restamped step') = aimedAt step t := by
      simp [stampedFor, aimedAt, Slot.restamped, htarget]
    rw [List.countP_cons, h₂] at hready
    rw [List.countP_cons, h₁] at hbefore
    simp only at *
    omega
  | ended rm stopping hstop _ => exact absurd hu (hstop hrun).2

theorem TrainPhase.emptyHanded.inHand {p : TrainPhase ρ} (h : p.emptyHanded = true) :
    p.inHand = 0 ∧ ∀ step, p.pendingFor step = 0 := by
  rcases TrainPhase.emptyHanded.cases h with rfl | rfl | rfl | rfl <;> exact ⟨rfl, fun _ ↦ rfl⟩

theorem TrainPhase.selecting.inHand {p : TrainPhase ρ} (h : p.selecting = true) :
    p.inHand = 0 ∧ ∀ step, p.pendingFor step = 0 := by
  cases p <;> simp_all [TrainPhase.selecting, TrainPhase.inHand, TrainPhase.pendingFor]

theorem unlaunchedFor_launchNext (prompts : List ℕ) (target : Option ℕ) (step : ℕ) :
    (launchNext prompts target).unlaunchedFor step =
      if target = some step then prompts.length else 0 := by
  unfold launchNext
  by_cases h : prompts = []
  · simp [h, PumpPhase.unlaunchedFor]
  · simp [h, PumpPhase.unlaunchedFor]

theorem unlaunchedFor_granted (p : PumpPhase) (step : ℕ) :
    p.granted.unlaunchedFor step = p.unlaunchedFor step := by
  unfold PumpPhase.granted
  split <;> rfl

theorem selectedFor_of_ne {step : ℕ} (h : s.versionDuringStep ≠ step) :
    selectedFor s step = 0 :=
  if_neg h

theorem Clocked.selectedFor_between (hc : Clocked cfg s) (h : s.train.between = true) {step : ℕ}
    (hstep : s.trainerVersion ≤ step) : selectedFor s step = 0 := by
  have hlt := hc.between h
  unfold selectedFor
  rw [if_neg (by omega)]

theorem stale_target {x : Slot} (hp : Paced cfg s) (hin : cfg.sampler.stamps = true)
    (h : s.sampler.stale s.trainerVersion x = true) {step : ℕ} (hstep : s.trainerVersion ≤ step) :
    stampedFor step x = false := by
  rw [← hp.config] at hin
  unfold Sampler.stale at h
  cases hcfg : s.sampler.config with
  | inOrder w u =>
    simp only [hcfg, Bool.and_eq_true] at h
    cases htarget : x.targetStep with
    | none => simp [stampedFor, htarget]
    | some t =>
      simp only [htarget, Option.any_some, decide_eq_true_eq] at h
      simp only [stampedFor, htarget, Option.some.injEq, decide_eq_false_iff_not]
      omega
  | _ => simp [hcfg, SamplerConfig.stamps] at hin

theorem countP_chunk {chunk : List Slot} {v step : ℕ} (h : ∀ x ∈ chunk, x.targetStep = some v) :
    chunk.countP (stampedFor step) = if v = step then chunk.length else 0 := by
  by_cases hv : v = step
  · rw [if_pos hv]
    refine List.countP_eq_length.mpr fun x hx ↦ ?_
    simp [stampedFor, h x hx, hv]
  · rw [if_neg hv]
    refine List.countP_eq_zero.mpr fun x hx ↦ ?_
    simp [stampedFor, h x hx, hv]

/-- No step but an admission and a restart takes a group from a step still to
come or adds one to it. -/
theorem Steps.ledger_eq {e : Event ρ} (hs : Sound cfg s) (hp : Paced cfg s) (hc : Clocked cfg s)
    (hin : cfg.sampler.stamps = true) (hu : ∀ t ∈ s.tasks, t.Uncancelled)
    (hrun : s'.stopping = false) (he : e ≠ .admitted ∧ ∀ k, e ≠ .restart k)
    (h : Steps cfg s e s') {step : ℕ} (hstep : s'.trainerVersion ≤ step) :
    ledger s' step + s'.train.pendingFor step = ledger s step + s.train.pendingFor step := by
  cases h with
  | diverted n _ _ => rfl
  | pulled n hpump _ => simp only [ledger, selectedFor, hpump, PumpPhase.unlaunchedFor]
  | settling hpump => simp only [ledger, selectedFor, hpump, PumpPhase.unlaunchedFor]
  | admitted prompts _ _ => exact absurd rfl he.1
  | acquiredBuffer prompts target hpump _ =>
    simp only [ledger, selectedFor, hpump, PumpPhase.unlaunchedFor]
  | acquiredSem prompts target hpump _ =>
    simp only [ledger, selectedFor, hpump, PumpPhase.unlaunchedFor]
  | launched prompt rest target hpump =>
    have htask : aimedAt step (⟨0, false, .created prompt target⟩ : Task ρ) =
        decide (target = some step) := rfl
    have hbefore : s.pump.unlaunchedFor step =
        if target = some step then rest.length + 1 else 0 := by rw [hpump]; rfl
    simp only [ledger, selectedFor, unlaunchedFor_launchNext, hbefore, List.countP_append,
      List.countP_singleton, htask, decide_eq_true_eq]
    split_ifs <;> omega
  | settled pump draining exhausted hpump _ hfrom =>
    rcases hfrom with ⟨rfl, _⟩ | ⟨rfl, _⟩ <;>
      simp only [ledger, selectedFor, hpump, PumpPhase.unlaunchedFor]
  | drained hpump _ _ => simp only [ledger, selectedFor, hpump, PumpPhase.unlaunchedFor]
  | turn i t hi hturn _ =>
    have hpool := hturn.poolFor hi (hu t (List.mem_of_getElem? hi)) hrun step
    obtain ⟨_, _, _, _, h₅, _, h₇, _, _⟩ := hturn.frame
    obtain ⟨k₁, k₂, _, _, _⟩ := hturn.keeps
    simp only [poolFor] at hpool
    simp only [ledger, selectedFor, h₅, h₇, k₁, k₂]
    omega
  | flagged i t hstop _ => simp [hstop] at hrun
  | leaked i t hi _ _ hcancel =>
    have hfalse := (hu t (List.mem_of_getElem? hi)).1
    simp [hcancel] at hfalse
  | launchCancelled prompts target stage _ hstop => simp [hstop] at hrun
  | evicts gone rm ids htrain hev _ =>
    have hready := hev.ready.countP_eq (stampedFor step)
    have hgone : gone.countP (stampedFor step) = 0 := by
      refine List.countP_eq_zero.mpr fun x hx ↦ ?_
      have hstale := stale_target hp hin (hev.stale x hx) hstep
      simp [hstale]
    rw [List.countP_append, hgone, Nat.zero_add] at hready
    simp only [ledger, selectedFor, htrain, TrainPhase.inHand, TrainPhase.pendingFor, hready]
  | waits dp phase stopping hsel hi =>
    obtain ⟨h₁, h₂⟩ := TrainPhase.selecting.inHand hsel
    obtain ⟨h₃, h₄⟩ := TrainPhase.emptyHanded.inHand hi.emptyHanded
    have hready : readySlots (withRows s.rm dp) = readySlots s.rm := rfl
    simp only [ledger, selectedFor, release, h₁, h₂, h₃, h₄, hready]
  | selects chunk rm hsel _ hch =>
    obtain ⟨h₁, h₂⟩ := TrainPhase.selecting.inHand hsel
    have hv := hc.inStep (TrainPhase.selecting.inStep hsel)
    have hready := hch.ready.countP_eq (stampedFor step)
    rw [List.countP_append, countP_chunk fun x hx ↦
      eligible_target hp.config hin (hch.eligible x hx)] at hready
    have h₃ : (.training chunk : TrainPhase ρ).inHand = chunk.length := rfl
    have h₄ : (.training chunk : TrainPhase ρ).pendingFor step = 0 := rfl
    simp only [ledger, selectedFor, release, h₁, h₂, h₃, h₄, hv]
    split_ifs at hready ⊢ <;> omega
  | trained chunk dp phase stopping opened htrain hi =>
    obtain ⟨h₃, h₄⟩ := TrainPhase.emptyHanded.inHand hi.emptyHanded
    have hready : readySlots (withRows s.rm dp) = readySlots s.rm := rfl
    have hhand : s.train.inHand = chunk.length := by rw [htrain]; rfl
    have hpend : s.train.pendingFor step = 0 := by rw [htrain]; rfl
    simp only [ledger, selectedFor, h₃, h₄, hready, hhand, hpend, Nat.add_zero]
  | finished _ _ _ => simp [finishRun] at hrun
  | closed tasks htrain _ _ hsame =>
    obtain rfl := hsame hin hp.config
    have hv := hc.inStep (by rw [htrain]; rfl)
    have hlt : step > s.versionDuringStep := by
      simp only [advanceVersion] at hstep
      omega
    have hshort : pruned s.batchShortfall s.versionDuringStep step = s.batchShortfall step :=
      if_pos hlt
    have hbefore := selectedFor_of_ne (s := s) hlt.ne
    have hafter : ∀ u : State ρ, u.versionDuringStep = s.versionDuringStep →
        selectedFor u step = 0 := fun u hu ↦ selectedFor_of_ne (hu ▸ hlt.ne)
    have hpend : s.train.pendingFor step = 0 := by rw [htrain]; rfl
    simp only [ledger, hbefore, hpend]
    rw [hafter]
    · simp only [advanceVersion, hshort]
      rfl
    · rfl
  | closedFrozen htrain _ =>
    have hv := hc.inStep (by rw [htrain]; rfl)
    have hlt : step > s.versionDuringStep := by
      simp only [settleStep, advanceVersion] at hstep
      omega
    have hshort : pruned s.batchShortfall s.versionDuringStep step = s.batchShortfall step :=
      if_pos hlt
    have hbefore := selectedFor_of_ne (s := s) hlt.ne
    have hafter := selectedFor_of_ne (s := settleStep cfg (advanceVersion s)) hlt.ne
    have hpend : s.train.pendingFor step = 0 := by rw [htrain]; rfl
    simp only [ledger, hbefore, hafter, hpend]
    simp only [settleStep, advanceVersion, hshort]
    rfl
  | synced htrain =>
    have hlt := hc.between (by rw [htrain]; rfl)
    have hne : s.versionDuringStep ≠ step := (hlt.trans_le hstep).ne
    have hbefore := selectedFor_of_ne hne
    have hafter := selectedFor_of_ne (s := settleStep cfg (permit s)) hne
    have hpend : s.train.pendingFor step = 0 := by rw [htrain]; rfl
    have htasks : (s.tasks.map Task.granted).countP (aimedAt step) =
        s.tasks.countP (aimedAt step) := by
      rw [List.countP_map]
      refine List.countP_congr fun t _ ↦ ?_
      simp [aimedAt, (Task.held_granted t).2]
    simp only [ledger, hbefore, hafter, hpend]
    simp only [settleStep, permit, unlaunchedFor_granted, htasks]
    rfl
  | saving stop htrain =>
    have hlt := hc.between (by rw [htrain]; rfl)
    have hne : s.versionDuringStep ≠ step := (hlt.trans_le hstep).ne
    have hpend : s.train.pendingFor step = 0 := by rw [htrain]; rfl
    simp only [ledger, selectedFor_of_ne hne, hpend]
    rw [selectedFor_of_ne]
    · rfl
    · exact hne
  | fetching save stop htrain =>
    have hlt := hc.between (by rw [htrain]; rfl)
    have hne : s.versionDuringStep ≠ step := (hlt.trans_le hstep).ne
    have hpend : s.train.pendingFor step = 0 := by rw [htrain]; rfl
    simp only [ledger, selectedFor_of_ne hne, hpend]
    rw [selectedFor_of_ne]
    · rfl
    · exact hne
  | begins checkpoints phase stopping version dispatched opened hfrom hb =>
    have hbt : s.train.between = true ∧ s.train.pendingFor step = 0 := by
      rcases hfrom with ⟨ht, _⟩ | ⟨_, _, _, _, ht, _⟩ <;> rw [ht] <;> exact ⟨rfl, rfl⟩
    have hzero := hc.selectedFor_between hbt.1 hstep
    obtain ⟨h₃, h₄⟩ := TrainPhase.emptyHanded.inHand hb.idles.emptyHanded
    have hd : dispatched = 0 := by
      rcases hb.opened with ⟨_, hd⟩ | ⟨_, hstop⟩
      · exact hd
      · simp [hstop] at hrun
    simp only [ledger, hzero, hbt.2]
    simp [selectedFor, h₃, h₄, hd]
  | failed => simp at hrun
  | restarted k ck groups _ _ => exact absurd rfl (he.2 k)
  | restored g rest n reserve htrain =>
    have hready := (hs.restore htrain).2.countP_eq (stampedFor step)
    have htarget : stampedFor step g.toSlot = decide (g.targetStep = some step) := rfl
    rw [List.countP_cons, htarget] at hready
    simp only [ledger, selectedFor, htrain, TrainPhase.inHand, TrainPhase.pendingFor,
      List.countP_cons, hready]
    omega
  | acquiredRestored n reserve htrain _ =>
    simp only [ledger, selectedFor, htrain, TrainPhase.inHand, TrainPhase.pendingFor,
      List.countP_nil]
  | started reserve phase stopping version dispatched opened htrain hb =>
    obtain ⟨_, hd₀, _, _⟩ := hc.starting (by rw [htrain]; rfl)
    obtain ⟨_, hpump⟩ := hs.starting (by rw [htrain]; rfl)
    obtain ⟨h₃, h₄⟩ := TrainPhase.emptyHanded.inHand hb.idles.emptyHanded
    have hd : dispatched = 0 := by
      rcases hb.opened with ⟨_, hd⟩ | ⟨_, hstop⟩
      · exact hd
      · simp [hstop] at hrun
    have hpend : s.train.pendingFor step = 0 := by rw [htrain]; rfl
    have hhand : s.train.inHand = 0 := by rw [htrain]; rfl
    have hlaunch : s.pump.unlaunchedFor step = 0 := by rw [hpump]; rfl
    have hidle : PumpPhase.idle.unlaunchedFor step = 0 := rfl
    simp only [ledger, selectedFor, hpend, hhand, hlaunch, hidle, h₃, h₄, hd, hd₀, Nat.add_zero,
      ite_self]

theorem Turn.uncancelled {i : ℕ} {t : Task ρ} (hi : s.tasks[i]? = some t)
    (h : Turn cfg s i t s') (hu : ∀ t ∈ s.tasks, t.Uncancelled) :
    ∀ t ∈ s'.tasks, t.Uncancelled := by
  have ht := hu t (List.mem_of_getElem? hi)
  have hset : ∀ t' : Task ρ, t'.Uncancelled → ∀ u ∈ s.tasks.set i t', u.Uncancelled := by
    intro t' ht' u hmem
    rcases (Pool.mem_set hi).mp hmem with rfl | hmem
    · exact ht'
    · exact hu u (Pool.mem_of_eraseIdx hmem)
  cases h with
  | moved rm t' hf _ => exact hset t' (hf.uncancelled ht)
  | replaced rm t' reserve hsub _ _ => exact hset t' hsub.uncancelled
  | promoted rm t' reserve step lender x rest counts hsub _ _ _ _ _ _ =>
    exact hset t' hsub.uncancelled
  | committed rm x m e counts _ _ => exact fun u hmem ↦ hu u (Pool.mem_of_eraseIdx hmem)
  | shortened rm _ _ => exact fun u hmem ↦ hu u (Pool.mem_of_eraseIdx hmem)
  | ended rm stopping _ _ => exact fun u hmem ↦ hu u (Pool.mem_of_eraseIdx hmem)

theorem Steps.uncancelled {e : Event ρ} (hp : Paced cfg s) (hin : cfg.sampler.stamps = true)
    (hrun : s'.stopping = false) (hu : s.stopping = false → ∀ t ∈ s.tasks, t.Uncancelled)
    (h : Steps cfg s e s') : ∀ t ∈ s'.tasks, t.Uncancelled := by
  cases h with
  | launched prompt rest target _ =>
    intro t ht
    rcases List.mem_append.mp ht with ht | ht
    · exact hu hrun t ht
    · obtain rfl := List.mem_singleton.mp ht
      exact ⟨rfl, by rintro c ⟨⟩⟩
  | turn i t hi hturn _ =>
    have hbefore : s.stopping = false := by
      by_contra hstop
      have hstop' := hturn.keeps.2.2.2.1 (by simpa using hstop)
      simp [hrun] at hstop'
    exact hturn.uncancelled hi (hu hbefore)
  | flagged i t hstop _ => simp [hstop] at hrun
  | leaked i t hi _ _ _ => exact fun u hmem ↦ hu hrun u (Pool.mem_of_eraseIdx hmem)
  | waits dp phase stopping _ hi => exact hu (hi.running hrun).1
  | trained chunk dp phase stopping opened _ hi => exact hu (hi.running hrun).1
  | begins checkpoints phase stopping version dispatched opened _ hb =>
    exact hu (hb.idles.running hrun).1
  | started reserve phase stopping version dispatched opened _ hb =>
    exact hu (hb.idles.running hrun).1
  | finished _ _ _ => simp [finishRun] at hrun
  | closed tasks _ _ _ hsame =>
    obtain rfl := hsame hin hp.config
    exact hu hrun
  | synced _ =>
    intro t ht
    obtain ⟨u, hmem, rfl⟩ := List.mem_map.mp ht
    have huncancelled := hu hrun u hmem
    obtain ⟨n, c, phase⟩ := u
    cases phase with
    | waiting prompt target granted => exact ⟨huncancelled.1, by rintro c ⟨⟩⟩
    | _ => exact huncancelled
  | failed => simp at hrun
  | restarted k ck groups _ _ =>
    rintro t ⟨⟩
  | _ => exact hu hrun

/-- Only an admission adds a batch, and only the close of a step moves the version. -/
theorem Steps.admissions {e : Event ρ} (he : e ≠ .admitted ∧ ∀ k, e ≠ .restart k)
    (hrun : s'.stopping = false) (h : Steps cfg s e s') :
    s'.admissions = s.admissions ∧ s'.sampler.dispatchIndex = s.sampler.dispatchIndex ∧
      (s'.trainerVersion = s.trainerVersion ∨
        s.train = .closing ∧ s'.trainerVersion = s.trainerVersion + 1) ∧
      s.stopping = false := by
  cases h with
  | admitted prompts _ _ => exact absurd rfl he.1
  | restarted k ck groups _ _ => exact absurd rfl (he.2 k)
  | turn i t _ hturn _ =>
    obtain ⟨_, _, hadm, hstop, _⟩ := hturn.keeps
    obtain ⟨hsampler, hv, _⟩ := hturn.frame
    refine ⟨hadm, by rw [hsampler], .inl hv, ?_⟩
    by_contra hne
    have hstop' := hstop (by simpa using hne)
    simp [hrun] at hstop'
  | waits dp phase stopping _ hi => exact ⟨rfl, rfl, .inl rfl, (hi.running hrun).1⟩
  | trained chunk dp phase stopping opened _ hi =>
    exact ⟨rfl, rfl, .inl rfl, (hi.running hrun).1⟩
  | begins checkpoints phase stopping version dispatched opened _ hb =>
    exact ⟨rfl, rfl, .inl rfl, (hb.idles.running hrun).1⟩
  | started reserve phase stopping version dispatched opened _ hb =>
    exact ⟨rfl, rfl, .inl rfl, (hb.idles.running hrun).1⟩
  | finished _ _ _ => simp [finishRun] at hrun
  | failed => simp at hrun
  | closed tasks htrain _ _ _ => exact ⟨rfl, rfl, .inr ⟨htrain, rfl⟩, hrun⟩
  | closedFrozen htrain _ =>
    exact ⟨rfl, (retune_config cfg _ _).2, .inr ⟨htrain, rfl⟩, hrun⟩
  | synced _ => exact ⟨rfl, (retune_config cfg _ _).2, .inl rfl, hrun⟩
  | _ => exact ⟨rfl, rfl, .inl rfl, hrun⟩

/-- Nothing stands for the step of a batch when it is admitted, other than
buffered groups that the launch of the batch leaves out. -/
def AdmitsClear (s : State ρ) : Event ρ → Prop
  | .admitted => ∀ step ∈ s.sampler.admitBatch.2,
      selectedFor s step = 0 ∧ slotlessFor s step = 0 ∧ s.batchShortfall step = 0 ∧
        s.rm.slots.countP (stampedFor step) ≤ match s.pump with
          | .admitting prompts => if s.draining then 0 else prompts.length
          | _ => 0
  | _ => True

instance (s : State ρ) : ∀ e, Decidable (AdmitsClear s e)
  | .admitted => inferInstanceAs (Decidable (∀ step ∈ s.sampler.admitBatch.2,
      selectedFor s step = 0 ∧ slotlessFor s step = 0 ∧ s.batchShortfall step = 0 ∧
        s.rm.slots.countP (stampedFor step) ≤ match s.pump with
          | .admitting prompts => if s.draining then 0 else prompts.length
          | _ => 0))
  | .pull _ | .endEpochs | .acquireBuffer | .acquireSem | .launch | .settle | .drain | .startTask _
  | .resumeTask _ _ | .resumeWaiting _ | .requestCancel _ | .cancelCreated _ | .cancelWaiting _
  | .cancelLaunch | .poll | .evicted | .wake | .trained _ | .closeStep | .synced | .endStep _ _
  | .snapshot | .saved | .fail | .restart _ | .restored | .acquireRestored | .startPumps =>
    inferInstanceAs (Decidable True)

/-- Every admitted step that is still to be trained on is accounted for. -/
structure Balanced (s : State ρ) : Prop where
  uncancelled : ∀ t ∈ s.tasks, t.Uncancelled
  law : ∀ a ∈ s.admissions, ∀ step ∈ a.target, s.trainerVersion ≤ step →
    ledger s step = a.batch.length

theorem countP_stampedFor (s : State ρ) (step : ℕ) :
    s.rm.plane.buffer.countForTargetStep step = s.rm.slots.countP (stampedFor step) :=
  TQReplayBuffer.countForTargetStep_eq _ _

theorem ledger_admitBatch {prompts : List ℕ} (hpump : s.pump = .admitting prompts) (step : ℕ) :
    ledger (admitBatch s prompts) step = ledger s step +
      if s.sampler.admitBatch.2 = some step then
        min (numPrompts s s.sampler.admitBatch.2 prompts.length) prompts.length else 0 := by
  have hsel : selectedFor (admitBatch s prompts) step = selectedFor s step := rfl
  have hzero : s.pump.unlaunchedFor step = 0 := by rw [hpump]; rfl
  simp only [ledger, hsel, hzero]
  simp only [admitBatch, unlaunchedFor_launchNext, List.length_take]
  omega

/-- A batch is admitted: what is buffered for its step and what is launched of
it make up the batch, and no other step is touched. -/
theorem Balanced.admitted {prompts : List ℕ} (hs : Sound cfg s) (hc : Clocked cfg s)
    (hpump : s.pump = .admitting prompts) (hadm : s.sampler.admits s.trainerVersion = true)
    (hclear : AdmitsClear s .admitted) (hb : Balanced s) : Balanced (admitBatch s prompts) := by
  refine ⟨hb.uncancelled, ?_⟩
  intro a ha step hstep hle
  rw [ledger_admitBatch hpump]
  rcases List.mem_append.mp ha with ha | ha
  · have hold := hc.admitted a ha step hstep
    have hne : s.sampler.admitBatch.2 ≠ some step := by
      intro heq
      obtain ⟨_, hnew⟩ := admitBatch_stamp hadm heq
      have hcursor := hc.cursor
      omega
    rw [if_neg hne, Nat.add_zero]
    exact hb.law a ha step hstep hle
  · obtain rfl := List.mem_singleton.mp ha
    have heq : s.sampler.admitBatch.2 = some step := hstep
    obtain ⟨h₁, h₂, h₃, h₄⟩ := hclear step heq
    rw [if_pos heq, heq, ← stepAccount_eq hs]
    have hzero : s.pump.unlaunchedFor step = 0 := by rw [hpump]; rfl
    simp only [hpump] at h₄
    simp only [stepAccount, numPrompts, countP_stampedFor, h₁, h₂, h₃, hzero]
    split_ifs at h₄ ⊢ <;> omega

theorem Steps.split {e : Event ρ} (h : Steps cfg s e s') :
    (∃ prompts, e = .admitted ∧ s.pump = .admitting prompts ∧
      s.sampler.admits s.trainerVersion = true ∧ s' = admitBatch s prompts) ∨
    (∃ k ck groups, e = .restart k ∧ ck ∈ s.checkpoints ∧
      TQReplayBuffer.preflight ck.buffer cfg.maxBufferedRollouts cfg.buffer.partitionId
        cfg.numGenerationsPerPrompt = .ok groups ∧
      s' = boot cfg s.rm.nextSerial ck.toSaveState groups s.checkpoints) ∨
    ∃ e', (e' ≠ .admitted ∧ ∀ k, e' ≠ .restart k) ∧ Steps cfg s e' s' := by
  have hother : ∀ {e' : Event ρ}, Steps cfg s e' s' → (e' ≠ .admitted ∧ ∀ k, e' ≠ .restart k) →
      ∃ e', (e' ≠ .admitted ∧ ∀ k, e' ≠ .restart k) ∧ Steps cfg s e' s' :=
    fun h he ↦ ⟨_, he, h⟩
  have hfail : (.fail : Event ρ) ≠ .admitted ∧ ∀ k, (.fail : Event ρ) ≠ .restart k := by simp
  cases h with
  | admitted prompts hpump hadm => exact .inl ⟨prompts, rfl, hpump, hadm, rfl⟩
  | restarted k ck groups hk hpre =>
    exact .inr (.inl ⟨k, ck, groups, rfl, List.mem_of_getElem? hk, hpre, rfl⟩)
  | diverted n h₁ h₂ => exact .inr (.inr (hother (.diverted n h₁ h₂) hfail))
  | pulled n h₁ h₂ => exact .inr (.inr (hother (.pulled n h₁ h₂) (by simp)))
  | settling h₁ => exact .inr (.inr (hother (.settling h₁) hfail))
  | acquiredBuffer prompts target h₁ h₂ =>
    exact .inr (.inr (hother (.acquiredBuffer prompts target h₁ h₂) hfail))
  | acquiredSem prompts target h₁ h₂ =>
    exact .inr (.inr (hother (.acquiredSem prompts target h₁ h₂) hfail))
  | launched prompt rest target h₁ =>
    exact .inr (.inr (hother (.launched prompt rest target h₁) hfail))
  | settled pump draining exhausted h₁ h₂ h₃ =>
    exact .inr (.inr (hother (.settled pump draining exhausted h₁ h₂ h₃) hfail))
  | drained h₁ h₂ h₃ => exact .inr (.inr (hother (.drained h₁ h₂ h₃) hfail))
  | turn i t h₁ h₂ h₃ => exact .inr (.inr (hother (.turn i t h₁ h₂ h₃) hfail))
  | flagged i t h₁ h₂ => exact .inr (.inr (hother (.flagged i t h₁ h₂) hfail))
  | leaked i t h₁ h₂ h₃ h₄ =>
    exact .inr (.inr (hother (.leaked i t h₁ h₂ h₃ h₄) (by simp)))
  | launchCancelled prompts target stage h₁ h₂ =>
    exact .inr (.inr (hother (.launchCancelled prompts target stage h₁ h₂) (by simp)))
  | evicts gone rm ids h₁ h₂ h₃ => exact .inr (.inr (hother (.evicts gone rm ids h₁ h₂ h₃) hfail))
  | waits dp phase stopping h₁ h₂ =>
    exact .inr (.inr (hother (.waits dp phase stopping h₁ h₂) hfail))
  | selects chunk rm h₁ h₂ h₃ => exact .inr (.inr (hother (.selects chunk rm h₁ h₂ h₃) hfail))
  | trained chunk dp phase stopping opened h₁ h₂ =>
    exact .inr (.inr (hother (.trained chunk dp phase stopping opened h₁ h₂) hfail))
  | finished h₁ h₂ h₃ => exact .inr (.inr (hother (.finished h₁ h₂ h₃) hfail))
  | closed tasks h₁ h₂ h₃ h₄ => exact .inr (.inr (hother (.closed tasks h₁ h₂ h₃ h₄) hfail))
  | closedFrozen h₁ h₂ => exact .inr (.inr (hother (.closedFrozen h₁ h₂) hfail))
  | synced h₁ => exact .inr (.inr (hother (.synced h₁) hfail))
  | saving stop h₁ => exact .inr (.inr (hother (.saving stop h₁) hfail))
  | fetching save stop h₁ => exact .inr (.inr (hother (.fetching save stop h₁) hfail))
  | begins checkpoints phase stopping version dispatched opened h₁ h₂ =>
    exact .inr (.inr (hother
      (.begins checkpoints phase stopping version dispatched opened h₁ h₂) hfail))
  | failed => exact .inr (.inr (hother .failed hfail))
  | restored g rest n reserve h₁ =>
    exact .inr (.inr (hother (.restored g rest n reserve h₁) hfail))
  | acquiredRestored n reserve h₁ h₂ =>
    exact .inr (.inr (hother (.acquiredRestored n reserve h₁ h₂) hfail))
  | started reserve phase stopping version dispatched opened h₁ h₂ =>
    exact .inr (.inr (hother
      (.started reserve phase stopping version dispatched opened h₁ h₂) hfail))

theorem Clocked.pendingFor (hc : Clocked cfg s) (h : s.admissions ≠ []) (step : ℕ) :
    s.train.pendingFor step = 0 := by
  have hrun : s.train.starting = false := by
    by_contra hstart
    exact h (hc.starting (by simpa using hstart)).2.2.1
  cases ht : s.train with
  | restoring groups n reserve =>
    rw [ht] at hrun
    cases hrun
  | _ => rfl

theorem Steps.balanced {e : Event ρ} (hs : Sound cfg s) (hp : Paced cfg s) (hc : Clocked cfg s)
    (hin : cfg.sampler.stamps = true) (hclear : AdmitsClear s e)
    (hb : s.stopping = false → Balanced s) (h : Steps cfg s e s') (hrun : s'.stopping = false) :
    Balanced s' := by
  rcases h.split with ⟨prompts, rfl, hpump, hadm, rfl⟩ | ⟨_, ck, groups, _, _, _, rfl⟩ | ⟨e', he, h'⟩
  · exact (hb hrun).admitted hs hc hpump hadm hclear
  · exact ⟨by rintro t ⟨⟩, by rintro a ⟨⟩⟩
  · obtain ⟨hsame, _, hversion, hbefore⟩ := h'.admissions he hrun
    have hbal := hb hbefore
    refine ⟨h'.uncancelled hp hin hrun fun _ ↦ hbal.uncancelled, ?_⟩
    intro a ha step hstep hv
    have heq := h'.ledger_eq hs hp hc hin hbal.uncancelled hrun he hv
    have hne' : s'.admissions ≠ [] := List.ne_nil_of_mem ha
    rw [(hc.steps_kept hs h').pendingFor hne', hc.pendingFor (hsame ▸ hne')] at heq
    have hlaw := hbal.law a (hsame ▸ ha) step hstep (by omega)
    omega

theorem clocked_fresh (cfg : Config) : Clocked cfg (fresh cfg : State ρ) := by
  refine ⟨by simp [fresh, TrainPhase.inStep], by simp [fresh, TrainPhase.between],
    fun _ ↦ ⟨rfl, rfl, rfl, rfl⟩, by simp [fresh], by simp [fresh], ?_, by rintro a ⟨⟩⟩
  have hd := (retune_config cfg (.create cfg.sampler 0) 0).2
  have hindex : (fresh cfg : State ρ).sampler.dispatchIndex = (0 : ℕ) - 1 := hd
  omega

/-- Every run keeps the clocks, and the ledger as long as each batch is
admitted to a clear step. -/
theorem balanced_of_reachable (hin : cfg.sampler.stamps = true)
    (h : ReachableBy (step cfg) (Initial cfg) AdmitsClear s) :
    Sound cfg s ∧ Paced cfg s ∧ Clocked cfg s ∧ (s.stopping = false → Balanced s) := by
  refine invariant_of_steps
    (I := fun s ↦ Paced cfg s ∧ Clocked cfg s ∧ (s.stopping = false → Balanced s))
    ⟨paced_fresh cfg, clocked_fresh cfg, fun _ ↦ ⟨by rintro t ⟨⟩, by rintro a ⟨⟩⟩⟩ trivial ?_ h
  intro s e s' hs ⟨hp, hc, hb⟩ hclear h
  exact ⟨hp.steps_kept h, hc.steps_kept hs h, h.balanced hs hp hc hin hclear hb⟩

/-- While the run goes on, the groups of a step still to be trained on are
selected, in a slot, with a task, unlaunched or given up, and a step that is
open and short of groups has one that is on its way. -/
theorem step_groups_conserved (cfg : Config) (s : State ρ) (hin : cfg.sampler.stamps = true)
    (h : ReachableBy (step cfg) (Initial cfg) AdmitsClear s) (hrun : s.stopping = false) :
    (∀ a ∈ s.admissions, ∀ step ∈ a.target, a.batch.length = cfg.numPromptsPerStep →
      s.trainerVersion ≤ step → selectedFor s step + s.rm.slots.countP (stampedFor step) +
        slotlessFor s step + s.pump.unlaunchedFor step + s.batchShortfall step =
          cfg.numPromptsPerStep) ∧
    (s.train.selecting = true → ∀ a ∈ s.admissions, s.versionDuringStep ∈ a.target →
      a.batch.length = cfg.numPromptsPerStep →
      ∀ target ∈ targetGroupsForStep cfg s s.versionDuringStep, s.groupsDispatched < target →
        0 < s.rm.slots.countP (stampedFor s.versionDuringStep) +
          slotlessFor s s.versionDuringStep + s.pump.unlaunchedFor s.versionDuringStep) := by
  obtain ⟨hs, _, hc, hb⟩ := balanced_of_reachable hin h
  have hlaw : ∀ a ∈ s.admissions, ∀ step ∈ a.target, a.batch.length = cfg.numPromptsPerStep →
      s.trainerVersion ≤ step → stepAccount s step = cfg.numPromptsPerStep := by
    intro a ha step hstep hlen hv
    rw [stepAccount_eq hs, ← hlen]
    exact (hb hrun).law a ha step hstep hv
  refine ⟨hlaw, ?_⟩
  intro hsel a ha hstep hlen target htarget hlt
  have hv := hc.inStep (TrainPhase.selecting.inStep hsel)
  have heq := hlaw a ha _ hstep hlen hv.ge
  have hhand := (TrainPhase.selecting.inHand hsel).1
  have hbound := (targetGroupsForStep_eq htarget).2
  simp only [stepAccount, selectedFor, hhand, if_pos] at heq
  omega

def Onward (_ : State ρ) (e : Event ρ) : Prop := ∀ k, e ≠ .restart k

theorem Steps.running {e : Event ρ} (he : Onward s e) (hrun : s'.stopping = false)
    (h : Steps cfg s e s') : s.stopping = false := by
  rcases h.split with ⟨prompts, rfl, _, _, rfl⟩ | ⟨k, _, _, rfl, _⟩ | ⟨e', he', h'⟩
  · exact hrun
  · exact absurd rfl (he k)
  · exact (h'.admissions he' hrun).2.2.2

/-- Nothing stands for the steps that have not been admitted. -/
structure Ahead (s : State ρ) : Prop where
  version : (s.trainerVersion : ℤ) ≤ s.sampler.dispatchIndex + 1
  clear : ∀ step : ℕ, s.sampler.dispatchIndex < step → ledger s step + s.train.pendingFor step = 0

theorem admitBatch_of_stamps {sampler : Sampler} (hin : sampler.config.stamps = true) :
    sampler.admitBatch.1.dispatchIndex = sampler.dispatchIndex + 1 ∧
      sampler.admitBatch.2 = some (sampler.dispatchIndex + 1).toNat := by
  unfold Sampler.admitBatch
  cases hcfg : sampler.config with
  | inOrder w u => exact ⟨rfl, by simp [Sampler.stamp]⟩
  | _ => simp [hcfg, SamplerConfig.stamps] at hin

theorem Ahead.admitsClear (hs : Sound cfg s) (hp : Paced cfg s) (hc : Clocked cfg s)
    (hin : cfg.sampler.stamps = true) (h : Ahead s) : AdmitsClear s .admitted := by
  intro step hstep
  have hstamp := (admitBatch_of_stamps (hp.config ▸ hin)).2.symm.trans hstep
  obtain rfl := Option.some.inj hstamp
  have hcursor := hc.cursor
  have hzero := h.clear (s.sampler.dispatchIndex + 1).toNat (by omega)
  rw [← stepAccount_eq hs] at hzero
  simp only [stepAccount] at hzero
  refine ⟨?_, ?_, ?_, ?_⟩ <;> omega

theorem Steps.ahead {e : Event ρ} (hs : Sound cfg s) (hp : Paced cfg s) (hc : Clocked cfg s)
    (hin : cfg.sampler.stamps = true) (hpos : 0 < cfg.numPromptsPerStep) (he : Onward s e)
    (hb : s.stopping = false → Balanced s ∧ Ahead s) (h : Steps cfg s e s')
    (hrun : s'.stopping = false) : Ahead s' := by
  rcases h.split with ⟨prompts, rfl, hpump, hadm, rfl⟩ | ⟨k, _, _, rfl, _⟩ | ⟨e', he', h'⟩
  · obtain ⟨_, ha⟩ := hb hrun
    obtain ⟨hnext, hstamp⟩ := admitBatch_of_stamps
      (hp.config ▸ hin : s.sampler.config.stamps = true)
    have hversion := ha.version
    refine ⟨?_, fun step hstep ↦ ?_⟩
    · simp only [admitBatch, hnext]
      omega
    · have hlt : s.sampler.dispatchIndex + 1 < step := by simpa [admitBatch, hnext] using hstep
      have hzero := ha.clear step (by omega)
      have hne : s.sampler.admitBatch.2 ≠ some step := by
        rw [hstamp]
        intro heq
        have hval := Option.some.inj heq
        omega
      rw [ledger_admitBatch hpump, if_neg hne]
      exact hzero
  · exact absurd rfl (he k)
  · obtain ⟨_, hcursor, hversion, hbefore⟩ := h'.admissions he' hrun
    obtain ⟨hbal, ha⟩ := hb hbefore
    have hle : (s'.trainerVersion : ℤ) ≤ s'.sampler.dispatchIndex + 1 := by
      have hahead := ha.version
      rw [hcursor]
      rcases hversion with hv | ⟨htrain, hv⟩
      · omega
      · -- a step that has not been admitted has no group to be closed with
        by_contra hlt
        have hclose := hc.closing htrain
        have hstep := hc.inStep (by rw [htrain]; rfl)
        have hzero := ha.clear s.versionDuringStep (by omega)
        simp only [ledger, selectedFor, if_pos] at hzero
        omega
    refine ⟨hle, fun step hstep ↦ ?_⟩
    rw [hcursor] at hstep hle
    rw [h'.ledger_eq hs hp hc hin hbal.uncancelled hrun he' (by omega)]
    exact ha.clear step hstep

theorem ahead_fresh (cfg : Config) : Ahead (fresh cfg : State ρ) := by
  have hindex : (fresh cfg : State ρ).sampler.dispatchIndex = (0 : ℕ) - 1 :=
    (retune_config cfg (.create cfg.sampler 0) 0).2
  refine ⟨?_, fun step _ ↦ ?_⟩
  · rw [hindex]
    simp [fresh, boot]
  · simp only [ledger, selectedFor]
    split_ifs <;> rfl

theorem admits_clear_of_fresh (hin : cfg.sampler.stamps = true)
    (hpos : 0 < cfg.numPromptsPerStep) (h : ReachableBy (step cfg) (Initial cfg) Onward s) :
    Sound cfg s ∧ Paced cfg s ∧ Clocked cfg s ∧
      (s.stopping = false → Balanced s ∧ AdmitsClear s .admitted) := by
  have hinv := invariant_of_steps (I := fun s ↦ Paced cfg s ∧ Clocked cfg s ∧
      (s.stopping = false → Balanced s ∧ Ahead s))
    ⟨paced_fresh cfg, clocked_fresh cfg, fun _ ↦ ⟨⟨by rintro t ⟨⟩, by rintro a ⟨⟩⟩, ahead_fresh cfg⟩⟩
    (by rintro k ⟨⟩) ?_ h
  · obtain ⟨hs, hp, hc, hb⟩ := hinv
    exact ⟨hs, hp, hc, fun hrun ↦ ⟨(hb hrun).1, (hb hrun).2.admitsClear hs hp hc hin⟩⟩
  · intro s e s' hs ⟨hp, hc, hb⟩ he h
    refine ⟨hp.steps_kept h, hc.steps_kept hs h, fun hrun ↦
      ⟨?_, h.ahead hs hp hc hin hpos he hb hrun⟩⟩
    have hbefore := h.running he hrun
    have hclear : AdmitsClear s e := by
      cases e with
      | admitted => exact (hb hbefore).2.admitsClear hs hp hc hin
      | _ => trivial
    exact h.balanced hs hp hc hin hclear (fun hr ↦ (hb hr).1) hrun

theorem sparePool_fraction_pos : (0 : ℚ) < 1 / 2 := by norm_num

theorem sparePool_warmup : ∀ w ∈ (SamplerConfig.inOrder 1 none).warmupLookaheadVersions,
    Sampler.steadyWindow (.inOrder 1 none) ≤ w ∧ false = true ∧ 0 < 0 := by decide

def sparePool : Config where
  buffer := ⟨"rollout", false, none⟩
  policy := ⟨1, 1, 1, 1, Nat.one_pos, Nat.one_pos⟩
  sampler := .inOrder 1 none
  numPromptsPerStep := 2
  numGenerationsPerPrompt := 1
  maxNumSteps := 4
  maxBufferedRollouts := 4
  maxInflightPrompts := 4
  minGroupsForStreamingTrain := 1
  isPpo := false
  policyTrainingStartStep := 0
  useNemoGym := false
  replace := true
  maxReplacementAttempts := 1
  replacementReservePrompts := 1
  minStepBatchFraction := 1 / 2
  groups_le := Nat.two_pos
  fraction_pos := sparePool_fraction_pos
  capacity := by decide
  unstamped := by decide
  warmup := sparePool_warmup
  ppo := by decide

/-- The first batch is admitted, the second becomes the spare pool, the third is
admitted, and one of its prompts is in flight while the train pump waits for step 0. -/
def spareRun : List (Event Unit) :=
  [.pull 2, .admitted] ++ generated 0 ++ generated 0 ++ [.pull 2, .pull 2, .admitted,
    .acquireBuffer, .acquireSem, .launch, .startTask 0]

theorem spareRun_ends :
    (execBy (step sparePool) AdmitsClear (init sparePool) spareRun).isSome := by
  decide +kernel

def spareState : State Unit :=
  (execBy (step sparePool) AdmitsClear (init sparePool) spareRun).get spareRun_ends

theorem step_groups_conserved_spare :
    (∀ a ∈ spareState.admissions, ∀ step ∈ a.target, a.batch.length = 2 →
      spareState.trainerVersion ≤ step → selectedFor spareState step +
        spareState.rm.slots.countP (stampedFor step) + slotlessFor spareState step +
          spareState.pump.unlaunchedFor step + spareState.batchShortfall step = 2) ∧
    (spareState.train.selecting = true → ∀ a ∈ spareState.admissions,
      spareState.versionDuringStep ∈ a.target → a.batch.length = 2 →
      ∀ target ∈ targetGroupsForStep sparePool spareState spareState.versionDuringStep,
      spareState.groupsDispatched < target →
        0 < spareState.rm.slots.countP (stampedFor spareState.versionDuringStep) +
          slotlessFor spareState spareState.versionDuringStep +
          spareState.pump.unlaunchedFor spareState.versionDuringStep) :=
  step_groups_conserved sparePool spareState rfl
    (.run (initial_init sparePool) spareRun spareRun_ends) (by decide +kernel)

/-- Step 0 is trained on and saved with the two groups of step 1 buffered; the
resumed process has no batch left and admits the spare pool as step 1. -/
def drainedRun : List (Event Unit) :=
  [.pull 2, .admitted] ++ generated 0 ++ generated 0 ++ [.pull 2, .pull 2, .admitted] ++
  generated 0 ++ generated 0 ++
  [.poll, .trained true, .closeStep, .synced, .endStep true false, .snapshot, .saved,
    .restart 0, .restored, .restored, .acquireRestored, .startPumps,
    .endEpochs, .settle, .drain, .admitted]

theorem drainedRun_ends : (exec (step sparePool) (init sparePool) drainedRun).isSome := by
  decide +kernel

/-- The spare pool is launched whole into a step whose groups are all buffered. -/
theorem drained_step_exceeds_batch :
    ¬ ∀ (cfg : Config) (s : State Unit), cfg.sampler.stamps = true →
      Reachable (step cfg) (Initial cfg) s → s.stopping = false →
      ∀ a ∈ s.admissions, ∀ step ∈ a.target, a.batch.length = cfg.numPromptsPerStep →
        s.trainerVersion ≤ step → selectedFor s step + s.rm.slots.countP (stampedFor step) +
          slotlessFor s step + s.pump.unlaunchedFor step + s.batchShortfall step =
            cfg.numPromptsPerStep := by
  intro h
  have hlaw := h sparePool _ rfl (.run (initial_init sparePool) drainedRun drainedRun_ends)
    (by decide +kernel) ⟨some 1, [2, 3], [2, 3]⟩ (by decide +kernel) 1 rfl rfl (by decide +kernel)
  revert hlaw
  decide +kernel

end NemoRL.SingleController
