import Mathlib
import NemoRL.SingleController.Permits

namespace NemoRL.SingleController

open DataPlane AsyncUtils Experience Experience.RolloutManager
open Foundations Foundations.Positions Foundations.Transition

variable {ρ : Type} {cfg : Config} {s s' : State ρ}

/-- The last step a group started at a version may be trained in. -/
def reach (cfg : Config) (version : ℕ) : ℕ :=
  max version (policyStart cfg) + Sampler.steadyWindow cfg.sampler

theorem reach_mono (cfg : Config) {v w : ℕ} (h : v ≤ w) : reach cfg v ≤ reach cfg w := by
  simp only [reach]
  omega

/-- How the versions, the gate window and the dispatch cursor keep pace. -/
structure Paced (cfg : Config) (s : State ρ) : Prop where
  config : s.sampler.config = cfg.sampler
  steps : s.trainSteps = s.trainerVersion
  window : s.trainerVersion + s.sampler.gateWindow ≤ reach cfg s.trainerVersion
  steady : policyStart cfg ≤ s.trainerVersion →
    s.sampler.gateWindow = Sampler.steadyWindow cfg.sampler
  cursor : s.sampler.dispatchIndex ≤ reach cfg s.trainerVersion
  weights : s.rolloutPermitted = true ∧ s.rm.weightVersion = s.trainerVersion ∨
    s.train = .syncing ∧ s.rolloutPermitted = false ∧
      s.trainerVersion = s.rm.weightVersion + 1
  launching : ∀ prompts target stage, s.pump = .launching prompts (some target) stage →
    target ≤ reach cfg s.trainerVersion ∧
      (stage = .permitted true → target ≤ reach cfg s.rm.weightVersion)

/-- The retuned window stays within reach of the version it is computed for. -/
theorem retune_window (cfg : Config) (sampler : Sampler) (version : ℕ)
    (h : cfg.isPpo = false → sampler.gateWindow = Sampler.steadyWindow cfg.sampler) :
    version + (retuneLookaheadVersions cfg sampler version).gateWindow ≤ reach cfg version ∧
      (policyStart cfg ≤ version → (retuneLookaheadVersions cfg sampler version).gateWindow =
        Sampler.steadyWindow cfg.sampler) := by
  simp only [retuneLookaheadVersions, reach, policyStart]
  cases hppo : cfg.isPpo with
  | false =>
    have hw := h hppo
    simp only [Bool.false_eq_true, if_false]
    exact ⟨by omega, fun _ ↦ hw⟩
  | true =>
    simp only [if_true, Sampler.setGateWindow, lookaheadVersions]
    cases cfg.sampler.warmupLookaheadVersions with
    | none => exact ⟨by simp only; omega, fun _ ↦ rfl⟩
    | some warmup =>
      simp only
      split_ifs with hge
      · exact ⟨by omega, fun _ ↦ rfl⟩
      · exact ⟨by omega, fun h ↦ by omega⟩

theorem retune_config (cfg : Config) (sampler : Sampler) (version : ℕ) :
    (retuneLookaheadVersions cfg sampler version).config = sampler.config ∧
      (retuneLookaheadVersions cfg sampler version).dispatchIndex = sampler.dispatchIndex := by
  unfold retuneLookaheadVersions
  split_ifs <;> exact ⟨rfl, rfl⟩

namespace Paced

theorem synced (hp : Paced cfg s) (h : s.train ≠ .syncing) :
    s.rolloutPermitted = true ∧ s.rm.weightVersion = s.trainerVersion :=
  hp.weights.resolve_right fun hs ↦ h hs.1

theorem weight_le (hp : Paced cfg s) : s.rm.weightVersion ≤ s.trainerVersion := by
  rcases hp.weights with ⟨_, h⟩ | ⟨_, _, h⟩ <;> omega

theorem train (hp : Paced cfg s) (h : s.train ≠ .syncing) (hs : s'.sampler = s.sampler)
    (hv : s'.trainerVersion = s.trainerVersion) (hn : s'.trainSteps = s.trainSteps)
    (hr : s'.rolloutPermitted = s.rolloutPermitted)
    (hw : s'.rm.weightVersion = s.rm.weightVersion) (hpump : s'.pump = s.pump) :
    Paced cfg s' := by
  have hl := hp.launching
  rw [← hpump, ← hv, ← hw] at hl
  have hsync := hp.synced h
  rw [← hr, ← hw, ← hv] at hsync
  obtain ⟨h₁, h₂, h₃, h₄, h₅, _, _⟩ := hp
  rw [← hs] at h₁ h₃ h₄ h₅
  rw [← hv] at h₂ h₃ h₄ h₅
  rw [← hn] at h₂
  exact ⟨h₁, h₂, h₃, h₄, h₅, .inl hsync, hl⟩

theorem pump (hp : Paced cfg s) (hs : s'.sampler = s.sampler)
    (hv : s'.trainerVersion = s.trainerVersion) (hn : s'.trainSteps = s.trainSteps)
    (hr : s'.rolloutPermitted = s.rolloutPermitted) (ht : s'.train = s.train)
    (hw : s'.rm.weightVersion = s.rm.weightVersion)
    (hl : ∀ prompts target stage, s'.pump = .launching prompts (some target) stage →
      target ≤ reach cfg s.trainerVersion ∧
        (stage = .permitted true → target ≤ reach cfg s.rm.weightVersion)) :
    Paced cfg s' := by
  obtain ⟨h₁, h₂, h₃, h₄, h₅, h₆, _⟩ := hp
  rw [← hs] at h₁ h₃ h₄ h₅
  rw [← hv] at h₂ h₃ h₄ h₅ h₆ hl
  rw [← hn] at h₂
  rw [← hr, ← hw, ← ht] at h₆
  rw [← hw] at hl
  exact ⟨h₁, h₂, h₃, h₄, h₅, h₆, hl⟩

end Paced

theorem admitBatch_stamp {sampler : Sampler} {version t : ℕ}
    (ha : sampler.admits version = true) (ht : sampler.admitBatch.2 = some t) :
    (t : ℤ) ≤ version + sampler.gateWindow ∧ t = (sampler.dispatchIndex + 1).toNat := by
  unfold Sampler.admitBatch at ht
  unfold Sampler.admits at ha
  cases hc : sampler.config with
  | windowed w b => simp [hc] at ht
  | readyFirst w => simp [hc, Sampler.stamp] at ht
  | weightFifo w => simp [hc, Sampler.stamp] at ht
  | inOrder w u =>
    simp only [hc, Sampler.stamp, Option.some.injEq] at ht
    simp only [hc, decide_eq_true_eq] at ha
    subst ht
    exact ⟨by omega, rfl⟩

theorem admitBatch_fields {sampler : Sampler} {version : ℕ} (ha : sampler.admits version = true) :
    sampler.admitBatch.1.config = sampler.config ∧
    sampler.admitBatch.1.gateWindow = sampler.gateWindow ∧
    (sampler.admitBatch.1.dispatchIndex = sampler.dispatchIndex ∨
      sampler.admitBatch.1.dispatchIndex = sampler.dispatchIndex + 1 ∧
        sampler.dispatchIndex < version + sampler.gateWindow) := by
  unfold Sampler.admitBatch
  unfold Sampler.admits at ha
  cases hc : sampler.config with
  | windowed w b => exact ⟨hc, rfl, .inl rfl⟩
  | _ =>
    simp only [hc, decide_eq_true_eq] at ha
    exact ⟨rfl, rfl, .inr ⟨rfl, ha⟩⟩

theorem launchNext_eq {prompts qs : List ℕ} {target t : Option ℕ} {stage : LaunchStage}
    (h : launchNext prompts target = .launching qs t stage) :
    qs = prompts ∧ t = target ∧ stage = .buffer := by
  unfold launchNext at h
  split_ifs at h
  obtain ⟨rfl, rfl, rfl⟩ := PumpPhase.launching.inj h
  exact ⟨rfl, rfl, rfl⟩

theorem Turn.frame {i : ℕ} {t : Task ρ} (h : Turn cfg s i t s') :
    s'.sampler = s.sampler ∧ s'.trainerVersion = s.trainerVersion ∧
    s'.trainSteps = s.trainSteps ∧ s'.rolloutPermitted = s.rolloutPermitted ∧
    s'.train = s.train ∧ s'.rm.weightVersion = s.rm.weightVersion ∧ s'.pump = s.pump ∧
    s'.selected = s.selected ∧ s'.checkpoints = s.checkpoints := by
  cases h with
  | moved rm t' _ hr => exact ⟨rfl, rfl, rfl, rfl, rfl, hr.weightVersion, rfl, rfl, rfl⟩
  | committed rm x m e counts _ hr =>
    exact ⟨rfl, rfl, rfl, rfl, rfl, hr.weightVersion, rfl, rfl, rfl⟩
  | shortened rm _ hr => exact ⟨rfl, rfl, rfl, rfl, rfl, hr.weightVersion, rfl, rfl, rfl⟩
  | replaced rm t' reserve _ _ hr =>
    exact ⟨rfl, rfl, rfl, rfl, rfl, hr.weightVersion, rfl, rfl, rfl⟩
  | promoted rm t' reserve step lender x rest counts _ _ _ _ _ _ hr =>
    exact ⟨rfl, rfl, rfl, rfl, rfl, hr.weightVersion, rfl, rfl, rfl⟩
  | ended rm stopping _ hr => exact ⟨rfl, rfl, rfl, rfl, rfl, hr.weightVersion, rfl, rfl, rfl⟩

theorem Paced.boot (cfg : Config) (n : ℕ) (save : SaveState) (groups : List (SavedGroup ρ))
    (checkpoints : List (Checkpoint ρ)) : Paced cfg (boot cfg n save groups checkpoints) := by
  obtain ⟨hwindow, hsteady⟩ := retune_window cfg (.create cfg.sampler save.currentStep)
    save.currentStep fun _ ↦ rfl
  obtain ⟨hconfig, hindex⟩ := retune_config cfg (.create cfg.sampler save.currentStep)
    save.currentStep
  refine ⟨hconfig, rfl, hwindow, hsteady, ?_, .inl ⟨rfl, rfl⟩, ?_⟩
  · have hd : (SingleController.boot cfg n save groups checkpoints).sampler.dispatchIndex =
        save.currentStep - 1 := hindex
    rw [hd]
    simp only [SingleController.boot, reach]
    omega
  · rintro prompts target stage ⟨⟩

theorem Paced.closed_window (hp : Paced cfg s) (h : policyStart cfg ≤ s.trainSteps) :
    s.trainerVersion + 1 + s.sampler.gateWindow ≤ reach cfg (s.trainerVersion + 1) ∧
      s.sampler.gateWindow = Sampler.steadyWindow cfg.sampler := by
  have hw := hp.steady (hp.steps ▸ h)
  refine ⟨?_, hw⟩
  simp only [reach]
  omega

theorem Paced.not_ppo (hp : Paced cfg s) (h : cfg.isPpo = false) :
    s.sampler.gateWindow = Sampler.steadyWindow cfg.sampler :=
  hp.steady (by simp [policyStart, h])

theorem Paced.settle {n : ℕ} (hc : s.sampler.config = cfg.sampler) (hn : n = s.trainerVersion)
    (hppo : cfg.isPpo = false → s.sampler.gateWindow = Sampler.steadyWindow cfg.sampler)
    (hd : s.sampler.dispatchIndex ≤ reach cfg s.trainerVersion) (hr : s.rolloutPermitted = true)
    (hsteps : s.trainSteps = n)
    (hl : ∀ prompts target stage, s.pump = .launching prompts (some target) stage →
      target ≤ reach cfg s.trainerVersion) : Paced cfg (settleStep cfg s) := by
  obtain ⟨hwindow, hsteady⟩ := retune_window cfg s.sampler s.trainerVersion hppo
  obtain ⟨hconfig, hindex⟩ := retune_config cfg s.sampler s.trainerVersion
  exact ⟨hconfig.trans hc, hsteps.trans hn, hwindow, hsteady, hindex ▸ hd, .inl ⟨hr, rfl⟩,
    fun prompts target stage h ↦ ⟨hl prompts target stage h, fun _ ↦ hl prompts target stage h⟩⟩

theorem Paced.steps_kept {e : Event ρ} (hp : Paced cfg s)
    (h : Steps cfg s e s') : Paced cfg s' := by
  have hreach := reach_mono cfg (Nat.le_add_right s.trainerVersion 1)
  cases h with
  | diverted n hpump _ => exact hp.pump rfl rfl rfl rfl rfl rfl hp.launching
  | pulled n hpump _ => exact hp.pump rfl rfl rfl rfl rfl rfl (by simp)
  | settling hpump => exact hp.pump rfl rfl rfl rfl rfl rfl (by simp)
  | admitted prompts hpump hadm =>
    obtain ⟨hc, hg, hd⟩ := admitBatch_fields hadm
    have hwindow := hp.window
    have hcursor := hp.cursor
    refine ⟨hc.trans hp.config, hp.steps, ?_, fun h ↦ hg.trans (hp.steady h), ?_, hp.weights, ?_⟩
    · simp only [admitBatch, hg]
      exact hp.window
    · simp only [admitBatch]
      rcases hd with hd | ⟨hd, hlt⟩ <;> rw [hd] <;> omega
    · intro ps target stage hl
      obtain ⟨_, htarget, rfl⟩ := launchNext_eq hl
      obtain ⟨hstamp, _⟩ := admitBatch_stamp hadm htarget.symm
      refine ⟨?_, by simp⟩
      simp only [admitBatch]
      omega
  | acquiredBuffer prompts target hpump _ =>
    refine hp.pump rfl rfl rfl rfl rfl rfl ?_
    rintro ps t stage ⟨⟩
    exact ⟨(hp.launching _ _ _ hpump).1, by simp⟩
  | acquiredSem prompts target hpump _ =>
    refine hp.pump rfl rfl rfl rfl rfl rfl ?_
    rintro ps t stage ⟨⟩
    have hl := (hp.launching _ _ _ hpump).1
    refine ⟨hl, fun hperm ↦ ?_⟩
    rcases hp.weights with ⟨_, hw⟩ | ⟨_, hfalse, _⟩
    · rwa [hw]
    · simp [hfalse] at hperm
  | launched prompt rest target hpump =>
    refine hp.pump rfl rfl rfl rfl rfl rfl ?_
    intro ps t stage hl
    obtain ⟨_, rfl, rfl⟩ := launchNext_eq hl
    exact ⟨(hp.launching _ _ _ hpump).1, by simp⟩
  | settled pump draining exhausted hpump _ hfrom =>
    refine hp.pump rfl rfl rfl rfl rfl rfl ?_
    rcases hfrom with ⟨rfl, _⟩ | ⟨rfl, _⟩ <;> simp
  | drained hpump _ _ => exact hp.pump rfl rfl rfl rfl rfl rfl (by simp)
  | turn i t hi hturn _ =>
    obtain ⟨h₁, h₂, h₃, h₄, h₅, h₆, h₇, _, _⟩ := hturn.frame
    exact hp.pump h₁ h₂ h₃ h₄ h₅ h₆ (h₇ ▸ hp.launching)
  | flagged i t _ hi => exact hp.pump rfl rfl rfl rfl rfl rfl hp.launching
  | leaked i t _ _ _ _ => exact hp.pump rfl rfl rfl rfl rfl rfl hp.launching
  | launchCancelled prompts target stage hpump _ =>
    exact hp.pump rfl rfl rfl rfl rfl rfl (by simp)
  | evicts gone rm ids htrain hev _ =>
    exact hp.train (by simp [htrain]) rfl rfl rfl rfl hev.weightVersion rfl
  | waits dp phase stopping hsel hi =>
    refine hp.train ?_ rfl rfl rfl rfl rfl rfl
    intro h
    simp [h, TrainPhase.selecting] at hsel
  | selects chunk rm hsel _ hch =>
    refine hp.train ?_ rfl rfl rfl rfl hch.weightVersion rfl
    intro h
    simp [h, TrainPhase.selecting] at hsel
  | trained chunk dp phase stopping opened htrain hi =>
    exact hp.train (by simp [htrain]) rfl rfl rfl rfl rfl rfl
  | finished _ _ hne => exact hp.train hne rfl rfl rfl rfl rfl rfl
  | closed tasks htrain hpolicy hflag _ =>
    obtain ⟨hwindow, hsteady⟩ := hp.closed_window hpolicy
    obtain ⟨_, hw⟩ := hp.synced (by simp [htrain])
    have hcursor := hp.cursor
    have hsteps := hp.steps
    refine ⟨hp.config, ?_, hwindow, fun _ ↦ hsteady, ?_, .inr ⟨rfl, rfl, ?_⟩, ?_⟩
    · simp only [advanceVersion]
      omega
    · simp only [advanceVersion]
      omega
    · simp only [advanceVersion]
      omega
    · intro ps t stage hl
      obtain ⟨h₁, h₂⟩ := hp.launching ps t stage hl
      refine ⟨?_, h₂⟩
      simp only [advanceVersion]
      omega
  | closedFrozen htrain _ =>
    obtain ⟨hr, _⟩ := hp.synced (by simp [htrain])
    have hcursor := hp.cursor
    have hsteps := hp.steps
    refine Paced.settle (n := s.trainerVersion + 1) hp.config rfl hp.not_ppo ?_ hr ?_ ?_
    · simp only [advanceVersion]
      omega
    · simp only [advanceVersion]
      omega
    · intro ps t stage hl
      have h₁ := (hp.launching ps t stage hl).1
      simp only [advanceVersion]
      omega
  | synced htrain =>
    refine Paced.settle (n := s.trainerVersion) hp.config rfl hp.not_ppo hp.cursor rfl hp.steps ?_
    intro ps t stage hl
    simp only [permit, PumpPhase.granted] at hl
    split at hl
    · rename_i prompts target granted hpump
      obtain ⟨rfl, rfl, rfl⟩ := PumpPhase.launching.inj hl
      exact (hp.launching _ _ _ hpump).1
    · exact (hp.launching _ _ _ hl).1
  | saving stop htrain => exact hp.train (by simp [htrain]) rfl rfl rfl rfl rfl rfl
  | fetching save stop htrain => exact hp.train (by simp [htrain]) rfl rfl rfl rfl rfl rfl
  | begins checkpoints phase stopping version dispatched opened hfrom hb =>
    have hi := hb.idles
    refine hp.train ?_ rfl rfl rfl rfl rfl rfl
    rcases hfrom with ⟨htrain, _⟩ | ⟨_, _, _, _, htrain, _⟩ <;> simp [htrain]
  | failed => exact hp.pump rfl rfl rfl rfl rfl rfl hp.launching
  | restarted k ck groups _ _ => exact Paced.boot cfg _ _ _ _
  | restored g rest n reserve htrain =>
    exact hp.train (by simp [htrain]) rfl rfl rfl rfl rfl rfl
  | acquiredRestored n reserve htrain hle =>
    exact hp.train (by simp [htrain]) rfl rfl rfl rfl rfl rfl
  | started reserve phase stopping version dispatched opened htrain hb =>
    have hi := hb.idles
    have hsync := hp.synced (by simp [htrain])
    exact ⟨hp.config, hp.steps, hp.window, hp.steady, hp.cursor, .inl hsync, by simp⟩

/-- A group started no later than a version, for a step within its reach. -/
def Timely (cfg : Config) (version : ℕ) (x : Slot) : Prop :=
  x.startWeight ≤ version ∧ ∀ t ∈ x.targetStep, t ≤ reach cfg x.startWeight

theorem Timely.mono {v w : ℕ} {x : Slot} (h : Timely cfg v x) (hvw : v ≤ w) : Timely cfg w x :=
  ⟨h.1.trans hvw, h.2⟩

/-- Every group of a run is within reach of the step it is stamped for. -/
structure Punctual (cfg : Config) (s : State ρ) : Prop where
  ready : ∀ x ∈ readySlots s.rm, Timely cfg s.rm.weightVersion x
  held : ∀ t ∈ s.tasks, ∀ x ∈ t.held, Timely cfg s.rm.weightVersion x
  aimed : ∀ t ∈ s.tasks, ∀ step ∈ t.target, step ≤ reach cfg s.rm.weightVersion
  restoring : ∀ groups n reserve, s.train = .restoring groups n reserve →
    ∀ g ∈ groups, Timely cfg s.rm.weightVersion g.toSlot
  saving : ∀ save stop, s.train = .saving save stop → save.currentStep = s.rm.weightVersion
  fetching : ∀ save slots stop, s.train = .fetching save slots stop →
    ∀ x ∈ slots, Timely cfg save.currentStep x
  saved : ∀ ck ∈ s.checkpoints, ∀ groups, ck.buffer = Envelope.ofSaved cfg.buffer.partitionId
    cfg.maxBufferedRollouts groups → ∀ g ∈ groups, Timely cfg ck.currentStep g.toSlot
  selected : ∀ p ∈ s.selected, p.2.startWeight ≤ p.1 ∧ (cfg.sampler.stamps = true →
    p.2.targetStep = some p.1 ∧ p.1 ≤ reach cfg p.2.startWeight)

theorem timely_filled {v : ℕ} {x : Slot} (h : Timely cfg v x) (m : KVBatchMeta) (e : ℕ) :
    Timely cfg v (x.filled m e) := h

theorem timely_restamped {v step lender : ℕ} {x : Slot} (h : Timely cfg v x)
    (hl : TQReplayBuffer.Lends step x lender) : Timely cfg v (x.restamped step) := by
  obtain ⟨_, htarget, hlt⟩ := hl
  refine ⟨h.1, ?_⟩
  rintro t ⟨⟩
  exact hlt.le.trans (h.2 lender htarget)

theorem timely_held {w : ℕ} {t : Task ρ} {x : Slot} (hx : x ∈ t.held) (hw : x.startWeight = w)
    (ht : ∀ step ∈ t.target, step ≤ reach cfg w) : Timely cfg w x := by
  refine ⟨hw.le, fun step hstep ↦ ?_⟩
  rw [hw]
  exact ht step (Task.targetStep_held hx ▸ hstep)

namespace Punctual

theorem set_tasks {i : ℕ} {t t' : Task ρ} {P : Task ρ → Prop} (h : ∀ u ∈ s.tasks, P u)
    (hi : s.tasks[i]? = some t) (ht' : P t') : ∀ u ∈ s.tasks.set i t', P u := by
  intro u hu
  rcases (Pool.mem_set hi).mp hu with rfl | hu
  · exact ht'
  · exact h u (Pool.mem_of_eraseIdx hu)

/-- A turn of a task, from what it does to the tasks and the ready slots. -/
theorem tasks (hs : Sound cfg s) (hp : Punctual cfg s) (hne : s.tasks ≠ [])
    (hf : s'.train = s.train ∧ s'.rm.weightVersion = s.rm.weightVersion ∧
      s'.selected = s.selected ∧ s'.checkpoints = s.checkpoints)
    (hready : ∀ x ∈ readySlots s'.rm, Timely cfg s.rm.weightVersion x)
    (htasks : ∀ t ∈ s'.tasks, (∀ x ∈ t.held, Timely cfg s.rm.weightVersion x) ∧
      ∀ step ∈ t.target, step ≤ reach cfg s.rm.weightVersion) : Punctual cfg s' := by
  obtain ⟨ht, hw, hsel, hc⟩ := hf
  have hrun := hs.running (.inl hne)
  refine ⟨?_, ?_, ?_, ?_, ?_, ?_, ?_, ?_⟩
  · rw [hw]
    exact hready
  · rw [hw]
    exact fun t h ↦ (htasks t h).1
  · rw [hw]
    exact fun t h ↦ (htasks t h).2
  · intro groups n reserve h
    rw [← ht, h] at hrun
    simp [TrainPhase.starting] at hrun
  · rw [ht, hw]
    exact hp.saving
  · rw [ht]
    exact hp.fetching
  · rw [hc]
    exact hp.saved
  · rw [hsel]
    exact hp.selected

theorem turn {i : ℕ} {t : Task ρ} (hs : Sound cfg s) (hp : Punctual cfg s)
    (hi : s.tasks[i]? = some t) (h : Turn cfg s i t s') : Punctual cfg s' := by
  have hne : s.tasks ≠ [] := by
    intro h
    simp [h] at hi
  have hmem := List.mem_of_getElem? hi
  obtain ⟨_, _, _, _, ht, hw, _, hsel, hc⟩ := h.frame
  have hframe := And.intro ht (And.intro hw (And.intro hsel hc))
  have hall : ∀ u ∈ s.tasks, (∀ x ∈ u.held, Timely cfg s.rm.weightVersion x) ∧
      ∀ step ∈ u.target, step ≤ reach cfg s.rm.weightVersion :=
    fun u hu ↦ ⟨hp.held u hu, hp.aimed u hu⟩
  cases h with
  | moved rm t' hf hr =>
    refine hp.tasks hs hne hframe (fun x hx ↦ hp.ready x (hr.slots.mem_iff.mp hx)) ?_
    have haimed : ∀ step ∈ t'.target, step ≤ reach cfg s.rm.weightVersion := by
      rw [hf.target]
      exact hp.aimed t hmem
    refine set_tasks hall hi ⟨fun x hx ↦ ?_, haimed⟩
    rcases hf.held x hx with hold | hnew
    · exact hp.held t hmem x hold
    · exact timely_held hx hnew haimed
  | committed rm x m e counts hx hr =>
    refine hp.tasks hs hne hframe (fun y hy ↦ ?_) fun u hu ↦ hall u (Pool.mem_of_eraseIdx hu)
    rcases List.mem_cons.mp (hr.slots.mem_iff.mp hy) with rfl | hy
    · exact timely_filled (hp.held t hmem x hx) m e
    · exact hp.ready y hy
  | shortened rm _ hr =>
    exact hp.tasks hs hne hframe (fun x hx ↦ hp.ready x (hr.slots.mem_iff.mp hx))
      fun u hu ↦ hall u (Pool.mem_of_eraseIdx hu)
  | replaced rm t' reserve hsub htarget hr =>
    refine hp.tasks hs hne hframe (fun x hx ↦ hp.ready x (hr.slots.mem_iff.mp hx)) ?_
    have haimed : ∀ step ∈ t'.target, step ≤ reach cfg s.rm.weightVersion := by
      rw [htarget]
      exact hp.aimed t hmem
    exact set_tasks hall hi ⟨fun x hx ↦ timely_held hx (hsub.held x hx) haimed, haimed⟩
  | promoted rm t' reserve step lender x rest counts hsub _ _ hlender hlend hx hr =>
    have hxmem : x ∈ readySlots s.rm := hx.mem_iff.mpr (by simp)
    have hxt := hp.ready x hxmem
    refine hp.tasks hs hne hframe (fun y hy ↦ ?_) ?_
    · rcases List.mem_cons.mp (hr.slots.mem_iff.mp hy) with rfl | hy
      · exact timely_restamped hxt hlend
      · exact hp.ready y (hx.mem_iff.mpr (List.mem_cons_of_mem _ hy))
    · have haimed : ∀ step ∈ t'.target, step ≤ reach cfg s.rm.weightVersion := by
        rw [hlender]
        rintro _ ⟨⟩
        exact (hxt.2 lender hlend.2.1).trans (reach_mono cfg hxt.1)
      exact set_tasks hall hi ⟨fun y hy ↦ timely_held hy (hsub.held y hy) haimed, haimed⟩
  | ended rm stopping _ hr =>
    exact hp.tasks hs hne hframe (fun x hx ↦ hp.ready x (hr.slots.mem_iff.mp hx))
      fun u hu ↦ hall u (Pool.mem_of_eraseIdx hu)

theorem train (hp : Punctual cfg s) (hw : s'.rm.weightVersion = s.rm.weightVersion)
    (hready : ∀ x ∈ readySlots s'.rm, x ∈ readySlots s.rm)
    (htasks : ∀ t ∈ s'.tasks, ∃ u ∈ s.tasks, t.held = u.held ∧ t.target = u.target)
    (hrest : ∀ groups n reserve, s'.train = .restoring groups n reserve →
      ∀ g ∈ groups, Timely cfg s.rm.weightVersion g.toSlot)
    (hsave : ∀ save stop, s'.train = .saving save stop →
      save.currentStep = s.rm.weightVersion)
    (hfetch : ∀ save slots stop, s'.train = .fetching save slots stop →
      ∀ x ∈ slots, Timely cfg save.currentStep x)
    (hc : s'.checkpoints = s.checkpoints) (hsel : s'.selected = s.selected) :
    Punctual cfg s' := by
  refine ⟨?_, ?_, ?_, ?_, ?_, hfetch, ?_, ?_⟩
  · rw [hw]
    exact fun x hx ↦ hp.ready x (hready x hx)
  · rw [hw]
    intro t ht x hx
    obtain ⟨u, hu, hh, _⟩ := htasks t ht
    exact hp.held u hu x (hh ▸ hx)
  · rw [hw]
    intro t ht step hstep
    obtain ⟨u, hu, _, htarget⟩ := htasks t ht
    exact hp.aimed u hu step (htarget ▸ hstep)
  · rw [hw]
    exact hrest
  · rw [hw]
    exact hsave
  · rw [hc]
    exact hp.saved
  · rw [hsel]
    exact hp.selected

theorem idle (hp : Punctual cfg s) (hw : s'.rm.weightVersion = s.rm.weightVersion)
    (hready : ∀ x ∈ readySlots s'.rm, x ∈ readySlots s.rm) (ht : s'.tasks = s.tasks)
    (he : s'.train.emptyHanded = true) (hc : s'.checkpoints = s.checkpoints)
    (hsel : s'.selected = s.selected) : Punctual cfg s' := by
  refine hp.train hw hready (fun t h ↦ ⟨t, ht ▸ h, rfl, rfl⟩) ?_ ?_ ?_ hc hsel
  · intro groups n reserve h
    simp [h, TrainPhase.emptyHanded] at he
  · intro save stop h
    simp [h, TrainPhase.emptyHanded] at he
  · intro save slots stop h
    simp [h, TrainPhase.emptyHanded] at he

theorem weights (hp : Punctual cfg s) (hw : s.rm.weightVersion ≤ s'.rm.weightVersion)
    (hready : ∀ x ∈ readySlots s'.rm, x ∈ readySlots s.rm)
    (htasks : ∀ t ∈ s'.tasks, ∃ u ∈ s.tasks, t.held = u.held ∧ t.target = u.target)
    (ht : s'.train = .stepped) (hc : s'.checkpoints = s.checkpoints)
    (hsel : s'.selected = s.selected) : Punctual cfg s' := by
  refine ⟨fun x hx ↦ (hp.ready x (hready x hx)).mono hw, ?_, ?_, by simp [ht], by simp [ht],
    by simp [ht], hc ▸ hp.saved, hsel ▸ hp.selected⟩
  · intro t h x hx
    obtain ⟨u, hu, hh, _⟩ := htasks t h
    exact (hp.held u hu x (hh ▸ hx)).mono hw
  · intro t h step hstep
    obtain ⟨u, hu, _, htarget⟩ := htasks t h
    exact (hp.aimed u hu step (htarget ▸ hstep)).trans (reach_mono cfg hw)

end Punctual

theorem saved_timely {v : ℕ} {dp : KeyedStore SampleId (Row ρ)} {slots : List Slot}
    {groups : List (SavedGroup ρ)} (h : slots.mapM (TQReplayBuffer.fetchGroup dp) = some groups)
    (ht : ∀ x ∈ slots, Timely cfg v x) : ∀ g ∈ groups, Timely cfg v g.toSlot := by
  induction slots generalizing groups with
  | nil =>
    obtain rfl : groups = [] := by simpa using h.symm
    rintro g ⟨⟩
  | cons x slots ih =>
    simp only [List.mapM_cons, bind, Option.bind_eq_some_iff, pure] at h
    obtain ⟨g, hg, gs, hgs, heq⟩ := h
    obtain rfl := Option.some.inj heq
    obtain ⟨m, _, hm⟩ := Option.bind_eq_some_iff.mp hg
    obtain ⟨rows, _, rfl⟩ := Option.map_eq_some_iff.mp hm
    intro g hg
    rcases List.mem_cons.mp hg with rfl | hg
    · exact ht x (by simp)
    · exact ih hgs (fun y hy ↦ ht y (List.mem_cons_of_mem _ hy)) g hg

theorem Envelope.ofSaved_inj {p : String} {n : ℕ} {l l' : List (SavedGroup ρ)}
    (h : Envelope.ofSaved p n l = Envelope.ofSaved p n l') : l = l' := by
  have hmap := congrArg Envelope.groups h
  simp only [Envelope.ofSaved, Option.some.injEq] at hmap
  refine List.map_injective_iff.mpr (fun a b hab ↦ ?_) hmap
  have hab' := congrArg GroupEntry.complete? hab
  simpa [TQReplayBuffer.complete?_toEntry] using hab'

theorem Task.held_granted (t : Task ρ) : t.granted.held = t.held ∧ t.granted.target = t.target := by
  obtain ⟨n, c, phase⟩ := t
  cases phase <;> exact ⟨rfl, rfl⟩

/-- In-order selection takes the groups stamped with the trainer's version. -/
theorem eligible_target {sampler : Sampler} {slots : List Slot} {v : ℕ} {x : Slot}
    (hc : sampler.config = cfg.sampler) (hs : cfg.sampler.stamps = true)
    (h : sampler.eligible slots v x = true) : x.targetStep = some v := by
  rw [← hc] at hs
  unfold Sampler.eligible at h
  cases hcfg : sampler.config with
  | inOrder w u =>
    simp only [hcfg, Bool.and_eq_true, decide_eq_true_eq] at h
    exact h.1
  | _ => simp [hcfg, SamplerConfig.stamps] at hs

theorem Punctual.steps_kept {e : Event ρ} (hs : Sound cfg s) (hp : Punctual cfg s)
    (hpace : Paced cfg s) (h : Steps cfg s e s') : Punctual cfg s' := by
  have hsame : ∀ t ∈ s.tasks, ∃ u ∈ s.tasks, t.held = u.held ∧ t.target = u.target :=
    fun t ht ↦ ⟨t, ht, rfl, rfl⟩
  have hself : ∀ x ∈ readySlots s.rm, x ∈ readySlots s.rm := fun x hx ↦ hx
  cases h with
  | launched prompt rest target hpump =>
    obtain ⟨h₁, h₂, h₃, h₄, h₅, h₆, h₇, h₈⟩ := hp
    refine ⟨h₁, ?_, ?_, h₄, h₅, h₆, h₇, h₈⟩
    · intro t ht
      rcases List.mem_append.mp ht with ht | ht
      · exact h₂ t ht
      · obtain rfl := List.mem_singleton.mp ht
        rintro x ⟨⟩
    · intro t ht step hstep
      rcases List.mem_append.mp ht with ht | ht
      · exact h₃ t ht step hstep
      · obtain rfl := List.mem_singleton.mp ht
        obtain rfl : target = some step := hstep
        exact (hpace.launching _ _ _ hpump).2 rfl
  | turn i t hi hturn _ => exact hp.turn hs hi hturn
  | flagged i t _ hi =>
    refine hp.train rfl hself ?_ hp.restoring hp.saving hp.fetching rfl rfl
    exact Punctual.set_tasks hsame hi ⟨t, List.mem_of_getElem? hi, rfl, rfl⟩
  | leaked i t _ _ _ _ =>
    exact hp.train rfl hself (fun u hu ↦ hsame u (Pool.mem_of_eraseIdx hu)) hp.restoring
      hp.saving hp.fetching rfl rfl
  | evicts gone rm ids _ hev _ =>
    exact hp.train hev.weightVersion
      (fun x hx ↦ hev.ready.mem_iff.mpr (List.mem_append_right _ hx)) hsame (by simp) (by simp)
      (by simp) rfl rfl
  | waits dp phase stopping _ hi => exact hp.idle rfl hself rfl hi.emptyHanded rfl rfl
  | selects chunk rm _ _ hch =>
    have hkeep : Punctual cfg { release s (s.train.owed + chunk.length) with
        rm := rm, train := .training chunk } := hp.train hch.weightVersion
      (fun x hx ↦ hch.ready.mem_iff.mpr (List.mem_append_right _ hx)) hsame (by simp) (by simp)
      (by simp) rfl rfl
    refine ⟨hkeep.ready, hkeep.held, hkeep.aimed, hkeep.restoring, hkeep.saving, hkeep.fetching,
      hkeep.saved, fun p hmem ↦ ?_⟩
    rcases List.mem_append.mp hmem with hmem | hmem
    · exact hp.selected p hmem
    · obtain ⟨x, hx, rfl⟩ := List.mem_map.mp hmem
      have ht := hp.ready x (hch.ready.mem_iff.mpr (List.mem_append_left _ hx))
      refine ⟨ht.1.trans hpace.weight_le, fun hstamps ↦ ?_⟩
      have htarget := eligible_target hpace.config hstamps (hch.eligible x hx)
      exact ⟨htarget, ht.2 _ htarget⟩
  | trained chunk dp phase stopping opened _ hi => exact hp.idle rfl hself rfl hi.emptyHanded rfl rfl
  | finished _ _ _ => exact hp.idle rfl hself rfl rfl rfl rfl
  | closed tasks _ _ hflag _ =>
    obtain ⟨f, rfl⟩ := hflag
    refine hp.train rfl hself (fun t ht ↦ ?_) (by simp) (by simp) (by simp) rfl rfl
    obtain ⟨u, hu, rfl⟩ := List.mem_map.mp ht
    exact ⟨u, hu, by split_ifs <;> exact ⟨rfl, rfl⟩⟩
  | closedFrozen _ _ =>
    refine hp.weights ?_ hself hsame rfl rfl rfl
    have hle := hpace.weight_le
    simp only [settleStep, advanceVersion]
    omega
  | synced _ =>
    refine hp.weights hpace.weight_le hself (fun t ht ↦ ?_) rfl rfl rfl
    obtain ⟨u, hu, rfl⟩ := List.mem_map.mp ht
    exact ⟨u, hu, Task.held_granted u⟩
  | saving stop htrain =>
    obtain ⟨_, hw⟩ := hpace.synced (by simp [htrain])
    refine hp.train rfl hself hsame (by simp) ?_ (by simp) rfl rfl
    rintro save stop' ⟨⟩
    exact hpace.steps.trans hw.symm
  | fetching save stop htrain =>
    refine hp.train rfl hself hsame (by simp) (by simp) ?_ rfl rfl
    rintro save' slots stop' ⟨⟩ x hx
    rw [hp.saving _ _ htrain]
    exact hp.ready x hx
  | begins checkpoints phase stopping version dispatched opened hfrom hb =>
    have hi := hb.idles
    have hidle : Punctual cfg { s with
        train := phase
        stopping := stopping
        versionDuringStep := version
        groupsDispatched := dispatched
        stepOpen := opened } := hp.idle rfl hself rfl hi.emptyHanded rfl rfl
    refine ⟨hidle.ready, hidle.held, hidle.aimed, hidle.restoring, hidle.saving, hidle.fetching,
      ?_, hidle.selected⟩
    rcases hfrom with ⟨_, rfl⟩ | ⟨save, slots, stop, groups, htrain, hgroups, rfl⟩
    · exact hp.saved
    · intro ck hck gs hgs
      rcases List.mem_append.mp hck with hck | hck
      · exact hp.saved ck hck gs hgs
      · obtain rfl := List.mem_singleton.mp hck
        obtain rfl := Envelope.ofSaved_inj hgs
        exact saved_timely hgroups (hp.fetching _ _ _ htrain)
  | restarted k ck groups hk hpre =>
    have hmem := List.mem_of_getElem? hk
    obtain ⟨saved, hck, hnd⟩ := hs.saved ck hmem
    rw [hck] at hpre
    have hsub := (TQReplayBuffer.preflight_nodup hpre hnd).2
    refine ⟨by rintro x ⟨⟩, by rintro t ⟨⟩, by rintro t ⟨⟩, ?_, by rintro _ _ ⟨⟩,
      by rintro _ _ _ ⟨⟩, hp.saved, by rintro p ⟨⟩⟩
    rintro gs n reserve ⟨⟩ g hg
    exact hp.saved ck hmem saved hck g (hsub g hg)
  | restored g rest n reserve htrain =>
    have hrest := hp.restoring _ _ _ htrain
    have hready := (hs.restore htrain).2
    refine ⟨fun x hx ↦ ?_, hp.held, hp.aimed, ?_, by simp, by simp, hp.saved, hp.selected⟩
    · rcases List.mem_cons.mp (hready.mem_iff.mp hx) with rfl | hx
      · exact hrest g (by simp)
      · exact hp.ready x hx
    · rintro gs m reserve' ⟨⟩ g' hg'
      exact hrest g' (List.mem_cons_of_mem _ hg')
  | acquiredRestored n reserve htrain _ =>
    exact hp.train rfl hself hsame (by simp) (by simp) (by simp) rfl rfl
  | started reserve phase stopping version dispatched opened _ hb =>
    have hi := hb.idles
    exact hp.idle rfl hself rfl hi.emptyHanded rfl rfl
  | failed => exact ⟨hp.1, hp.2, hp.3, hp.4, hp.5, hp.6, hp.7, hp.8⟩
  | diverted n _ _ => exact ⟨hp.1, hp.2, hp.3, hp.4, hp.5, hp.6, hp.7, hp.8⟩
  | pulled n _ _ => exact ⟨hp.1, hp.2, hp.3, hp.4, hp.5, hp.6, hp.7, hp.8⟩
  | settling _ => exact ⟨hp.1, hp.2, hp.3, hp.4, hp.5, hp.6, hp.7, hp.8⟩
  | admitted prompts _ _ => exact ⟨hp.1, hp.2, hp.3, hp.4, hp.5, hp.6, hp.7, hp.8⟩
  | acquiredBuffer prompts target _ _ => exact ⟨hp.1, hp.2, hp.3, hp.4, hp.5, hp.6, hp.7, hp.8⟩
  | acquiredSem prompts target _ _ => exact ⟨hp.1, hp.2, hp.3, hp.4, hp.5, hp.6, hp.7, hp.8⟩
  | settled pump draining exhausted _ _ _ =>
    exact ⟨hp.1, hp.2, hp.3, hp.4, hp.5, hp.6, hp.7, hp.8⟩
  | drained _ _ _ => exact ⟨hp.1, hp.2, hp.3, hp.4, hp.5, hp.6, hp.7, hp.8⟩
  | launchCancelled prompts target stage _ _ =>
    exact ⟨hp.1, hp.2, hp.3, hp.4, hp.5, hp.6, hp.7, hp.8⟩

theorem paced_fresh (cfg : Config) : Paced cfg (fresh cfg : State ρ) := by
  have h := Paced.boot (ρ := ρ) cfg 0 ⟨0, 0, []⟩ [] []
  exact ⟨h.config, h.steps, h.window, h.steady, h.cursor, .inl ⟨rfl, rfl⟩, by rintro _ _ _ ⟨⟩⟩

theorem punctual_fresh (cfg : Config) : Punctual cfg (fresh cfg : State ρ) :=
  ⟨by rintro x ⟨⟩, by rintro t ⟨⟩, by rintro t ⟨⟩, by rintro _ _ _ ⟨⟩, by rintro _ _ ⟨⟩,
    by rintro _ _ _ ⟨⟩, by rintro ck ⟨⟩, by rintro p ⟨⟩⟩

theorem paced_of_reachable {ok : State ρ → Event ρ → Prop}
    (h : ReachableBy (step cfg) (Initial cfg) ok s) :
    Sound cfg s ∧ Paced cfg s ∧ Punctual cfg s :=
  invariant_of_steps (I := fun s ↦ Paced cfg s ∧ Punctual cfg s)
    ⟨paced_fresh cfg, punctual_fresh cfg⟩ trivial
    (fun _ _ _ hs hp _ h ↦ ⟨hp.1.steps_kept h, hp.2.steps_kept hs hp.1 h⟩) h.reachable

/-- Staleness is bounded in policy updates, and batches are admitted in step
with it, through warm-up, retries, replacements, promotions and restarts. -/
theorem staleness_bounded (cfg : Config) (s : State ρ) (hin : cfg.sampler.stamps = true)
    (h : Reachable (step cfg) (Initial cfg) s) :
    (∀ p ∈ s.selected, p.2.startWeight ≤ p.1 ∧
      p.1 - max p.2.startWeight (policyStart cfg) ≤ Sampler.steadyWindow cfg.sampler) ∧
    ∀ s', step cfg s .admitted = some s' → ∃ a t, s'.admissions = s.admissions ++ [a] ∧
      a.target = some t ∧ t ≤ s.trainerVersion + s.sampler.gateWindow ∧
      (s.trainerVersion < policyStart cfg →
        t ≤ policyStart cfg + Sampler.steadyWindow cfg.sampler) := by
  obtain ⟨hs, hpace, hpunct⟩ := paced_of_reachable h
  constructor
  · intro p hp
    obtain ⟨hw, hstep⟩ := hpunct.selected p hp
    have hreach := (hstep hin).2
    simp only [reach] at hreach
    exact ⟨hw, by omega⟩
  · intro s' hstep
    simp only [step] at hstep
    split at hstep
    · rename_i prompts hpump
      split_ifs at hstep with hadm
      obtain rfl := Option.some.inj hstep
      have hstamps : ∃ t, s.sampler.admitBatch.2 = some t := by
        have hc := hpace.config
        rw [← hc] at hin
        unfold Sampler.admitBatch
        cases hcfg : s.sampler.config <;> simp [hcfg, SamplerConfig.stamps, Sampler.stamp] at hin ⊢
      obtain ⟨t, ht⟩ := hstamps
      obtain ⟨hle, _⟩ := admitBatch_stamp hadm ht
      have hwindow := hpace.window
      refine ⟨_, t, rfl, ht, by omega, fun hlt ↦ ?_⟩
      simp only [reach] at hwindow
      omega
    · cases hstep

/-- Two warm-up steps with a lookahead of two, then one step of lookahead. -/
theorem warmedUp_fraction_pos : (0 : ℚ) < 1 := one_pos

def warmedUp : Config where
  buffer := ⟨"rollout", false, none⟩
  policy := ⟨1, 1, 0, 0, Nat.one_pos, Nat.one_pos⟩
  sampler := .inOrder 1 (some 2)
  numPromptsPerStep := 1
  numGenerationsPerPrompt := 1
  maxNumSteps := 8
  maxBufferedRollouts := 3
  maxInflightPrompts := 2
  minGroupsForStreamingTrain := 1
  isPpo := true
  policyTrainingStartStep := 2
  useNemoGym := true
  replace := false
  maxReplacementAttempts := 0
  replacementReservePrompts := 0
  minStepBatchFraction := 1
  groups_le := Nat.one_pos
  fraction_pos := warmedUp_fraction_pos
  capacity := by decide
  unstamped := by decide
  warmup := by decide
  ppo := by decide

def dispatchedBatch : List (Event Unit) := [.pull 1, .admitted] ++ generated 0

def frozenStep : List (Event Unit) := [.poll, .trained true, .closeStep, .endStep false false]

def policyStep : List (Event Unit) :=
  [.poll, .trained true, .closeStep, .synced, .endStep false false]

/-- The batch of step 3 is generated at version 1 and trained on at version 3. -/
def warmupRun : List (Event Unit) :=
  dispatchedBatch ++ dispatchedBatch ++ dispatchedBatch ++ frozenStep ++ dispatchedBatch ++
  frozenStep ++ policyStep ++ [.poll, .pull 1]

theorem warmupRun_ends : (exec (step warmedUp) (init warmedUp) warmupRun).isSome := by
  decide +kernel

def warmupState : State Unit :=
  (exec (step warmedUp) (init warmedUp) warmupRun).get warmupRun_ends

theorem staleness_bounded_warmup :
    (∀ p ∈ warmupState.selected, p.2.startWeight ≤ p.1 ∧ p.1 - max p.2.startWeight 2 ≤ 1) ∧
    ∀ s', step warmedUp warmupState .admitted = some s' → ∃ a t,
      s'.admissions = warmupState.admissions ++ [a] ∧ a.target = some t ∧
      t ≤ warmupState.trainerVersion + warmupState.sampler.gateWindow ∧
      (warmupState.trainerVersion < 2 → t ≤ 2 + 1) :=
  staleness_bounded warmedUp warmupState rfl (.run (initial_init warmedUp) warmupRun warmupRun_ends)

example : (warmupState.selected.map fun p ↦ (p.1, p.2.startWeight)) =
    [(0, 0), (1, 0), (2, 0), (3, 1)] := by decide +kernel

end NemoRL.SingleController
