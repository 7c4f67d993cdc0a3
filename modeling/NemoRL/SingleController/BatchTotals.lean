import Mathlib
import NemoRL.SingleController.StepLedger

namespace NemoRL.SingleController

open DataPlane AsyncUtils Experience Experience.RolloutManager
open Foundations Foundations.Positions Foundations.Transition

variable {ρ : Type} {cfg : Config} {s s' : State ρ}

section Definitions

/-- The samplers that wait for the trainer before they admit a batch. -/
def Gated (cfg : Config) : Prop := ∀ w b, cfg.sampler ≠ .windowed w b

def KeepsPrompts (cfg : Config) : Prop :=
  cfg.policy.maxSkippedPrompts + cfg.policy.maxConsecutiveDroppedPrompts = 0

/-- A step of one process whose dataloader yields no batch larger than a step's. -/
def WholeBatches (cfg : Config) (_ : State ρ) : Event ρ → Prop
  | .pull n => n ≤ cfg.numPromptsPerStep
  | .restart _ => False
  | _ => True

instance (s : State ρ) : ∀ e, Decidable (WholeBatches cfg s e)
  | .pull _ => Nat.decLe _ _
  | .restart _ => instDecidableFalse
  | .admitted | .endEpochs | .acquireBuffer | .acquireSem | .launch | .settle | .drain | .startTask _
  | .resumeTask _ _ | .resumeWaiting _ | .requestCancel _ | .cancelCreated _ | .cancelWaiting _
  | .cancelLaunch | .poll | .evicted | .wake | .trained _ | .closeStep | .synced | .endStep _ _
  | .snapshot | .saved | .fail | .restored | .acquireRestored | .startPumps => instDecidableTrue

def PumpPhase.unlaunched : PumpPhase → ℕ
  | .launching prompts _ _ => prompts.length
  | _ => 0

/-- The groups of the admitted prompts, wherever they are. -/
def groups (s : State ρ) : ℕ :=
  s.pump.unlaunched + s.tasks.length + (readySlots s.rm).length + s.train.owed +
    s.selected.length

/-- What has been admitted and what has been trained, against the trainer's version. -/
structure Totals (cfg : Config) (s : State ρ) : Prop where
  shortfall : ∀ t, s.batchShortfall t = 0
  batch : ∀ prompts, s.pump = .admitting prompts → prompts.length ≤ cfg.numPromptsPerStep
  window : s.sampler.gateWindow ≤ Sampler.peakWindow cfg.sampler
  cursor : s.sampler.dispatchIndex ≤ s.trainerVersion + Sampler.peakWindow cfg.sampler
  starting : s.train.starting = true → s.train = .loadingReserve []
  admitted : (groups s : ℤ) ≤ cfg.numPromptsPerStep * (s.sampler.dispatchIndex + 1)
  trained : cfg.numPromptsPerStep * s.trainerVersion ≤ s.selected.length
  inStep : s.train.inStep = true →
    cfg.numPromptsPerStep * s.trainerVersion + s.groupsDispatched + s.train.inHand ≤
      s.selected.length

end Definitions

section Samplers

theorem steadyWindow_le_peakWindow (cfg : Config) :
    Sampler.steadyWindow cfg.sampler ≤ Sampler.peakWindow cfg.sampler := by
  have hwarmup := cfg.warmup
  cases hsampler : cfg.sampler with
  | inOrder w warmup =>
    cases warmup with
    | none => exact le_rfl
    | some u =>
      rw [hsampler] at hwarmup
      exact (hwarmup u rfl).1
  | _ => exact le_rfl

theorem lookaheadVersions_le (cfg : Config) (version : ℕ) :
    lookaheadVersions cfg version ≤ Sampler.peakWindow cfg.sampler := by
  have hsteady := steadyWindow_le_peakWindow cfg
  unfold lookaheadVersions
  cases hwarmup : cfg.sampler.warmupLookaheadVersions with
  | none => exact hsteady
  | some w =>
    have hpeak : Sampler.peakWindow cfg.sampler = w := by
      cases hsampler : cfg.sampler <;>
        simp_all [SamplerConfig.warmupLookaheadVersions, Sampler.peakWindow]
    simp only
    split_ifs
    · exact hsteady
    · omega

theorem retune_le (cfg : Config) {sampler : Sampler} (version : ℕ)
    (h : sampler.gateWindow ≤ Sampler.peakWindow cfg.sampler) :
    (retuneLookaheadVersions cfg sampler version).gateWindow ≤
      Sampler.peakWindow cfg.sampler := by
  unfold retuneLookaheadVersions
  split_ifs
  · exact lookaheadVersions_le cfg version
  · exact h

theorem admitBatch_gated {sampler : Sampler} (hg : Gated cfg) (hc : sampler.config = cfg.sampler) :
    sampler.admitBatch.1.dispatchIndex = sampler.dispatchIndex + 1 := by
  unfold Sampler.admitBatch
  cases h : sampler.config with
  | windowed w b => exact absurd (hc.symm.trans h) (hg w b)
  | _ => rfl

theorem admits_gated {sampler : Sampler} {version : ℕ} (hg : Gated cfg)
    (hc : sampler.config = cfg.sampler) (ha : sampler.admits version = true) :
    sampler.dispatchIndex < version + sampler.gateWindow := by
  unfold Sampler.admits at ha
  cases h : sampler.config with
  | windowed w b => exact absurd (hc.symm.trans h) (hg w b)
  | _ => simpa [h] using ha

end Samplers

section Steps

theorem unlaunched_launchNext (prompts : List ℕ) (target : Option ℕ) :
    (launchNext prompts target).unlaunched = prompts.length := by
  unfold launchNext
  split_ifs with h
  · rw [h]
    rfl
  · rfl

theorem launchNext_ne_admitting (prompts : List ℕ) (target : Option ℕ) (batch : List ℕ) :
    launchNext prompts target ≠ .admitting batch := by
  unfold launchNext
  split_ifs <;> simp

theorem unlaunched_granted (p : PumpPhase) : p.granted.unlaunched = p.unlaunched := by
  unfold PumpPhase.granted
  split <;> rfl

theorem granted_eq_admitting {p : PumpPhase} {batch : List ℕ} (h : p.granted = .admitting batch) :
    p = .admitting batch := by
  unfold PumpPhase.granted at h
  split at h
  · cases h
  · exact h

theorem Turn.totals {i : ℕ} {t : Task ρ} (hk : KeepsPrompts cfg) (hi : s.tasks[i]? = some t)
    (h : Turn cfg s i t s') :
    s'.tasks.length + (readySlots s'.rm).length ≤ s.tasks.length + (readySlots s.rm).length ∧
      s'.batchShortfall = s.batchShortfall ∧ s'.pump = s.pump ∧ s'.train = s.train ∧
      s'.selected = s.selected := by
  have hlt : i < s.tasks.length := (List.getElem?_eq_some_iff.mp hi).1
  have herase : (s.tasks.eraseIdx i).length + 1 = s.tasks.length := by
    rw [List.length_eraseIdx_of_lt hlt]
    omega
  cases h with
  | moved rm t' _ hr =>
    have hready := hr.slots.length_eq
    refine ⟨?_, rfl, rfl, rfl, rfl⟩
    simp only [List.length_set]
    omega
  | committed rm x m e counts _ hr =>
    have hready := hr.slots.length_eq
    rw [List.length_cons] at hready
    refine ⟨?_, rfl, rfl, rfl, rfl⟩
    simp only [endTask]
    omega
  | shortened _ hb _ => exact absurd hk hb
  | replaced _ _ _ hsub _ _ => exact absurd hk hsub.budget
  | promoted _ _ _ _ _ _ _ _ hsub _ _ _ _ _ _ => exact absurd hk hsub.budget
  | ended rm stopping _ hr =>
    have hready := hr.slots.length_eq
    refine ⟨?_, rfl, rfl, rfl, rfl⟩
    simp only [endTask, release]
    omega

theorem Totals.keep (ht : Totals cfg s) (hsampler : s'.sampler = s.sampler)
    (hv : s'.trainerVersion = s.trainerVersion) (hshort : s'.batchShortfall = s.batchShortfall)
    (hsel : s'.selected = s.selected) (hgroups : groups s' ≤ groups s)
    (hbatch : ∀ prompts, s'.pump = .admitting prompts → prompts.length ≤ cfg.numPromptsPerStep)
    (hstarting : s'.train.starting = true → s'.train = .loadingReserve [])
    (hin : s'.train.inStep = true → s'.groupsDispatched + s'.train.inHand = 0 ∨
      s.train.inStep = true ∧
        s'.groupsDispatched + s'.train.inHand = s.groupsDispatched + s.train.inHand) :
    Totals cfg s' := by
  have hadmitted := ht.admitted
  refine ⟨by rw [hshort]; exact ht.shortfall, hbatch, by rw [hsampler]; exact ht.window,
    by rw [hsampler, hv]; exact ht.cursor, hstarting, ?_, by rw [hv, hsel]; exact ht.trained, ?_⟩
  · rw [hsampler]
    omega
  · intro h
    have htrained := ht.trained
    rw [hv, hsel]
    rcases hin h with hzero | ⟨hopen, hsame⟩
    · omega
    · have hbefore := ht.inStep hopen
      omega

theorem Totals.advance (ht : Totals cfg s) (hc : Clocked cfg s) (htrain : s.train = .closing)
    (hv : s'.trainerVersion = s.trainerVersion + 1) (hshort : ∀ t, s'.batchShortfall t = 0)
    (hwindow : s'.sampler.gateWindow ≤ Sampler.peakWindow cfg.sampler)
    (hindex : s'.sampler.dispatchIndex = s.sampler.dispatchIndex)
    (hsel : s'.selected = s.selected) (hgroups : groups s' = groups s) (hpump : s'.pump = s.pump)
    (hin : s'.train.inStep = false) (hstarting : s'.train.starting = false) : Totals cfg s' := by
  have hopen := ht.inStep (by rw [htrain]; rfl)
  have hclosing := hc.closing htrain
  have hcursor := ht.cursor
  rw [ht.shortfall] at hclosing
  refine ⟨hshort, ?_, hwindow, ?_, fun h ↦ ?_, ?_, ?_, fun h ↦ ?_⟩
  · rw [hpump]
    exact ht.batch
  · rw [hindex, hv]
    push_cast
    omega
  · rw [hstarting] at h
    cases h
  · rw [hgroups, hindex]
    exact ht.admitted
  · rw [hv, hsel, Nat.mul_succ]
    omega
  · rw [hin] at h
    cases h

theorem Totals.admit (hg : Gated cfg) (hp : Paced cfg s) (ht : Totals cfg s) {prompts : List ℕ}
    (hpump : s.pump = .admitting prompts) (ha : s.sampler.admits s.trainerVersion = true) :
    Totals cfg (admitBatch s prompts) := by
  obtain ⟨-, hwindow, -⟩ := admitBatch_fields ha
  have hindex := admitBatch_gated hg hp.config
  have hgate := admits_gated hg hp.config ha
  have hpeak := ht.window
  have hbatch := ht.batch prompts hpump
  have hadmitted := ht.admitted
  have htake : (prompts.take (numPrompts s s.sampler.admitBatch.2 prompts.length)).length ≤
      cfg.numPromptsPerStep := by
    rw [List.length_take]
    omega
  refine ⟨ht.shortfall, ?_, ?_, ?_, ht.starting, ?_, ht.trained, ht.inStep⟩
  · intro batch hb
    exact absurd hb (launchNext_ne_admitting _ _ _)
  · simp only [admitBatch, hwindow]
    exact hpeak
  · simp only [admitBatch, hindex]
    omega
  · simp only [admitBatch, groups, hindex, unlaunched_launchNext]
    simp only [groups, hpump, PumpPhase.unlaunched] at hadmitted
    have hmul : (cfg.numPromptsPerStep : ℤ) * (s.sampler.dispatchIndex + 1 + 1) =
        cfg.numPromptsPerStep * (s.sampler.dispatchIndex + 1) + cfg.numPromptsPerStep := by ring
    rw [hmul]
    push_cast at hadmitted ⊢
    omega

theorem Totals.steps {e : Event ρ} (hg : Gated cfg) (hk : KeepsPrompts cfg) (hp : Paced cfg s)
    (hc : Clocked cfg s) (ht : Totals cfg s) (hok : WholeBatches cfg s e)
    (h : Steps cfg s e s') : Totals cfg s' := by
  have hidle : ∀ {phase : TrainPhase ρ}, phase.emptyHanded = true → phase.inHand = 0 ∧
      phase.owed = 0 ∧ phase.starting = false := fun hp ↦
    ⟨(TrainPhase.emptyHanded.inHand hp).1, TrainPhase.emptyHanded.owed hp,
      TrainPhase.emptyHanded.starting hp⟩
  have hsame : s.train.inStep = true → s.groupsDispatched + s.train.inHand = 0 ∨
      s.train.inStep = true ∧
        s.groupsDispatched + s.train.inHand = s.groupsDispatched + s.train.inHand :=
    fun hin ↦ .inr ⟨hin, rfl⟩
  cases h with
  | diverted n hpump _ => exact ht.keep rfl rfl rfl rfl le_rfl ht.batch ht.starting hsame
  | pulled n hpump _ =>
    refine ht.keep rfl rfl rfl rfl ?_ ?_ ht.starting hsame
    · simp [groups, hpump, PumpPhase.unlaunched]
    · rintro prompts ⟨⟩
      rw [List.length_range']
      exact hok
  | settling hpump =>
    refine ht.keep rfl rfl rfl rfl ?_ (by rintro prompts ⟨⟩) ht.starting hsame
    simp [groups, hpump, PumpPhase.unlaunched]
  | admitted prompts hpump ha => exact ht.admit hg hp hpump ha
  | acquiredBuffer prompts target hpump _ =>
    refine ht.keep rfl rfl rfl rfl ?_ (by rintro prompts ⟨⟩) ht.starting hsame
    simp [groups, hpump, PumpPhase.unlaunched]
  | acquiredSem prompts target hpump _ =>
    refine ht.keep rfl rfl rfl rfl ?_ (by rintro prompts ⟨⟩) ht.starting hsame
    simp [groups, hpump, PumpPhase.unlaunched]
  | launched prompt rest target hpump =>
    refine ht.keep rfl rfl rfl rfl ?_ (fun batch hb ↦ ?_) ht.starting hsame
    · have hlen : s.pump.unlaunched = rest.length + 1 := by
        rw [hpump]
        rfl
      simp only [groups, unlaunched_launchNext, hlen, List.length_append, List.length_singleton]
      omega
    · exact absurd hb (launchNext_ne_admitting _ _ _)
  | settled pump draining exhausted hpump _ hphase =>
    refine ht.keep rfl rfl rfl rfl ?_ ?_ ht.starting hsame
    · rcases hphase with ⟨rfl, _⟩ | ⟨rfl, _⟩ <;> simp [groups, hpump, PumpPhase.unlaunched]
    · rintro prompts hb
      rcases hphase with ⟨rfl, _⟩ | ⟨rfl, _⟩ <;> cases hb
  | drained hpump _ _ =>
    refine ht.keep rfl rfl rfl rfl ?_ ?_ ht.starting hsame
    · simp [groups, hpump, PumpPhase.unlaunched]
    · rintro prompts ⟨⟩
      rw [List.length_take]
      exact Nat.min_le_left _ _
  | turn i t hi hturn _ =>
    obtain ⟨hle, hshort, hpump, htrain, hsel⟩ := hturn.totals hk hi
    obtain ⟨hversion, hdispatched, -, -, -⟩ := hturn.keeps
    have hframe : s'.sampler = s.sampler ∧ s'.trainerVersion = s.trainerVersion := by
      cases hturn <;> exact ⟨rfl, rfl⟩
    refine ht.keep hframe.1 hframe.2 hshort hsel ?_ ?_ ?_ ?_
    · simp only [groups, hpump, htrain, hsel]
      omega
    · rw [hpump]
      exact ht.batch
    · rw [htrain]
      exact ht.starting
    · rw [htrain, hdispatched]
      exact hsame
  | flagged i t _ hi =>
    refine ht.keep rfl rfl rfl rfl ?_ ht.batch ht.starting hsame
    simp [groups]
  | leaked i t hi _ _ _ =>
    refine ht.keep rfl rfl rfl rfl ?_ ht.batch ht.starting hsame
    have hle := List.length_eraseIdx_le s.tasks i
    simp only [groups, endTask]
    omega
  | launchCancelled prompts target stage hpump _ =>
    refine ht.keep rfl rfl rfl rfl ?_ (by rintro prompts ⟨⟩) ht.starting hsame
    simp [groups, PumpPhase.unlaunched]
  | evicts gone rm ids htrain hev _ =>
    have hready := hev.ready.length_eq
    rw [List.length_append] at hready
    refine ht.keep rfl rfl rfl rfl ?_ ht.batch (by rintro ⟨⟩) (fun _ ↦ .inr ?_)
    · simp only [groups, htrain, TrainPhase.owed]
      omega
    · exact ⟨by rw [htrain]; rfl, by rw [htrain]; rfl⟩
  | waits dp phase stopping hsel hi =>
    obtain ⟨hhand, howed, hstart⟩ := hidle hi.emptyHanded
    refine ht.keep rfl rfl rfl rfl ?_ ht.batch (fun h ↦ ?_) (fun _ ↦ .inr ?_)
    · have hready : readySlots (withRows s.rm dp) = readySlots s.rm := rfl
      simp only [groups, release, howed, hready]
      omega
    · simp only [hstart] at h
      cases h
    · refine ⟨TrainPhase.selecting.inStep hsel, ?_⟩
      simp only [release, hhand, (TrainPhase.selecting.inHand hsel).1]
  | selects chunk rm hsel _ hch =>
    have hready := hch.ready.length_eq
    have hopen := ht.inStep (TrainPhase.selecting.inStep hsel)
    have htrained := ht.trained
    have hadmitted := ht.admitted
    rw [(TrainPhase.selecting.inHand hsel).1] at hopen
    rw [List.length_append] at hready
    refine ⟨ht.shortfall, ht.batch, ht.window, ht.cursor, by rintro ⟨⟩, ?_, ?_, fun _ ↦ ?_⟩
    · simp only [groups] at hadmitted
      simp only [groups, release, TrainPhase.owed, List.length_append, List.length_map]
      push_cast at hadmitted ⊢
      omega
    · simp only [List.length_append, List.length_map]
      exact htrained.trans (Nat.le_add_right _ _)
    · simp only [release, TrainPhase.inHand, List.length_append, List.length_map]
      omega
  | trained chunk dp phase stopping opened htrain hi =>
    obtain ⟨hhand, howed, hstart⟩ := hidle hi.emptyHanded
    refine ht.keep rfl rfl rfl rfl ?_ ht.batch (fun h ↦ ?_) (fun _ ↦ .inr ?_)
    · have hready : readySlots (withRows s.rm dp) = readySlots s.rm := rfl
      simp only [groups, howed, hready]
      omega
    · simp only [hstart] at h
      cases h
    · have hbefore : s.train.inHand = chunk.length := by
        rw [htrain]
        rfl
      refine ⟨by rw [htrain]; rfl, ?_⟩
      simp only [hhand, hbefore, Nat.add_zero]
  | finished howed _ _ =>
    refine ht.keep rfl rfl rfl rfl ?_ ht.batch (by rintro ⟨⟩) (by rintro ⟨⟩)
    simp only [groups, finishRun, TrainPhase.owed]
    omega
  | closed tasks htrain _ hflag _ =>
    obtain ⟨f, rfl⟩ := hflag
    refine ht.advance hc htrain rfl (fun t ↦ ?_) ht.window rfl rfl ?_ rfl rfl rfl
    · simp only [advanceVersion, pruned, ht.shortfall, ite_self]
    · simp only [groups, advanceVersion, htrain, TrainPhase.owed, List.length_map]
  | closedFrozen htrain _ =>
    refine ht.advance hc htrain rfl (fun t ↦ ?_) ?_ (retune_config _ _ _).2 rfl ?_ rfl rfl rfl
    · simp only [settleStep, advanceVersion, pruned, ht.shortfall, ite_self]
    · exact retune_le cfg _ ht.window
    · have hready : readySlots { s.rm with weightVersion := s.trainerVersion + 1 } =
          readySlots s.rm := rfl
      simp only [groups, settleStep, advanceVersion, htrain, TrainPhase.owed, hready]
  | synced htrain =>
    have hready : readySlots { s.rm with weightVersion := s.trainerVersion } =
        readySlots s.rm := rfl
    have hindex : (settleStep cfg (permit s)).sampler.dispatchIndex = s.sampler.dispatchIndex :=
      (retune_config _ _ _).2
    have hgroups : groups (settleStep cfg (permit s)) = groups s := by
      simp only [groups, settleStep, permit, htrain, TrainPhase.owed, hready, unlaunched_granted,
        List.length_map]
    refine ⟨ht.shortfall, fun batch hb ↦ ht.batch batch (granted_eq_admitting hb),
      retune_le cfg _ ht.window, ?_, by rintro ⟨⟩, ?_, ht.trained, by rintro ⟨⟩⟩
    · rw [hindex]
      exact ht.cursor
    · rw [hindex, hgroups]
      exact ht.admitted
  | saving stop htrain =>
    refine ht.keep rfl rfl rfl rfl ?_ ht.batch (by rintro ⟨⟩) (by rintro ⟨⟩)
    simp [groups, htrain, TrainPhase.owed]
  | fetching save stop htrain =>
    refine ht.keep rfl rfl rfl rfl ?_ ht.batch (by rintro ⟨⟩) (by rintro ⟨⟩)
    simp [groups, htrain, TrainPhase.owed]
  | begins checkpoints phase stopping version dispatched opened hfrom hb =>
    obtain ⟨hhand, howed, hstart⟩ := hidle hb.idles.emptyHanded
    refine ht.keep rfl rfl rfl rfl ?_ ht.batch (fun h ↦ ?_) (fun hin ↦ .inl ?_)
    · simp only [groups, howed]
      omega
    · simp only [hstart] at h
      cases h
    · rcases hb.opened with ⟨-, rfl⟩ | ⟨rfl, -⟩
      · simp only [hhand]
      · cases hin
  | failed => exact ht.keep rfl rfl rfl rfl le_rfl ht.batch ht.starting hsame
  | restarted k ck groups _ _ => exact hok.elim
  | restored g rest n reserve htrain =>
    have hstart := ht.starting (by rw [htrain]; rfl)
    rw [htrain] at hstart
    cases hstart
  | acquiredRestored n reserve htrain _ =>
    have hstart := ht.starting (by rw [htrain]; rfl)
    rw [htrain] at hstart
    cases hstart
  | started reserve phase stopping version dispatched opened htrain hb =>
    obtain ⟨hhand, howed, hstart⟩ := hidle hb.idles.emptyHanded
    refine ht.keep rfl rfl rfl rfl ?_ (by rintro prompts ⟨⟩) (fun h ↦ ?_) (fun hin ↦ .inl ?_)
    · simp only [groups, howed, PumpPhase.unlaunched]
      omega
    · simp only [hstart] at h
      cases h
    · rcases hb.opened with ⟨-, rfl⟩ | ⟨rfl, -⟩
      · simp only [hhand]
      · cases hin

end Steps

section Capacity

theorem totals_fresh (cfg : Config) : Totals cfg (fresh cfg : State ρ) where
  shortfall := fun _ ↦ rfl
  batch := by rintro prompts ⟨⟩
  window := retune_le cfg 0 (steadyWindow_le_peakWindow cfg)
  cursor := by
    have hindex : (fresh cfg : State ρ).sampler.dispatchIndex = (0 : ℕ) - 1 :=
      (retune_config cfg (.create cfg.sampler 0) 0).2
    rw [hindex]
    push_cast
    omega
  starting := fun _ ↦ rfl
  admitted := by
    have hindex : (fresh cfg : State ρ).sampler.dispatchIndex = (0 : ℕ) - 1 :=
      (retune_config cfg (.create cfg.sampler 0) 0).2
    rw [hindex]
    simp [groups, fresh, boot, readySlots, RolloutManager.State.slots, TQReplayBuffer.slots,
      TQReplayBuffer.empty, PumpPhase.unlaunched, TrainPhase.owed]
  trained := Nat.zero_le _
  inStep := by rintro ⟨⟩

theorem totals_of_reachable (hg : Gated cfg) (hk : KeepsPrompts cfg)
    (h : ReachableBy (step cfg) (Initial cfg) (WholeBatches cfg) s) :
    Sound cfg s ∧ Paced cfg s ∧ Clocked cfg s ∧ Totals cfg s := by
  refine invariant_of_steps (I := fun s ↦ Paced cfg s ∧ Clocked cfg s ∧ Totals cfg s)
    ⟨paced_fresh cfg, clocked_fresh cfg, totals_fresh cfg⟩ trivial ?_ h
  intro s e s' hs ⟨hp, hc, ht⟩ ho h
  exact ⟨hp.steps_kept h, hc.steps_kept hs h, ht.steps hg hk hp hc ho h⟩

theorem required_le_maxBufferedRollouts (hg : Gated cfg) :
    cfg.numPromptsPerStep * (Sampler.peakWindow cfg.sampler + 1) ≤ cfg.maxBufferedRollouts := by
  have hcapacity := cfg.capacity
  cases hsampler : cfg.sampler with
  | windowed w b => exact absurd hsampler (hg w b)
  | _ =>
    rw [hsampler] at hcapacity
    exact hcapacity _ rfl

/-- The groups that are still to be trained on fit the steps that the gate lets in. -/
theorem Totals.outstanding (ht : Totals cfg s) :
    s.pump.unlaunched + s.tasks.length + (readySlots s.rm).length + s.train.owed ≤
      cfg.numPromptsPerStep * (Sampler.peakWindow cfg.sampler + 1) := by
  have hadmitted := ht.admitted
  have htrained := ht.trained
  have hcursor : s.sampler.dispatchIndex + 1 ≤
      s.trainerVersion + (Sampler.peakWindow cfg.sampler + 1) := by
    have h := ht.cursor
    omega
  have hbound : (groups s : ℤ) ≤ cfg.numPromptsPerStep * s.trainerVersion +
      cfg.numPromptsPerStep * (Sampler.peakWindow cfg.sampler + 1) := by
    calc (groups s : ℤ) ≤ cfg.numPromptsPerStep * (s.sampler.dispatchIndex + 1) := hadmitted
      _ ≤ cfg.numPromptsPerStep * (s.trainerVersion + (Sampler.peakWindow cfg.sampler + 1)) :=
        mul_le_mul_of_nonneg_left hcursor (Int.natCast_nonneg _)
      _ = _ := by ring
  have hnat : groups s ≤ cfg.numPromptsPerStep * s.trainerVersion +
      cfg.numPromptsPerStep * (Sampler.peakWindow cfg.sampler + 1) := by exact_mod_cast hbound
  simp only [groups] at hnat
  omega

/-- A launch of an admitted prompt never waits for the buffer, whose permits can all be taken
only once every prompt that the gate lets in has been launched. -/
theorem launch_never_blocks (cfg : Config) (hg : Gated cfg) (hk : KeepsPrompts cfg) (s : State ρ)
    (h : ReachableBy (step cfg) (Initial cfg)
      (fun s e ↦ WholeBatches cfg s e ∧ KeepsPermits s e) s)
    {prompt : ℕ} {rest : List ℕ} {target : Option ℕ}
    (hpump : s.pump = .launching (prompt :: rest) target .buffer) : 0 < s.bufferCapacity := by
  obtain ⟨hs, -, -, ht⟩ := totals_of_reachable hg hk (h.mono fun _ _ ↦ And.left)
  obtain ⟨-, hc⟩ := invariant_of_steps (I := Conserved cfg) ⟨rfl, Nat.zero_le _⟩
    ⟨trivial, trivial⟩ (fun _ _ _ hs hc hk h ↦ Conserved.steps hs hc hk.2 h) h
  have htotal := hc.total
  have hunpaid := TrainPhase.unpaid_eq_zero (hs.running (.inr (by simp [hpump])))
  have houtstanding := ht.outstanding
  have hrequired := required_le_maxBufferedRollouts hg
  have hpermits : s.pump.permits = 0 := by
    rw [hpump]
    rfl
  have hunlaunched : s.pump.unlaunched = rest.length + 1 := by
    rw [hpump]
    rfl
  simp only [permitHolders] at htotal
  omega

def secondBatch : List (Event Unit) :=
  [.pull 1, .admitted] ++ generated 0 ++ [.pull 1, .admitted]

theorem secondBatch_ends : (execBy (step singlePrompt)
    (fun s e ↦ WholeBatches singlePrompt s e ∧ KeepsPermits s e) (init singlePrompt)
      secondBatch).isSome := by
  decide +kernel

theorem launch_never_blocks_secondBatch :
    0 < ((execBy (step singlePrompt)
      (fun s e ↦ WholeBatches singlePrompt s e ∧ KeepsPermits s e) (init singlePrompt)
        secondBatch).get secondBatch_ends).bufferCapacity :=
  launch_never_blocks singlePrompt (by simp [Gated, singlePrompt]) rfl _
    (.run (initial_init singlePrompt) secondBatch secondBatch_ends)
    (by decide +kernel : _ = PumpPhase.launching [1] (some 1) .buffer)

end Capacity

end NemoRL.SingleController
