import Mathlib
import NemoRL.SingleController.Draws
import NemoRL.SingleController.StepLedger

namespace NemoRL.SingleController

open DataPlane AsyncUtils Experience Experience.RolloutManager
open Foundations Foundations.Positions Foundations.Transition

variable {ρ : Type} {cfg : Config} {s s' : State ρ}

def trainedAt (s : State ρ) (version : ℕ) : ℕ := s.selected.countP (·.1 = version)

section Closing

/-- No step is trained on nothing. -/
theorem minStepGroups_pos (h : 0 < cfg.numPromptsPerStep) : 0 < minStepGroups cfg := by
  have hprompts : (0 : ℚ) < cfg.numPromptsPerStep := Nat.cast_pos.mpr h
  refine Int.ceil_pos.mpr (Doubles.toDouble_pos ?_)
  exact mul_pos (Doubles.toDouble_pos hprompts) cfg.fraction_pos

theorem targetGroupsForStep_bounds {step target : ℕ}
    (h : targetGroupsForStep cfg s step = some target) :
    minStepGroups cfg ≤ target ∧ target ≤ cfg.numPromptsPerStep := by
  simp only [targetGroupsForStep] at h
  split_ifs at h with hlt
  obtain rfl := Option.some.inj h
  have hmin : minStepGroups cfg ≤ (cfg.numPromptsPerStep : ℤ) - s.batchShortfall step :=
    not_lt.mp hlt
  omega

theorem loopHead_closing (h : (loopHead cfg s).train = .closing) :
    minStepGroups cfg ≤ (loopHead cfg s).groupsDispatched := by
  unfold loopHead at h ⊢
  cases htarget : targetGroupsForStep cfg s s.versionDuringStep with
  | none => simp [htarget, finishRun] at h
  | some target =>
    have hmin := (targetGroupsForStep_bounds htarget).1
    simp only [htarget] at h ⊢
    split_ifs at h
    omega

theorem choose_closing (h : (choose cfg s).train = .closing) :
    minStepGroups cfg ≤ (choose cfg s).groupsDispatched := by
  unfold choose at h ⊢
  cases htarget : targetGroupsForStep cfg s s.versionDuringStep with
  | none => simp [htarget, finishRun] at h
  | some target =>
    have hmin := (targetGroupsForStep_bounds htarget).1
    simp only [htarget] at h ⊢
    by_cases hzero : target - s.groupsDispatched = 0
    · simp only [if_pos hzero]
      omega
    · simp only [if_neg hzero] at h
      repeat' split at h
      all_goals simp [finishRun] at h

theorem evict_closing (h : (evict cfg s).train = .closing) :
    minStepGroups cfg ≤ (evict cfg s).groupsDispatched := by
  unfold evict at h ⊢
  cases hidx : s.sampler.staleIdxs s.rm.slots s.trainerVersion with
  | nil =>
    simp only [hidx] at h ⊢
    exact choose_closing h
  | cons i idxs =>
    simp only [hidx] at h
    split at h <;> simp [finishRun] at h

theorem beginStep_closing (h : (beginStep cfg s).train = .closing) :
    minStepGroups cfg ≤ (beginStep cfg s).groupsDispatched := by
  unfold beginStep at h ⊢
  split_ifs at h ⊢
  · exact loopHead_closing h
  · simp [finishRun] at h

theorem nextStep_closing {stop : Bool} (h : (nextStep cfg s stop).train = .closing) :
    minStepGroups cfg ≤ (nextStep cfg s stop).groupsDispatched := by
  unfold nextStep at h ⊢
  split_ifs at h ⊢
  · simp [finishRun] at h
  · exact beginStep_closing h

theorem Turn.dispatched {i : ℕ} {t : Task ρ} (h : Turn cfg s i t s') :
    s'.train = s.train ∧ s'.groupsDispatched = s.groupsDispatched := by
  cases h <;> exact ⟨rfl, rfl⟩

theorem step_closing {e : Event ρ} (hp : Pool s.rm s.tasks) (h : step cfg s e = some s')
    (hclosing : s'.train = .closing) :
    s.train = .closing ∧ s'.groupsDispatched = s.groupsDispatched ∨
      minStepGroups cfg ≤ s'.groupsDispatched := by
  have hturn : ∀ {i : ℕ} {t : Task ρ}, Turn cfg s i t s' →
      s.train = .closing ∧ s'.groupsDispatched = s.groupsDispatched := by
    intro i t ht
    obtain ⟨htrain, hdispatched⟩ := ht.dispatched
    exact ⟨htrain ▸ hclosing, hdispatched⟩
  cases e with
  | startTask i =>
    simp only [step] at h
    split at h
    · rename_i n prompt target hi
      obtain rfl := Option.some.inj h
      exact .inl (hturn (startCall_turn cfg hp hi (.inl rfl)).2)
    · cases h
  | resumeTask i answer =>
    simp only [step] at h
    split at h
    · rename_i n cancelled c hi
      split_ifs at h with hc
      obtain ⟨r, hr, rfl⟩ := Option.map_eq_some_iff.mp h
      exact .inl (hturn (afterCall_turn hp hi hc hr).2)
    · cases h
  | resumeWaiting i =>
    simp only [step] at h
    split at h
    · rename_i n prompt target hi
      obtain rfl := Option.some.inj h
      exact .inl (hturn (startCall_turn cfg hp hi (.inr rfl)).2)
    · cases h
  | poll =>
    simp only [step] at h
    split at h
    · obtain rfl := Option.some.inj h
      exact .inr (evict_closing hclosing)
    · cases h
  | evicted =>
    simp only [step] at h
    split at h
    · obtain rfl := Option.some.inj h
      exact .inr (choose_closing hclosing)
    · cases h
  | wake =>
    simp only [step] at h
    split at h
    · obtain rfl := Option.some.inj h
      exact .inr (loopHead_closing hclosing)
    · cases h
  | trained valid =>
    simp only [step] at h
    split at h
    · split_ifs at h
      · obtain rfl := Option.some.inj h
        simp [finishRun] at hclosing
      · obtain rfl := Option.some.inj h
        exact .inr (loopHead_closing hclosing)
    · cases h
  | endStep save stop =>
    simp only [step] at h
    split at h
    · split_ifs at h
      · obtain rfl := Option.some.inj h
        simp at hclosing
      · obtain rfl := Option.some.inj h
        exact .inr (nextStep_closing hclosing)
    · cases h
  | saved =>
    simp only [step] at h
    split at h
    · split at h
      · obtain rfl := Option.some.inj h
        simp [finishRun] at hclosing
      · obtain rfl := Option.some.inj h
        exact .inr (nextStep_closing hclosing)
    · cases h
  | startPumps =>
    simp only [step] at h
    split at h
    · obtain rfl := Option.some.inj h
      exact .inr (beginStep_closing hclosing)
    · cases h
  | closeStep =>
    simp only [step] at h
    split at h
    · obtain rfl := Option.some.inj h
      unfold closeStep at hclosing
      split_ifs at hclosing <;>
        simp [finishRun, abortStaleInflight, settleStep, advanceVersion] at hclosing
    · cases h
  | synced | snapshot | restored | acquireRestored =>
    simp only [step] at h
    repeat' split at h
    all_goals cases h
    all_goals simp [settleStep] at hclosing
  | restart k =>
    simp only [step] at h
    repeat' split at h
    all_goals cases h
    all_goals simp [boot] at hclosing
  | pull | endEpochs | admitted | acquireBuffer | acquireSem | launch | settle | drain |
    requestCancel | cancelCreated | cancelWaiting | cancelLaunch | fail =>
    simp only [step] at h
    repeat' split at h
    all_goals cases h
    all_goals exact .inl ⟨hclosing, rfl⟩

end Closing

section Sizes

/-- The sizes of the steps since the process started at version `start`. -/
structure Sized (cfg : Config) (s : State ρ) (start : ℕ) : Prop where
  start_le : start ≤ s.trainerVersion
  before : ∀ v, v < start → trainedAt s v = 0
  after : ∀ v, s.trainerVersion < v → trainedAt s v = 0
  closed : ∀ v, start ≤ v → v < s.trainerVersion →
    minStepGroups cfg ≤ trainedAt s v ∧ trainedAt s v ≤ cfg.numPromptsPerStep
  latest : trainedAt s s.trainerVersion ≤ cfg.numPromptsPerStep
  inStep : s.train.inStep = true →
    trainedAt s s.trainerVersion = s.groupsDispatched + s.train.inHand
  between : s.train.inStep = false → s.train ≠ .done → trainedAt s s.trainerVersion = 0
  closing : s.train = .closing → minStepGroups cfg ≤ s.groupsDispatched

variable {start : ℕ}

theorem Sized.keep (hz : Sized cfg s start) (hv : s'.trainerVersion = s.trainerVersion)
    (hsel : s'.selected = s.selected)
    (hin : s'.train.inStep = true → s.train.inStep = true ∧
        s'.groupsDispatched + s'.train.inHand = s.groupsDispatched + s.train.inHand ∨
      s.train.inStep = false ∧ s.train ≠ .done ∧ s'.groupsDispatched + s'.train.inHand = 0)
    (hout : s'.train.inStep = false → s'.train ≠ .done →
      s.train.inStep = false ∧ s.train ≠ .done)
    (hclosing : s'.train = .closing → minStepGroups cfg ≤ s'.groupsDispatched) :
    Sized cfg s' start := by
  have heq : ∀ v, trainedAt s' v = trainedAt s v := by
    intro v
    rw [trainedAt, hsel]
    rfl
  refine ⟨hv ▸ hz.start_le, ?_, ?_, ?_, ?_, ?_, ?_, hclosing⟩
  · intro v hlt
    exact (heq v).trans (hz.before v hlt)
  · intro v hlt
    exact (heq v).trans (hz.after v (hv ▸ hlt))
  · intro v hge hlt
    rw [heq]
    exact hz.closed v hge (hv ▸ hlt)
  · rw [heq, hv]
    exact hz.latest
  · intro h
    rw [heq, hv]
    rcases hin h with ⟨hopen, hsum⟩ | ⟨hnot, hdone, hsum⟩
    · rw [hz.inStep hopen, hsum]
    · rw [hz.between hnot hdone, hsum]
  · intro h hdone
    obtain ⟨hnot, hdone⟩ := hout h hdone
    rw [heq, hv]
    exact hz.between hnot hdone

theorem Sized.advance (hz : Sized cfg s start) (htrain : s.train = .closing)
    (hv : s'.trainerVersion = s.trainerVersion + 1) (hsel : s'.selected = s.selected)
    (hout : s'.train.inStep = false) : Sized cfg s' start := by
  have heq : ∀ v, trainedAt s' v = trainedAt s v := by
    intro v
    rw [trainedAt, hsel]
    rfl
  have hopen := hz.inStep (by rw [htrain]; rfl)
  have hclosing := hz.closing htrain
  have hhand : s.train.inHand = 0 := by
    rw [htrain]
    rfl
  have hstart := hz.start_le
  have hzero : trainedAt s' s'.trainerVersion = 0 := by
    rw [heq, hv]
    exact hz.after _ (Nat.lt_succ_self _)
  refine ⟨by omega, fun v hlt ↦ (heq v).trans (hz.before v hlt), ?_, ?_, by omega, ?_, ?_, ?_⟩
  · intro v hlt
    exact (heq v).trans (hz.after v (by omega))
  · intro v hge hlt
    rw [heq]
    rcases Nat.lt_or_ge v s.trainerVersion with hold | hnew
    · exact hz.closed v hge hold
    · obtain rfl : v = s.trainerVersion := by omega
      exact ⟨by rw [hopen]; omega, hz.latest⟩
  · intro h
    rw [hout] at h
    cases h
  · exact fun _ _ ↦ hzero
  · intro h
    rw [h] at hout
    cases hout

theorem Sized.first (hsel : s.selected = []) (hin : s.train.inStep = false) :
    Sized cfg s s.trainerVersion := by
  have hzero : ∀ v, trainedAt s v = 0 := by
    intro v
    rw [trainedAt, hsel]
    rfl
  refine ⟨le_rfl, fun v _ ↦ hzero v, fun v _ ↦ hzero v, fun v hge hlt ↦ by omega,
    by rw [hzero]; exact Nat.zero_le _, ?_, fun _ _ ↦ hzero _, ?_⟩
  · intro h
    rw [hin] at h
    cases h
  · intro h
    rw [h] at hin
    cases hin

theorem trainedAt_append (selected : List (ℕ × Slot)) (version v : ℕ) (chunk : List Slot) :
    (selected ++ chunk.map fun x ↦ (version, x)).countP (·.1 = v) =
      selected.countP (·.1 = v) + if version = v then chunk.length else 0 := by
  rw [List.countP_append, List.countP_map]
  congr 1
  split_ifs with h
  · exact List.countP_eq_length.mpr fun x _ ↦ by simpa using h
  · exact List.countP_eq_zero.mpr fun x _ ↦ by simpa using h

/-- A selection adds to the open step, within the groups it is to have. -/
theorem Sized.select {chunk : List Slot} (hz : Sized cfg s start) (hin : s.train.inStep = true)
    (hhand : s.train.inHand = 0) (hle : s.groupsDispatched + chunk.length ≤ cfg.numPromptsPerStep)
    (hv : s'.trainerVersion = s.trainerVersion)
    (hsel : s'.selected = s.selected ++ chunk.map fun x ↦ (s.trainerVersion, x))
    (hd : s'.groupsDispatched = s.groupsDispatched) (htrain : s'.train = .training chunk) :
    Sized cfg s' start := by
  have heq : ∀ v, trainedAt s' v =
      trainedAt s v + if s.trainerVersion = v then chunk.length else 0 := by
    intro v
    rw [trainedAt, hsel, trainedAt_append]
    rfl
  have hopen := hz.inStep hin
  have hstart := hz.start_le
  have hlatest : trainedAt s' s'.trainerVersion = s.groupsDispatched + chunk.length := by
    rw [heq, hv, if_pos rfl]
    omega
  refine ⟨by omega, ?_, ?_, ?_, by omega, ?_, ?_, ?_⟩
  · intro v hlt
    rw [heq, if_neg (by omega), hz.before v hlt]
  · intro v hlt
    rw [heq, if_neg (by omega), hz.after v (by omega)]
  · intro v hge hlt
    rw [heq, if_neg (by omega)]
    exact hz.closed v hge (by omega)
  · intro _
    rw [hlatest, hd, htrain]
    rfl
  · intro h
    rw [htrain] at h
    cases h
  · intro h
    rw [htrain] at h
    cases h

theorem Sized.steps {e : Event ρ} (hs : Sound cfg s) (hz : Sized cfg s start)
    (he : NoRestart s e) (h : step cfg s e = some s') : Sized cfg s' start := by
  have hclosing : s'.train = .closing → minStepGroups cfg ≤ s'.groupsDispatched := by
    intro hc
    rcases step_closing hs.pool h hc with ⟨hbefore, heq⟩ | hle
    · rw [heq]
      exact hz.closing hbefore
    · exact hle
  -- a turn of the train pump that ends with nothing in its hands
  have hidle : ∀ {phase : TrainPhase ρ}, phase.emptyHanded = true → phase.inHand = 0 ∧
      (phase.inStep = false → phase = .done) := by
    intro phase hp
    rcases TrainPhase.emptyHanded.cases hp with rfl | rfl | rfl | rfl <;>
      simp [TrainPhase.inHand, TrainPhase.inStep]
  have hframe : s'.train = s.train → s'.groupsDispatched = s.groupsDispatched →
      s'.trainerVersion = s.trainerVersion → s'.selected = s.selected → Sized cfg s' start := by
    intro ht hd hv hsel
    exact hz.keep hv hsel (fun hin ↦ .inl ⟨ht ▸ hin, by rw [ht, hd]⟩)
      (fun hin hdone ↦ ⟨ht ▸ hin, ht ▸ hdone⟩) hclosing
  have hsteps := step_cases hs.pool h
  cases hsteps with
  | turn i t hi hturn _ => cases hturn <;> exact hframe rfl rfl rfl rfl
  | evicts gone rm ids htrain _ _ =>
    refine hz.keep rfl rfl (fun _ ↦ .inl ?_) (fun hin ↦ by cases hin) hclosing
    exact ⟨by rw [htrain]; rfl, by rw [htrain]; rfl⟩
  | waits dp phase stopping hsel hi =>
    obtain ⟨hhand, hdone⟩ := hidle hi.emptyHanded
    have hin := TrainPhase.selecting.inStep hsel
    refine hz.keep rfl rfl (fun _ ↦ .inl ⟨hin, ?_⟩) (fun hout hne ↦ absurd (hdone hout) hne)
      hclosing
    rw [(TrainPhase.selecting.inHand hsel).1]
    simp only [release, hhand]
  | selects chunk rm hsel _ hch =>
    obtain ⟨target, htarget, hle⟩ := hch.within
    have hbound := (targetGroupsForStep_bounds htarget).2
    exact hz.select (TrainPhase.selecting.inStep hsel) (TrainPhase.selecting.inHand hsel).1
      (by omega) rfl rfl rfl rfl
  | trained chunk dp phase stopping opened htrain hi =>
    obtain ⟨hhand, hdone⟩ := hidle hi.emptyHanded
    refine hz.keep rfl rfl (fun _ ↦ .inl ⟨by rw [htrain]; rfl, ?_⟩)
      (fun hout hne ↦ absurd (hdone hout) hne) hclosing
    have hbefore : s.train.inHand = chunk.length := by
      rw [htrain]
      rfl
    simp only [hhand, hbefore, Nat.add_zero]
  | finished _ _ _ =>
    exact hz.keep rfl rfl (fun hin ↦ by cases hin) (fun _ hne ↦ absurd rfl hne) hclosing
  | closed tasks htrain _ _ _ => exact hz.advance htrain rfl rfl rfl
  | closedFrozen htrain _ => exact hz.advance htrain rfl rfl rfl
  | synced htrain =>
    exact hz.keep rfl rfl (fun hin ↦ by cases hin)
      (fun _ _ ↦ by rw [htrain]; exact ⟨rfl, by simp⟩) hclosing
  | saving stop htrain =>
    exact hz.keep rfl rfl (fun hin ↦ by cases hin)
      (fun _ _ ↦ by rw [htrain]; exact ⟨rfl, by simp⟩) hclosing
  | fetching save stop htrain =>
    exact hz.keep rfl rfl (fun hin ↦ by cases hin)
      (fun _ _ ↦ by rw [htrain]; exact ⟨rfl, by simp⟩) hclosing
  | begins checkpoints phase stopping version dispatched opened hfrom hb =>
    obtain ⟨hhand, hdone⟩ := hidle hb.idles.emptyHanded
    have hfrom : s.train.inStep = false ∧ s.train ≠ .done := by
      rcases hfrom with ⟨htrain, _⟩ | ⟨_, _, _, _, htrain, _⟩ <;>
        (rw [htrain]; exact ⟨rfl, by simp⟩)
    refine hz.keep rfl rfl (fun hin ↦ .inr ⟨hfrom.1, hfrom.2, ?_⟩)
      (fun hout hne ↦ absurd (hdone hout) hne) hclosing
    rcases hb.opened with ⟨-, rfl⟩ | ⟨rfl, -⟩
    · simp only [hhand]
    · cases hin
  | restarted k ck groups _ _ => exact he.elim
  | restored g rest n reserve htrain =>
    exact hz.keep rfl rfl (fun hin ↦ by cases hin)
      (fun _ _ ↦ by rw [htrain]; exact ⟨rfl, by simp⟩) hclosing
  | acquiredRestored n reserve htrain _ =>
    exact hz.keep rfl rfl (fun hin ↦ by cases hin)
      (fun _ _ ↦ by rw [htrain]; exact ⟨rfl, by simp⟩) hclosing
  | started reserve phase stopping version dispatched opened htrain hb =>
    obtain ⟨hhand, hdone⟩ := hidle hb.idles.emptyHanded
    refine hz.keep rfl rfl (fun hin ↦ .inr ⟨by rw [htrain]; rfl, by simp [htrain], ?_⟩)
      (fun hout hne ↦ absurd (hdone hout) hne) hclosing
    rcases hb.opened with ⟨-, rfl⟩ | ⟨rfl, -⟩
    · simp only [hhand]
    · cases hin
  | diverted | pulled | settling | admitted | acquiredBuffer | acquiredSem | launched | settled |
    drained | flagged | leaked | launchCancelled | failed =>
    exact hframe rfl rfl rfl rfl

end Sizes

section Processes

/-- The state a process starts in: that of a new run, or what a restart makes of a checkpoint. -/
def Booted (cfg : Config) (s : State ρ) : Prop :=
  Initial cfg s ∨ ∃ stopped k, Reachable (step cfg) (Initial cfg) stopped ∧
    step cfg stopped (.restart k) = some s

theorem Booted.reachable (h : Booted cfg s) : Reachable (step cfg) (Initial cfg) s := by
  rcases h with hinit | ⟨stopped, k, hstopped, hstep⟩
  · exact .init hinit
  · exact hstopped.step trivial hstep

theorem sound_of_reachable (h : Reachable (step cfg) (Initial cfg) s) : Sound cfg s :=
  (invariant_of_steps (I := fun _ ↦ True) trivial trivial (fun _ _ _ _ _ _ _ ↦ trivial) h).1

theorem Booted.sized (h : Booted cfg s) : Sized cfg s s.trainerVersion := by
  rcases h with rfl | ⟨stopped, k, hstopped, hstep⟩
  · have hfirst : Sized cfg (fresh cfg : State ρ) 0 := .first rfl rfl
    have hversion : (init cfg : State ρ).trainerVersion = 0 := by
      obtain ⟨phase, stopping, version, dispatched, opened, hbegin, -⟩ :=
        beginStep_eq cfg { (fresh cfg : State ρ) with pump := .idle }
      rw [init, startPumps, hbegin]
      rfl
    rw [hversion]
    exact hfirst.steps (e := .startPumps) (sound_fresh cfg) trivial rfl
  · simp only [step] at hstep
    repeat' split at hstep
    all_goals cases hstep
    exact .first rfl rfl

/-- In a process that starts at version `s₀.trainerVersion`, every step it has closed was trained
on at least the allowed fraction of the batch, so on some group, and no step on more than all. -/
theorem step_sizes (cfg : Config) (s₀ s : State ρ) (h₀ : Booted cfg s₀)
    (h : ReachableBy (step cfg) (· = s₀) NoRestart s) :
    (∀ v, v < s₀.trainerVersion → trainedAt s v = 0) ∧
      (∀ v, trainedAt s v ≤ cfg.numPromptsPerStep) ∧
      ∀ v, s₀.trainerVersion ≤ v → v < s.trainerVersion → minStepGroups cfg ≤ trainedAt s v ∧
        (0 < cfg.numPromptsPerStep → 0 < trainedAt s v) := by
  have hinv : Sound cfg s ∧ Sized cfg s s₀.trainerVersion := by
    refine h.invariant (I := fun s ↦ Sound cfg s ∧ Sized cfg s s₀.trainerVersion)
      (fun s hs ↦ ?_) fun s e t hs he ht ↦ ?_
    · rw [hs]
      exact ⟨sound_of_reachable h₀.reachable, h₀.sized⟩
    · obtain ⟨hsound, hz⟩ := hs
      exact ⟨hsound.steps (step_cases hsound.pool ht), hz.steps hsound he ht⟩
  obtain ⟨-, hz⟩ := hinv
  refine ⟨hz.before, fun v ↦ ?_, fun v hge hlt ↦ ?_⟩
  · rcases Nat.lt_trichotomy v s.trainerVersion with hlt | rfl | hgt
    · rcases Nat.lt_or_ge v s₀.trainerVersion with hold | hnew
      · rw [hz.before v hold]
        exact Nat.zero_le _
      · exact (hz.closed v hnew hlt).2
    · exact hz.latest
    · rw [hz.after v hgt]
      exact Nat.zero_le _
  · have hmin := (hz.closed v hge hlt).1
    refine ⟨hmin, fun hprompts ↦ ?_⟩
    have hpos := minStepGroups_pos hprompts
    omega

def savedRun : List (Event Unit) :=
  [.pull 1, .admitted] ++ generated 0 ++ [.pull 1, .admitted] ++ generated 0 ++
  [.poll, .trained true, .closeStep, .synced, .endStep true false, .snapshot, .saved]

theorem savedRun_ends : (exec (step singlePrompt) (init singlePrompt) savedRun).isSome := by
  decide +kernel

def savedState : State Unit := (exec (step singlePrompt) (init singlePrompt) savedRun).get savedRun_ends

theorem savedState_restarts : (step singlePrompt savedState (.restart 0)).isSome := by
  decide +kernel

def resumedBoot : State Unit := (step singlePrompt savedState (.restart 0)).get savedState_restarts

/-- A process resumed at version 1 closes that step on the restored group, and has the group
of the next one in its hands. -/
def resumedRun : List (Event Unit) :=
  [.restored, .acquireRestored, .startPumps, .pull 1, .admitted, .pull 1, .admitted] ++
  generated 0 ++
  [.poll, .trained true, .closeStep, .synced, .endStep false false, .poll]

theorem resumedRun_ends :
    (execBy (step singlePrompt) NoRestart resumedBoot resumedRun).isSome := by
  decide +kernel

def resumedState : State Unit :=
  (execBy (step singlePrompt) NoRestart resumedBoot resumedRun).get resumedRun_ends

theorem step_sizes_resumed :
    (resumedBoot.trainerVersion = 1 ∧ resumedState.trainerVersion = 2 ∧
      trainedAt resumedState 2 = 1) ∧
    minStepGroups singlePrompt ≤ trainedAt resumedState 1 ∧ (0 < 1 → 0 < trainedAt resumedState 1) :=
  ⟨by decide +kernel, (step_sizes singlePrompt resumedBoot resumedState
    (.inr ⟨savedState, 0, .run (initial_init singlePrompt) savedRun savedRun_ends,
      (Option.some_get savedState_restarts).symm⟩)
    (.execBy (.init rfl) resumedRun (Option.some_get resumedRun_ends).symm)).2.2 1
      (by decide +kernel) (by decide +kernel)⟩

end Processes

end NemoRL.SingleController
