import Mathlib
import NemoRL.SingleController.Dispatch

namespace NemoRL.SingleController

open DataPlane AsyncUtils Experience Experience.RolloutManager Foundations Foundations.Positions

variable {ρ : Type} {cfg : Config} {s : State ρ}

def TrainPhase.emptyHanded : TrainPhase ρ → Bool
  | .polling | .napping | .closing | .done => true
  | _ => false

/-- A turn of the train pump that moves no group; a step is closed once its
groups and its shortfall make up the batch. -/
structure Idles (cfg : Config) (s : State ρ) (version dispatched : ℕ) (phase : TrainPhase ρ)
    (stopping : Bool) : Prop where
  emptyHanded : phase.emptyHanded = true
  running : stopping = false → s.stopping = false ∧ phase ≠ .done
  closing : phase = .closing →
    cfg.numPromptsPerStep ≤ dispatched + s.batchShortfall version

theorem targetGroupsForStep_eq {step target : ℕ} (h : targetGroupsForStep cfg s step = some target) :
    cfg.numPromptsPerStep ≤ target + s.batchShortfall step ∧
      target + s.batchShortfall step ≤ max cfg.numPromptsPerStep (s.batchShortfall step) := by
  simp only [targetGroupsForStep] at h
  split_ifs at h
  obtain rfl := Option.some.inj h
  omega

theorem finishRun_idles (cfg : Config) (s : State ρ) (version dispatched : ℕ) :
    Idles cfg s version dispatched (.done : TrainPhase ρ) true :=
  ⟨rfl, by simp, by simp⟩

theorem loopHead_eq (cfg : Config) (s : State ρ) : ∃ phase stopping,
    loopHead cfg s = { s with train := phase, stopping := stopping } ∧
      Idles cfg s s.versionDuringStep s.groupsDispatched phase stopping := by
  unfold loopHead
  cases htarget : targetGroupsForStep cfg s s.versionDuringStep with
  | none => exact ⟨.done, true, rfl, finishRun_idles _ _ _ _⟩
  | some target =>
    obtain ⟨hle, _⟩ := targetGroupsForStep_eq htarget
    simp only
    split_ifs
    · exact ⟨.polling, s.stopping, rfl, rfl, fun h ↦ ⟨h, by simp⟩, by simp⟩
    · exact ⟨.closing, s.stopping, rfl, rfl, fun h ↦ ⟨h, by simp⟩, fun _ ↦ by omega⟩

/-- The next step is opened at the trainer's version, unless the run is over. -/
structure Begins (cfg : Config) (s : State ρ) (version dispatched : ℕ) (phase : TrainPhase ρ)
    (stopping : Bool) : Prop where
  idles : Idles cfg s version dispatched phase stopping
  opened : version = s.trainerVersion ∧ dispatched = 0 ∨ phase = .done ∧ stopping = true

theorem beginStep_eq (cfg : Config) (s : State ρ) : ∃ phase stopping version dispatched opened,
    beginStep cfg s = { s with
      train := phase
      stopping := stopping
      versionDuringStep := version
      groupsDispatched := dispatched
      stepOpen := opened } ∧ Begins cfg s version dispatched phase stopping := by
  unfold beginStep
  split_ifs
  · obtain ⟨phase, stopping, h, hi⟩ := loopHead_eq cfg { s with
      versionDuringStep := s.trainerVersion
      groupsDispatched := 0
      stepOpen := false }
    exact ⟨phase, stopping, _, _, _, h, ⟨hi.1, hi.2, hi.3⟩, .inl ⟨rfl, rfl⟩⟩
  · exact ⟨.done, true, _, _, _, rfl, finishRun_idles _ _ _ _, .inr ⟨rfl, rfl⟩⟩

theorem nextStep_eq (cfg : Config) (s : State ρ) (stop : Bool) :
    ∃ phase stopping version dispatched opened,
    nextStep cfg s stop = { s with
      train := phase
      stopping := stopping
      versionDuringStep := version
      groupsDispatched := dispatched
      stepOpen := opened } ∧ Begins cfg s version dispatched phase stopping := by
  unfold nextStep
  split_ifs
  · exact ⟨.done, true, _, _, _, rfl, finishRun_idles _ _ _ _, .inr ⟨rfl, rfl⟩⟩
  · exact beginStep_eq cfg s

/-- A selection hands out ready slots and pays their permits back. -/
structure Selects (cfg : Config) (s : State ρ) (chunk : List Slot)
    (rm : RolloutManager.State ρ) : Prop where
  pool : Pool rm s.tasks
  ready : (readySlots s.rm).Perm (chunk ++ readySlots rm)
  eligible : ∀ x ∈ chunk, s.sampler.eligible s.rm.slots s.trainerVersion x = true
  weightVersion : rm.weightVersion = s.rm.weightVersion
  nonempty : 1 ≤ chunk.length
  within : ∃ target, targetGroupsForStep cfg s s.versionDuringStep = some target ∧
    s.groupsDispatched + chunk.length ≤ target

theorem choose_cases (cfg : Config) (hp : Pool s.rm s.tasks) :
    (∃ phase stopping, choose cfg s = { s with train := phase, stopping := stopping } ∧
      Idles cfg s s.versionDuringStep s.groupsDispatched phase stopping) ∨
    ∃ chunk rm, Selects cfg s chunk rm ∧ choose cfg s = { release s chunk.length with
      rm := rm
      train := .training chunk
      selected := s.selected ++ chunk.map fun x ↦ (s.trainerVersion, x) } := by
  have hfinish : ∃ phase stopping,
      finishRun s = { s with train := phase, stopping := stopping } ∧
        Idles cfg s s.versionDuringStep s.groupsDispatched phase stopping :=
    ⟨.done, true, rfl, finishRun_idles _ _ _ _⟩
  unfold choose
  cases htarget : targetGroupsForStep cfg s s.versionDuringStep with
  | none => exact .inl hfinish
  | some target =>
    simp only
    by_cases hzero : target - s.groupsDispatched = 0
    · rw [if_pos hzero]
      obtain ⟨hle, _⟩ := targetGroupsForStep_eq htarget
      exact .inl ⟨.closing, s.stopping, rfl, rfl, fun h ↦ ⟨h, by simp⟩, fun _ ↦ by omega⟩
    · rw [if_neg hzero]
      cases hsel : s.sampler.select s.rm.slots s.trainerVersion
          (min cfg.minGroupsForStreamingTrain (target - s.groupsDispatched))
          (target - s.groupsDispatched) with
      | none => exact .inl hfinish
      | some choice =>
        cases choice with
        | none =>
          simp only
          split_ifs
          · exact .inl hfinish
          · exact .inl ⟨.napping, s.stopping, rfl, rfl, fun h ↦ ⟨h, by simp⟩, by simp⟩
        | some idxs =>
          simp only
          cases hrem : s.rm.plane.buffer.remove idxs with
          | mk b ids =>
            cases ids with
            | none => exact .inl hfinish
            | some ids =>
              obtain ⟨hnd, helig, hlt, hpos, _, hle⟩ := Sampler.select_eq_some hsel
              have hlen := length_entriesAt hlt
              obtain ⟨htidy, howns, hready⟩ := hp.owns.removeReady hp.tidy hnd
                (fun x hx ↦ Sampler.ready_of_eligible (helig x hx)) hrem
              exact .inr ⟨_, _, ⟨⟨htidy, howns, hp.registry, hp.prompts⟩, hready, helig, rfl,
                by omega, target, htarget, by omega⟩, rfl⟩

/-- An eviction takes ready slots away whose permits are paid back later. -/
structure Evicts (s : State ρ) (gone : List Slot) (rm : RolloutManager.State ρ) : Prop where
  pool : Pool rm s.tasks
  ready : (readySlots s.rm).Perm (gone ++ readySlots rm)
  stale : ∀ x ∈ gone, s.sampler.stale s.trainerVersion x = true
  weightVersion : rm.weightVersion = s.rm.weightVersion

theorem evict_cases (cfg : Config) (hp : Pool s.rm s.tasks) :
    (evict cfg s = choose cfg s ∧ s.rm.slots.countP (s.sampler.stale s.trainerVersion) = 0) ∨
    ∃ gone rm ids, Evicts s gone rm ∧ gone.length ≠ 0 ∧
      evict cfg s = { s with rm := rm, train := .evicting ids gone.length } := by
  obtain ⟨hnd, hstale, hlt, hcount⟩ := s.sampler.staleIdxs_spec s.rm.slots s.trainerVersion
  unfold evict
  cases hidx : s.sampler.staleIdxs s.rm.slots s.trainerVersion with
  | nil =>
    rw [hidx] at hcount
    exact .inl ⟨rfl, hcount.symm⟩
  | cons i idxs =>
    rw [hidx] at hnd hstale hlt
    have hi : ∀ j ∈ i :: idxs, j < s.rm.plane.buffer.size := fun j hj ↦
      TQReplayBuffer.length_slots _ ▸ hlt j hj
    obtain ⟨_, ids, hids, _⟩ := TQReplayBuffer.remove_spec hnd hi
    have hrem : s.rm.plane.buffer.remove (i :: idxs) =
        ((s.rm.plane.buffer.remove (i :: idxs)).1, some ids) := by rw [← hids]
    simp only
    rw [hrem]
    have hlen := length_entriesAt hlt
    obtain ⟨htidy, howns, hready⟩ := hp.owns.removeReady hp.tidy hnd
      (fun x hx ↦ Sampler.ready_of_stale (hstale x hx)) hrem
    refine .inr ⟨_, _, ids, ⟨⟨htidy, howns, hp.registry, hp.prompts⟩, hready, hstale, rfl⟩, ?_,
      by simp only [hlen]⟩
    simp [hlen]

def TrainPhase.owed : TrainPhase ρ → ℕ
  | .evicting _ n => n
  | _ => 0

def TrainPhase.starting : TrainPhase ρ → Bool
  | .restoring _ _ _ | .loadingReserve _ => true
  | _ => false

def TrainPhase.selecting : TrainPhase ρ → Bool
  | .polling | .napping | .evicting _ _ => true
  | _ => false

def withRows (rm : RolloutManager.State ρ) (dp : KeyedStore SampleId (Row ρ)) :
    RolloutManager.State ρ := { rm with plane.dp := dp }

def Flagged (s : State ρ) (tasks : List (Task ρ)) : Prop :=
  ∃ f : Task ρ → Bool, tasks = s.tasks.map fun t ↦
    if f t then { t with cancelRequested := true } else t

inductive Steps (cfg : Config) (s : State ρ) : Event ρ → State ρ → Prop
  | diverted {e : Event ρ} (n : ℕ) : s.pump = .idle → s.draining = false →
      Steps cfg s e { s with
        dataloader := s.dataloader + n
        replacementReserve := s.replacementReserve ++ List.range' s.dataloader n }
  | pulled (n : ℕ) : s.pump = .idle → s.draining = false →
      Steps cfg s (.pull n) { s with
        dataloader := s.dataloader + n, pump := .admitting (List.range' s.dataloader n) }
  | settling {e : Event ρ} : s.pump = .idle → Steps cfg s e { s with pump := .settling }
  | admitted (prompts : List ℕ) : s.pump = .admitting prompts →
      s.sampler.admits s.trainerVersion = true →
      Steps cfg s .admitted (admitBatch s prompts)
  | acquiredBuffer {e : Event ρ} (prompts : List ℕ) (target : Option ℕ) :
      s.pump = .launching prompts target .buffer → 0 < s.bufferCapacity →
      Steps cfg s e { s with
        bufferCapacity := s.bufferCapacity - 1, pump := .launching prompts target .sem }
  | acquiredSem {e : Event ρ} (prompts : List ℕ) (target : Option ℕ) :
      s.pump = .launching prompts target .sem → 0 < s.sem →
      Steps cfg s e { s with
        sem := s.sem - 1, pump := .launching prompts target (.permitted s.rolloutPermitted) }
  | launched {e : Event ρ} (prompt : ℕ) (rest : List ℕ) (target : Option ℕ) :
      s.pump = .launching (prompt :: rest) target (.permitted true) →
      Steps cfg s e { s with
        tasks := s.tasks ++ [⟨0, false, .created prompt target⟩]
        pump := launchNext rest target }
  | settled {e : Event ρ} (pump : PumpPhase) (draining exhausted : Bool) :
      s.pump = .settling → s.tasks = [] →
      (pump = .idle ∧ draining = true ∨ pump = .finished ∧ draining = s.draining) →
      Steps cfg s e { s with
        pump := pump, draining := draining, rolloutExhausted := exhausted }
  | drained {e : Event ρ} : s.pump = .idle → s.draining = true →
      cfg.numPromptsPerStep ≤ s.replacementReserve.length →
      Steps cfg s e { s with
        replacementReserve := s.replacementReserve.drop cfg.numPromptsPerStep
        pump := .admitting (s.replacementReserve.take cfg.numPromptsPerStep) }
  | turn {e : Event ρ} {s' : State ρ} (i : ℕ) (t : Task ρ) : s.tasks[i]? = some t →
      Turn cfg s i t s' → Pool s'.rm s'.tasks → Steps cfg s e s'
  | flagged {e : Event ρ} (i : ℕ) (t : Task ρ) : s.stopping = true → s.tasks[i]? = some t →
      Steps cfg s e { s with tasks := s.tasks.set i { t with cancelRequested := true } }
  | leaked (i : ℕ) (t : Task ρ) : s.tasks[i]? = some t → t.held = none →
      t.registered = none → t.cancelRequested = true →
      Steps cfg s (.cancelWaiting i) (endTask s i)
  | launchCancelled (prompts : List ℕ) (target : Option ℕ) (stage : LaunchStage) :
      s.pump = .launching prompts target stage → s.stopping = true →
      Steps cfg s .cancelLaunch { s with pump := .aborted }
  | evicts {e : Event ρ} (gone : List Slot) (rm : RolloutManager.State ρ)
      (ids : List SampleId) : s.train = .polling → Evicts s gone rm → gone.length ≠ 0 →
      Steps cfg s e { s with rm := rm, train := .evicting ids gone.length }
  | waits {e : Event ρ} (dp : KeyedStore SampleId (Row ρ)) (phase : TrainPhase ρ)
      (stopping : Bool) : s.train.selecting = true →
      Idles cfg s s.versionDuringStep s.groupsDispatched phase stopping →
      Steps cfg s e { release s s.train.owed with
        rm := withRows s.rm dp, train := phase, stopping := stopping }
  | selects {e : Event ρ} (chunk : List Slot) (rm : RolloutManager.State ρ) :
      s.train.selecting = true → s.train ≠ .napping → Selects cfg s chunk rm →
      Steps cfg s e { release s (s.train.owed + chunk.length) with
        rm := rm
        train := .training chunk
        selected := s.selected ++ chunk.map fun x ↦ (s.trainerVersion, x) }
  | trained {e : Event ρ} (chunk : List Slot) (dp : KeyedStore SampleId (Row ρ))
      (phase : TrainPhase ρ) (stopping opened : Bool) : s.train = .training chunk →
      Idles cfg s s.versionDuringStep (s.groupsDispatched + chunk.length) phase stopping →
      Steps cfg s e { s with
        rm := withRows s.rm dp
        train := phase
        stopping := stopping
        groupsDispatched := s.groupsDispatched + chunk.length
        stepOpen := opened }
  | finished {e : Event ρ} : s.train.owed = 0 → s.train.starting = false →
      s.train ≠ .syncing → Steps cfg s e (finishRun s)
  | closed {e : Event ρ} (tasks : List (Task ρ)) : s.train = .closing →
      policyStart cfg ≤ s.trainSteps → Flagged s tasks →
      (cfg.sampler.stamps = true → s.sampler.config = cfg.sampler → tasks = s.tasks) →
      Steps cfg s e { advanceVersion s with
        rolloutPermitted := false, train := .syncing, tasks := tasks }
  | closedFrozen {e : Event ρ} : s.train = .closing → s.trainSteps < policyStart cfg →
      Steps cfg s e (settleStep cfg (advanceVersion s))
  | synced {e : Event ρ} : s.train = .syncing → Steps cfg s e (settleStep cfg (permit s))
  | saving {e : Event ρ} (stop : Bool) : s.train = .stepped →
      Steps cfg s e { s with
        train := .saving ⟨s.trainSteps, s.dataloader, s.replacementReserve⟩ stop }
  | fetching {e : Event ρ} (save : SaveState) (stop : Bool) : s.train = .saving save stop →
      Steps cfg s e { s with
        train := .fetching save s.rm.plane.buffer.snapshot stop }
  | begins {e : Event ρ} (checkpoints : List (Checkpoint ρ)) (phase : TrainPhase ρ)
      (stopping : Bool) (version dispatched : ℕ) (opened : Bool) :
      (s.train = .stepped ∧ checkpoints = s.checkpoints ∨
        ∃ save slots stop groups, s.train = .fetching save slots stop ∧
          slots.mapM (TQReplayBuffer.fetchGroup s.rm.plane.dp) = some groups ∧
          checkpoints = s.checkpoints ++ [⟨save, Envelope.ofSaved cfg.buffer.partitionId
            cfg.maxBufferedRollouts groups⟩]) →
      Begins cfg s version dispatched phase stopping →
      Steps cfg s e { s with
        checkpoints := checkpoints
        train := phase
        stopping := stopping
        versionDuringStep := version
        groupsDispatched := dispatched
        stepOpen := opened }
  | failed {e : Event ρ} : Steps cfg s e { s with stopping := true }
  | restarted (k : ℕ) (checkpoint : Checkpoint ρ) (groups : List (SavedGroup ρ)) :
      s.checkpoints[k]? = some checkpoint →
      TQReplayBuffer.preflight checkpoint.buffer cfg.maxBufferedRollouts
        cfg.buffer.partitionId cfg.numGenerationsPerPrompt = .ok groups →
      Steps cfg s (.restart k)
        (boot cfg s.rm.nextSerial checkpoint.toSaveState groups s.checkpoints)
  | restored {e : Event ρ} (g : SavedGroup ρ) (rest : List (SavedGroup ρ)) (n : ℕ)
      (reserve : List ℕ) : s.train = .restoring (g :: rest) n reserve →
      Steps cfg s e { s with
        rm.plane := TQReplayBuffer.restoreGroup s.rm.plane g
        train := .restoring rest (n + 1) reserve }
  | acquiredRestored {e : Event ρ} (n : ℕ) (reserve : List ℕ) :
      s.train = .restoring [] n reserve → n ≤ s.bufferCapacity →
      Steps cfg s e { s with
        bufferCapacity := s.bufferCapacity - n, train := .loadingReserve reserve }
  | started {e : Event ρ} (reserve : List ℕ) (phase : TrainPhase ρ) (stopping : Bool)
      (version dispatched : ℕ) (opened : Bool) : s.train = .loadingReserve reserve →
      Begins cfg s version dispatched phase stopping →
      Steps cfg s e { s with
        replacementReserve := s.replacementReserve ++ reserve
        pump := .idle
        train := phase
        stopping := stopping
        versionDuringStep := version
        groupsDispatched := dispatched
        stepOpen := opened }

theorem startCall_turn (cfg : Config) {i n : ℕ} {phase : TaskPhase ρ} {prompt : ℕ} {target : Option ℕ}
    (hp : Pool s.rm s.tasks) (hi : s.tasks[i]? = some ⟨n, false, phase⟩)
    (hphase : phase = .created prompt target ∨ phase = .waiting prompt target true) :
    Pool (startCall s i ⟨n, false, phase⟩ prompt target).rm
        (startCall s i ⟨n, false, phase⟩ prompt target).tasks ∧
      Turn cfg s i ⟨n, false, phase⟩ (startCall s i ⟨n, false, phase⟩ prompt target) := by
  have hidle : (⟨n, false, phase⟩ : Task ρ).held = none ∧
      (⟨n, false, phase⟩ : Task ρ).registered = none ∧
      (⟨n, false, phase⟩ : Task ρ).target = target ∧
      (⟨n, false, phase⟩ : Task ρ).prompt = prompt := by
    rcases hphase with rfl | rfl <;> exact ⟨rfl, rfl, rfl, rfl⟩
  obtain ⟨hh, hr, ht, hq⟩ := hidle
  obtain ⟨rm, c, heq, hpool, hready, hprompt, htarget, hc, hheld⟩ := startCall_eq cfg
    (t := ⟨n, false, phase⟩) prompt target (hp.erase hi hh hr) hi
  rw [heq]
  refine ⟨hpool, .moved rm _ ⟨htarget.trans ht.symm, hprompt.trans hq.symm,
    fun x hx ↦ .inr (hheld x hx), fun _ ↦ ⟨rfl, ?_⟩⟩ hready⟩
  rintro _ ⟨⟩
  exact hc

theorem closeStep_steps {e : Event ρ} (h : s.train = .closing) :
    Steps cfg s e (closeStep cfg s) := by
  unfold closeStep
  split_ifs with hopen hpolicy hgym
  · exact .finished (by rw [h]; rfl) (by rw [h]; rfl) (by simp [h])
  · exact .closed s.tasks h hpolicy ⟨fun _ ↦ false, by simp⟩ fun _ _ ↦ rfl
  · refine .closed _ h hpolicy ⟨_, rfl⟩ fun hs hc ↦ ?_
    have hnone : ∀ v w, s.sampler.shouldAbortInflight v w = false := by
      intro v w
      unfold Sampler.shouldAbortInflight
      rw [hc]
      cases hcfg : cfg.sampler <;> simp [hcfg, SamplerConfig.stamps] at hs ⊢
    have hfilter : s.rm.registry.filter
        (fun r ↦ s.sampler.shouldAbortInflight r.2 (s.trainerVersion + 1)) = [] :=
      List.filter_eq_nil_iff.mpr fun r _ ↦ by simp [hnone]
    simp [advanceVersion, hfilter]
  · exact .closedFrozen h (by omega)

theorem choose_steps (cfg : Config) {e : Event ρ} (dp : KeyedStore SampleId (Row ρ))
    (hp : Pool s.rm s.tasks) (hs : s.train.selecting = true) (hn : s.train ≠ .napping) :
    Steps cfg s e (choose cfg (release { s with rm := withRows s.rm dp } s.train.owed)) := by
  rcases choose_cases cfg (s := release { s with rm := withRows s.rm dp } s.train.owed)
    ⟨⟨hp.tidy.1, hp.tidy.2, hp.tidy.3, hp.tidy.4⟩, hp.owns, hp.registry, hp.prompts⟩ with
    ⟨phase, stopping, heq, hi⟩ | ⟨chunk, rm, hsel, heq⟩
  · rw [heq]
    exact .waits dp phase stopping hs ⟨hi.1, hi.2, hi.3⟩
  · rw [heq]
    have hsel' : Selects cfg s chunk rm :=
      ⟨hsel.pool, hsel.ready, hsel.eligible, hsel.weightVersion, hsel.nonempty, hsel.within⟩
    have hsteps := Steps.selects (e := e) chunk rm hs hn hsel'
    simp only [release, Nat.add_assoc] at hsteps ⊢
    exact hsteps

theorem step_cases {e : Event ρ} {s' : State ρ} (hp : Pool s.rm s.tasks)
    (h : step cfg s e = some s') : Steps cfg s e s' := by
  cases e with
  | pull n =>
    simp only [step] at h
    split at h
    · rename_i hpump hdrain
      split_ifs at h
      · obtain rfl := Option.some.inj h
        exact .diverted n hpump hdrain
      · obtain rfl := Option.some.inj h
        exact .pulled n hpump hdrain
    · cases h
  | endEpochs =>
    simp only [step] at h
    split at h
    · rename_i hpump hdrain
      obtain rfl := Option.some.inj h
      exact .settling hpump
    · cases h
  | admitted =>
    simp only [step] at h
    split at h
    · rename_i prompts hpump
      split_ifs at h with hadm
      obtain rfl := Option.some.inj h
      exact .admitted prompts hpump hadm
    · cases h
  | acquireBuffer =>
    simp only [step] at h
    split at h
    · rename_i prompts target hpump
      split_ifs at h with hpos
      obtain rfl := Option.some.inj h
      exact .acquiredBuffer prompts target hpump hpos
    · cases h
  | acquireSem =>
    simp only [step] at h
    split at h
    · rename_i prompts target hpump
      split_ifs at h with hpos
      obtain rfl := Option.some.inj h
      exact .acquiredSem prompts target hpump hpos
    · cases h
  | launch =>
    simp only [step] at h
    split at h
    · rename_i prompt rest target hpump
      obtain rfl := Option.some.inj h
      exact .launched prompt rest target hpump
    · cases h
  | settle =>
    simp only [step] at h
    split at h
    · rename_i hpump htasks
      split_ifs at h with hdrain
      · obtain rfl := Option.some.inj h
        exact .settled .finished s.draining true hpump htasks (.inr ⟨rfl, rfl⟩)
      · obtain rfl := Option.some.inj h
        exact .settled .idle true s.rolloutExhausted hpump htasks (.inl ⟨rfl, rfl⟩)
    · cases h
  | drain =>
    simp only [step] at h
    split at h
    · rename_i hpump hdrain
      split_ifs at h with hlen
      · obtain rfl := Option.some.inj h
        exact .drained hpump hdrain hlen
      · obtain rfl := Option.some.inj h
        exact .settling hpump
    · cases h
  | startTask i =>
    simp only [step] at h
    split at h
    · rename_i n prompt target hi
      obtain rfl := Option.some.inj h
      obtain ⟨hpool, hturn⟩ := startCall_turn cfg hp hi (.inl rfl)
      exact .turn i _ hi hturn hpool
    · cases h
  | resumeTask i answer =>
    simp only [step] at h
    split at h
    · rename_i n cancelled c hi
      split_ifs at h with hc
      obtain ⟨r, hr, rfl⟩ := Option.map_eq_some_iff.mp h
      obtain ⟨hpool, hturn⟩ := afterCall_turn hp hi hc hr
      exact .turn i _ hi hturn hpool
    · cases h
  | resumeWaiting i =>
    simp only [step] at h
    split at h
    · rename_i n prompt target hi
      obtain rfl := Option.some.inj h
      obtain ⟨hpool, hturn⟩ := startCall_turn cfg hp hi (.inr rfl)
      exact .turn i _ hi hturn hpool
    · cases h
  | requestCancel i =>
    simp only [step] at h
    split at h
    · rename_i t hi hstop
      obtain rfl := Option.some.inj h
      exact .flagged i t hstop hi
    · cases h
  | cancelCreated i =>
    simp only [step] at h
    split at h
    · rename_i n prompt target hi
      obtain rfl := Option.some.inj h
      refine .turn i _ hi (.ended s.rm s.stopping (fun hs ↦ ⟨hs, fun hu ↦ ?_⟩)
        ⟨List.Perm.refl _, rfl⟩) (hp.erase hi rfl rfl)
      exact absurd hu.1 (by simp)
    · cases h
  | cancelWaiting i =>
    simp only [step] at h
    split at h
    · rename_i n prompt target granted hi
      obtain rfl := Option.some.inj h
      exact .leaked i _ hi rfl rfl rfl
    · cases h
  | cancelLaunch =>
    simp only [step] at h
    split at h
    · rename_i prompts target stage hpump hstop
      obtain rfl := Option.some.inj h
      exact .launchCancelled prompts target stage hpump hstop
    · cases h
  | poll =>
    simp only [step] at h
    split at h
    · rename_i htrain
      obtain rfl := Option.some.inj h
      rcases evict_cases cfg hp with ⟨heq, _⟩ | ⟨gone, rm, ids, hev, hne, heq⟩
      · rw [heq]
        have hsteps := choose_steps cfg (e := .poll) s.rm.plane.dp hp
          (by rw [htrain]; rfl) (by rw [htrain]; simp)
        have howed : s.train.owed = 0 := by rw [htrain]; rfl
        rw [howed] at hsteps
        exact hsteps
      · rw [heq]
        exact .evicts gone rm ids htrain hev hne
    · cases h
  | evicted =>
    simp only [step] at h
    split at h
    · rename_i ids n htrain
      obtain rfl := Option.some.inj h
      have hsteps := choose_steps cfg (e := .evicted) (s.rm.plane.dp.clear ids) hp
        (by rw [htrain]; rfl) (by rw [htrain]; simp)
      have howed : s.train.owed = n := by rw [htrain]; rfl
      rw [howed] at hsteps
      exact hsteps
    · cases h
  | wake =>
    simp only [step] at h
    split at h
    · rename_i htrain
      obtain rfl := Option.some.inj h
      obtain ⟨phase, stopping, heq, hi⟩ := loopHead_eq cfg s
      rw [heq]
      have hsteps : Steps cfg s .wake _ :=
        .waits s.rm.plane.dp phase stopping (by rw [htrain]; rfl) hi
      have howed : s.train.owed = 0 := by rw [htrain]; rfl
      rw [howed] at hsteps
      exact hsteps
    · cases h
  | trained valid =>
    simp only [step] at h
    split at h
    · rename_i chunk htrain
      split_ifs at h
      · obtain rfl := Option.some.inj h
        exact .finished (by rw [htrain]; rfl) (by rw [htrain]; rfl) (by simp [htrain])
      · obtain rfl := Option.some.inj h
        obtain ⟨phase, stopping, heq, hi⟩ := loopHead_eq cfg
          { clearSamples s (chunk.flatMap Slot.rowIds) with
            groupsDispatched := s.groupsDispatched + chunk.length
            stepOpen := s.stepOpen || valid }
        rw [heq]
        exact .trained chunk _ phase stopping _ htrain ⟨hi.1, hi.2, hi.3⟩
    · cases h
  | closeStep =>
    simp only [step] at h
    split at h
    · rename_i htrain
      obtain rfl := Option.some.inj h
      exact closeStep_steps htrain
    · cases h
  | synced =>
    simp only [step] at h
    split at h
    · rename_i htrain
      split_ifs at h
      obtain rfl := Option.some.inj h
      exact .synced htrain
    · cases h
  | endStep save stop =>
    simp only [step] at h
    split at h
    · rename_i htrain
      split_ifs at h
      · obtain rfl := Option.some.inj h
        exact .saving stop htrain
      · obtain rfl := Option.some.inj h
        obtain ⟨phase, stopping, v, g, o, heq, hb⟩ := nextStep_eq cfg s stop
        rw [heq]
        exact .begins s.checkpoints phase stopping v g o (.inl ⟨htrain, rfl⟩) hb
    · cases h
  | snapshot =>
    simp only [step] at h
    split at h
    · rename_i save stop htrain
      obtain rfl := Option.some.inj h
      exact .fetching save stop htrain
    · cases h
  | saved =>
    simp only [step] at h
    split at h
    · rename_i save slots stop htrain
      split at h
      · obtain rfl := Option.some.inj h
        exact .finished (by rw [htrain]; rfl) (by rw [htrain]; rfl) (by simp [htrain])
      · rename_i groups hgroups
        obtain rfl := Option.some.inj h
        obtain ⟨phase, stopping, v, g, o, heq, hb⟩ := nextStep_eq cfg { s with
          checkpoints := s.checkpoints ++ [⟨save, Envelope.ofSaved cfg.buffer.partitionId
            cfg.maxBufferedRollouts groups⟩] } stop
        rw [heq]
        exact .begins _ phase stopping v g o
          (.inr ⟨save, slots, stop, groups, htrain, hgroups, rfl⟩)
          ⟨⟨hb.idles.1, hb.idles.2, hb.idles.3⟩, hb.opened⟩
    · cases h
  | fail =>
    obtain rfl := Option.some.inj h
    exact .failed
  | restart k =>
    simp only [step] at h
    split at h
    · cases h
    · rename_i checkpoint hk
      split at h
      · cases h
      · rename_i groups hpre
        obtain rfl := Option.some.inj h
        exact .restarted k checkpoint groups hk hpre
  | restored =>
    simp only [step] at h
    split at h
    · rename_i g rest n reserve htrain
      obtain rfl := Option.some.inj h
      exact .restored g rest n reserve htrain
    · cases h
  | acquireRestored =>
    simp only [step] at h
    split at h
    · rename_i n reserve htrain
      split_ifs at h with hle
      obtain rfl := Option.some.inj h
      exact .acquiredRestored n reserve htrain hle
    · cases h
  | startPumps =>
    simp only [step] at h
    split at h
    · rename_i reserve htrain
      obtain rfl := Option.some.inj h
      obtain ⟨phase, stopping, v, g, o, heq, hb⟩ := beginStep_eq cfg
        { s with replacementReserve := s.replacementReserve ++ reserve, pump := .idle }
      unfold startPumps
      rw [heq]
      exact .started reserve phase stopping v g o htrain
        ⟨⟨hb.idles.1, hb.idles.2, hb.idles.3⟩, hb.opened⟩
    · cases h

end NemoRL.SingleController
