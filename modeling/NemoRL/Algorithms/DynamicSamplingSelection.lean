import Mathlib
import NemoRL.Algorithms.DynamicSamplingRuns

namespace NemoRL.Algorithms

open Foundations.Spread

variable {ρ κ : Type} [DecidableEq κ] {prompt : ρ → κ} {reward stdReward : ρ → ℚ}
  {config : SamplingConfig}

theorem take_flatten {α : Type} {size : ℕ} {groups : List (List α)}
    (h : ∀ g ∈ groups, g.length = size) (n : ℕ) :
    groups.flatten.take (n * size) = (groups.take n).flatten := by
  induction groups generalizing n with
  | nil => simp
  | cons g groups ih =>
    obtain ⟨hg, hrest⟩ := List.forall_mem_cons.mp h
    cases n with
    | zero => simp
    | succ n =>
      have hsize : (n + 1) * size - g.length = n * size := by
        rw [hg, Nat.succ_mul, Nat.add_sub_cancel]
      have hg' : g.length ≤ (n + 1) * size := by
        rw [hg, Nat.succ_mul]
        exact Nat.le_add_left ..
      rw [List.flatten_cons, List.take_append, List.take_of_length_le hg', hsize, ih hrest,
        List.take_succ_cons, List.flatten_cons]

theorem length_flatten_of_size {α : Type} {size : ℕ} {groups : List (List α)}
    (h : ∀ g ∈ groups, g.length = size) : groups.flatten.length = groups.length * size := by
  rw [List.length_flatten, List.map_congr_left h, List.map_const', List.sum_replicate,
    smul_eq_mul]

section Events

/-- What a run of a trainer with `use_dynamic_sampling` consists of. -/
inductive TrainerEvent (prompt : ρ → κ) (config : SamplingConfig)
  | generated (batch : PromptBatch prompt config.numGenerationsPerPrompt)
  | newEpoch

inductive Trainer
  | grpoTrain
  | grpoTrainSync

def GrpoTrain.event (reward stdReward : ρ → ℚ) (config : SamplingConfig) (st : GrpoTrain ρ) :
    TrainerEvent prompt config → Except SamplingError (GrpoTrain ρ)
  | .generated batch => st.generate prompt reward stdReward config batch.groups.flatten
  | .newEpoch => .ok st.newEpoch

def GrpoTrainSync.event (reward stdReward : ρ → ℚ) (config : SamplingConfig)
    (st : GrpoTrainSync ρ) : TrainerEvent prompt config → Except SamplingError (GrpoTrainSync ρ)
  | .generated batch => st.generate prompt reward stdReward config batch.groups.flatten
  | .newEpoch => .ok st.newEpoch

def Trainer.run (t : Trainer) (reward stdReward : ρ → ℚ) (config : SamplingConfig)
    (events : List (TrainerEvent prompt config)) : Except SamplingError (List (List ρ)) :=
  match t with
  | .grpoTrain => do
    let st ← events.foldlM (GrpoTrain.event reward stdReward config) .init
    return st.trained.map FilteredBatch.plain
  | .grpoTrainSync => do
    let st ← events.foldlM (GrpoTrainSync.event reward stdReward config) .init
    return st.trained.map (List.map SampledRow.row)

def Sampler.event (reward stdReward : ρ → ℚ) (config : SamplingConfig) (st : Sampler ρ) :
    TrainerEvent prompt config → Option (Sampler ρ)
  | .generated batch => st.generate config
      (keptRows prompt reward stdReward config.useLeaveOneOutBaseline batch.groups.flatten)
  | .newEpoch => some st.newEpoch

def Sampler.run (reward stdReward : ρ → ℚ) (config : SamplingConfig)
    (events : List (TrainerEvent prompt config)) : Option (Sampler ρ) :=
  events.foldlM (Sampler.event reward stdReward config) .init

def variedOf (stdReward : ρ → ℚ) (events : List (TrainerEvent prompt config)) : List (List ρ) :=
  events.flatMap fun
    | .generated batch => variedGroups stdReward batch.groups
    | .newEpoch => []

end Events

section Simulation

variable (reward stdReward)

theorem GrpoTrain.event_agrees {st : GrpoTrain ρ} {a : Sampler ρ} (h : st.Agrees config a)
    (event : TrainerEvent prompt config) :
    match a.event reward stdReward config event with
    | some a' => ∃ st', st.event reward stdReward config event = .ok st' ∧ st'.Agrees config a'
    | none => ∃ e, st.event reward stdReward config event = .error e := by
  cases event with
  | generated batch => exact GrpoTrain.generate_agrees h batch.groups.flatten
  | newEpoch => exact ⟨_, rfl, rfl, nofun, config.trainPromptsSize_pos, rfl, h.trained⟩

theorem GrpoTrainSync.event_agrees {st : GrpoTrainSync ρ} {a : Sampler ρ} (h : st.Agrees config a)
    (event : TrainerEvent prompt config) :
    match a.event reward stdReward config event with
    | some a' => ∃ st', st.event reward stdReward config event = .ok st' ∧ st'.Agrees config a'
    | none => ∃ e, st.event reward stdReward config event = .error e := by
  cases event with
  | generated batch => exact GrpoTrainSync.generate_agrees h batch.groups.flatten
  | newEpoch => exact ⟨_, rfl, rfl, config.trainPromptsSize_pos, rfl, h.trained⟩

theorem foldlM_agrees {σ ε E : Type} {step : σ → E → Except ε σ}
    {abs : Sampler ρ → E → Option (Sampler ρ)} {R : σ → Sampler ρ → Prop}
    (hstep : ∀ st a, R st a → ∀ event, match abs a event with
      | some a' => ∃ st', step st event = .ok st' ∧ R st' a'
      | none => ∃ e, step st event = .error e)
    (events : List E) {st : σ} {a : Sampler ρ} (h : R st a) :
    match events.foldlM abs a with
    | some a' => ∃ st', events.foldlM step st = .ok st' ∧ R st' a'
    | none => ∃ e, events.foldlM step st = .error e := by
  induction events generalizing st a with
  | nil => exact ⟨st, rfl, h⟩
  | cons event events ih =>
    have hone := hstep st a h event
    rw [List.foldlM_cons, List.foldlM_cons]
    cases habs : abs a event with
    | none =>
      rw [habs] at hone
      obtain ⟨e, he⟩ := hone
      rw [he]
      exact ⟨e, rfl⟩
    | some a' =>
      rw [habs] at hone
      obtain ⟨st', hst', hR⟩ := hone
      rw [hst']
      exact ih hR

theorem map_agrees {σ ε : Type} {R : σ → Sampler ρ → Prop} {f : σ → List (List ρ)}
    (hf : ∀ st a, R st a → f st = a.trained) (run : Except ε σ) (abs : Option (Sampler ρ)) :
    (match abs with
      | some a => ∃ st, run = .ok st ∧ R st a
      | none => ∃ e, run = .error e) →
    match abs with
    | some a => run.map f = .ok a.trained
    | none => ∃ e, run.map f = .error e := by
  intro h
  cases abs with
  | none =>
    obtain ⟨e, rfl⟩ := h
    exact ⟨e, rfl⟩
  | some a =>
    obtain ⟨st, rfl, hR⟩ := h
    exact congrArg Except.ok (hf st a hR)

theorem Trainer.run_agrees (t : Trainer) (events : List (TrainerEvent prompt config)) :
    match Sampler.run reward stdReward config events with
    | some a => t.run reward stdReward config events = .ok a.trained
    | none => ∃ e, t.run reward stdReward config events = .error e := by
  have hpos := config.trainPromptsSize_pos
  rw [Sampler.run]
  cases t with
  | grpoTrain =>
    have hinit : (GrpoTrain.init : GrpoTrain ρ).Agrees config .init := ⟨rfl, nofun, hpos, rfl, rfl⟩
    have hfold := foldlM_agrees (fun _ _ ↦ GrpoTrain.event_agrees reward stdReward) events hinit
    exact map_agrees (fun _ _ h ↦ h.trained) _ _ hfold
  | grpoTrainSync =>
    have hinit : (GrpoTrainSync.init : GrpoTrainSync ρ).Agrees config .init :=
      ⟨rfl, hpos, rfl, rfl⟩
    have hfold := foldlM_agrees (fun _ _ ↦ GrpoTrainSync.event_agrees reward stdReward) events hinit
    exact map_agrees (fun _ _ h ↦ h.trained) _ _ hfold

variable {reward stdReward}

theorem Trainer.run_eq_ok_iff (t : Trainer) {events : List (TrainerEvent prompt config)}
    {trained : List (List ρ)} :
    t.run reward stdReward config events = .ok trained ↔
      ∃ a, Sampler.run reward stdReward config events = some a ∧ a.trained = trained := by
  have hagrees := t.run_agrees reward stdReward events
  cases hrun : Sampler.run reward stdReward config events with
  | none =>
    rw [hrun] at hagrees
    obtain ⟨e, he⟩ := hagrees
    rw [he]
    constructor
    · exact nofun
    · rintro ⟨a, ha, -⟩
      cases ha
  | some a =>
    rw [hrun] at hagrees
    rw [hagrees]
    constructor
    · intro heq
      exact ⟨a, rfl, Except.ok.inj heq⟩
    · rintro ⟨_, ha, rfl⟩
      rw [Option.some.inj ha]

end Simulation

section Selection

/-- The batches handed to training are batches of whole groups, taken in the
order of generation from the groups whose rewards are not all equal. -/
def TrainsWholeGroups (stdReward : ρ → ℚ) (events : List (TrainerEvent prompt config))
    (trained : List (List ρ)) : Prop :=
  ∃ steps : List (List (List ρ)), trained = steps.map List.flatten ∧
    (∀ step ∈ steps, step.length = config.numPromptsPerStep ∧
      ∀ g ∈ step, g.length = config.numGenerationsPerPrompt) ∧
    steps.flatten.Sublist (variedOf stdReward events)

/-- A run raises on a generation batch only when it and the batches just before
it, none of which completed a step, are more than the limit. -/
def RaisesAtLimit (t : Trainer) (reward stdReward : ρ → ℚ)
    (events : List (TrainerEvent prompt config)) : Prop :=
  ∃ (start : List (TrainerEvent prompt config))
    (batches : List (PromptBatch prompt config.numGenerationsPerPrompt)),
    events = start ++ batches.map .generated ∧
      config.dynamicSamplingMaxGenBatches < batches.length ∧
      ∃ trained, t.run reward stdReward config start = .ok trained ∧
        t.run reward stdReward config events.dropLast = .ok trained

/-- Dynamic sampling selects whole prompt groups in a run. -/
structure SelectsWholeGroups (t : Trainer) (reward stdReward : ρ → ℚ) (config : SamplingConfig)
    (events : List (TrainerEvent prompt config)) : Prop where
  filtered : ∀ before batch, before ++ [.generated batch] <+: events →
    ∀ trained, t.run reward stdReward config before = .ok trained →
      keptRows prompt reward stdReward config.useLeaveOneOutBaseline batch.groups.flatten =
        (variedGroups stdReward batch.groups).flatten
  trained : ∀ before, before <+: events →
    ∀ trained, t.run reward stdReward config before = .ok trained →
      TrainsWholeGroups stdReward before trained
  raises : ∀ before event, before ++ [event] <+: events →
    ∀ trained, t.run reward stdReward config before = .ok trained →
      ∀ e, t.run reward stdReward config (before ++ [event]) = .error e →
        RaisesAtLimit t reward stdReward (before ++ [event])

/-- What a run of the sampler has accumulated and trained, in groups. -/
structure Sampler.Grouped (stdReward : ρ → ℚ) (events : List (TrainerEvent prompt config))
    (a : Sampler ρ) (steps : List (List (List ρ))) (kept : List (List ρ)) : Prop where
  trained : a.trained = steps.map List.flatten
  pending : a.pending = kept.flatten
  incomplete : kept.length < config.numPromptsPerStep
  length_step : ∀ step ∈ steps, step.length = config.numPromptsPerStep
  sublist : (steps.flatten ++ kept).Sublist (variedOf stdReward events)

def Sampler.Counted (reward stdReward : ρ → ℚ) (events : List (TrainerEvent prompt config))
    (a : Sampler ρ) : Prop :=
  ∃ (start : List (TrainerEvent prompt config))
    (batches : List (PromptBatch prompt config.numGenerationsPerPrompt)) (st : Sampler ρ),
    events = start ++ batches.map .generated ∧ batches.length = a.numGenBatches ∧
      Sampler.run reward stdReward config start = some st ∧ st.trained = a.trained

omit [DecidableEq κ] in
theorem length_of_mem_variedOf {events : List (TrainerEvent prompt config)} {g : List ρ}
    (h : g ∈ variedOf stdReward events) : g.length = config.numGenerationsPerPrompt := by
  obtain ⟨event, -, hg⟩ := List.mem_flatMap.mp h
  cases event with
  | generated batch => exact batch.length_group g (List.mem_of_mem_filter hg)
  | newEpoch => exact absurd hg List.not_mem_nil

omit [DecidableEq κ] in
theorem variedOf_append (events : List (TrainerEvent prompt config))
    (event : TrainerEvent prompt config) :
    variedOf stdReward (events ++ [event]) =
      variedOf stdReward events ++ variedOf stdReward [event] := List.flatMap_append

theorem Sampler.run_append (events : List (TrainerEvent prompt config))
    (event : TrainerEvent prompt config) :
    Sampler.run reward stdReward config (events ++ [event]) =
      (Sampler.run reward stdReward config events).bind
        fun a ↦ a.event reward stdReward config event := by
  rw [Sampler.run, List.foldlM_append, Sampler.run]
  refine congrArg _ (funext fun a ↦ ?_)
  exact bind_pure _

omit [DecidableEq κ] in
theorem Sampler.Grouped.generate {events : List (TrainerEvent prompt config)} {a a' : Sampler ρ}
    {steps : List (List (List ρ))} {kept : List (List ρ)}
    (h : a.Grouped stdReward events steps kept)
    {batch : PromptBatch prompt config.numGenerationsPerPrompt}
    (ha' : a.generate config (variedGroups stdReward batch.groups).flatten = some a') :
    ∃ steps' kept', a'.Grouped stdReward (events ++ [.generated batch]) steps' kept' := by
  set all := kept ++ variedGroups stdReward batch.groups with hall
  have hsub : (steps.flatten ++ all).Sublist (variedOf stdReward (events ++ [.generated batch])) := by
    rw [variedOf_append, hall, ← List.append_assoc]
    refine h.sublist.append ?_
    rw [variedOf, List.flatMap_singleton]
  have hsize : ∀ g ∈ all, g.length = config.numGenerationsPerPrompt := by
    intro g hg
    exact length_of_mem_variedOf (hsub.subset (List.mem_append_right _ hg))
  have hpending : a.pending ++ (variedGroups stdReward batch.groups).flatten = all.flatten := by
    rw [h.pending, hall, List.flatten_append]
  have hfew : all.flatten.length < config.trainPromptsSize ↔
      all.length < config.numPromptsPerStep := by
    rw [length_flatten_of_size hsize, SamplingConfig.trainPromptsSize,
      Nat.mul_lt_mul_right config.generations_pos]
  rw [Sampler.generate, hpending] at ha'
  simp only [hfew] at ha'
  split_ifs at ha' with hless hmax
  · obtain rfl := Option.some.inj ha'
    exact ⟨steps, all, h.trained, rfl, hless, h.length_step, hsub⟩
  · obtain rfl := Option.some.inj ha'
    refine ⟨steps ++ [all.take config.numPromptsPerStep], [], ?_, rfl, config.prompts_pos, ?_, ?_⟩
    · rw [h.trained, List.map_append, List.map_singleton, SamplingConfig.trainPromptsSize,
        take_flatten hsize]
    · intro step hstep
      rcases List.mem_append.mp hstep with hstep | hstep
      · exact h.length_step step hstep
      · rw [List.mem_singleton.mp hstep, List.length_take]
        omega
    · rw [List.append_nil, List.flatten_append, List.flatten_singleton]
      exact ((List.Sublist.refl _).append (List.take_sublist ..)).trans hsub

omit [DecidableEq κ] in
theorem Sampler.Grouped.newEpoch {events : List (TrainerEvent prompt config)} {a : Sampler ρ}
    {steps : List (List (List ρ))} {kept : List (List ρ)}
    (h : a.Grouped stdReward events steps kept) :
    a.newEpoch.Grouped stdReward (events ++ [.newEpoch]) steps [] := by
  refine ⟨h.trained, rfl, config.prompts_pos, h.length_step, ?_⟩
  rw [variedOf_append]
  exact ((List.Sublist.refl _).append (List.nil_sublist _)).trans
    (h.sublist.trans (List.sublist_append_left ..))

theorem Sampler.exists_grouped {events : List (TrainerEvent prompt config)} {a : Sampler ρ}
    (hrun : Sampler.run reward stdReward config events = some a)
    (hfiltered : ∀ batch, TrainerEvent.generated batch ∈ events →
      keptRows prompt reward stdReward config.useLeaveOneOutBaseline batch.groups.flatten =
        (variedGroups stdReward batch.groups).flatten) :
    ∃ steps kept, a.Grouped stdReward events steps kept := by
  induction events using List.reverseRecOn generalizing a with
  | nil =>
    obtain rfl := Option.some.inj hrun
    exact ⟨[], [], rfl, rfl, config.prompts_pos, nofun, List.Sublist.refl _⟩
  | append_singleton events event ih =>
    rw [Sampler.run_append] at hrun
    obtain ⟨before, hbefore, hevent⟩ := Option.bind_eq_some_iff.mp hrun
    obtain ⟨steps, kept, hgrouped⟩ := ih hbefore fun batch hbatch ↦
      hfiltered batch (List.mem_append_left _ hbatch)
    cases event with
    | generated batch =>
      rw [Sampler.event, hfiltered batch (List.mem_append_right _ (List.mem_singleton_self _))]
        at hevent
      exact hgrouped.generate hevent
    | newEpoch =>
      obtain rfl := Option.some.inj hevent
      exact ⟨steps, [], hgrouped.newEpoch⟩

theorem Sampler.counted {events : List (TrainerEvent prompt config)} {a : Sampler ρ}
    (hrun : Sampler.run reward stdReward config events = some a) :
    a.Counted reward stdReward events := by
  induction events using List.reverseRecOn generalizing a with
  | nil =>
    obtain rfl := Option.some.inj hrun
    exact ⟨[], [], .init, rfl, rfl, rfl, rfl⟩
  | append_singleton events event ih =>
    have hall := hrun
    rw [Sampler.run_append] at hrun
    obtain ⟨before, hbefore, hevent⟩ := Option.bind_eq_some_iff.mp hrun
    have hfresh : a.numGenBatches = 0 → a.Counted reward stdReward (events ++ [event]) :=
      fun hzero ↦ ⟨_, [], a, (List.append_nil _).symm, hzero.symm, hall, rfl⟩
    cases event with
    | generated batch =>
      obtain ⟨start, batches, st, rfl, hcount, hstart, htrained⟩ := ih hbefore
      rw [Sampler.event, Sampler.generate] at hevent
      split_ifs at hevent with hless hmax
      · obtain rfl := Option.some.inj hevent
        refine ⟨start, batches ++ [batch], st, ?_, ?_, hstart, htrained⟩
        · rw [List.map_append, List.append_assoc, List.map_singleton]
        · rw [List.length_append, hcount, List.length_singleton]
      · obtain rfl := Option.some.inj hevent
        exact hfresh rfl
    | newEpoch =>
      obtain rfl := Option.some.inj hevent
      exact hfresh rfl

theorem Sampler.limit_of_none {a : Sampler ρ} {event : TrainerEvent prompt config}
    (h : a.event reward stdReward config event = none) :
    (∃ batch, event = .generated batch) ∧
      config.dynamicSamplingMaxGenBatches < (a.numGenBatches + 1 : ℕ) := by
  cases event with
  | generated batch =>
    refine ⟨⟨batch, rfl⟩, ?_⟩
    rw [Sampler.event, Sampler.generate] at h
    split_ifs at h with hless hmax
    exact not_le.mp hmax
  | newEpoch => cases h

theorem Sampler.exists_run_of_prefix {before events : List (TrainerEvent prompt config)}
    {a : Sampler ρ} (hrun : Sampler.run reward stdReward config events = some a)
    (h : before <+: events) : ∃ a', Sampler.run reward stdReward config before = some a' := by
  obtain ⟨after, rfl⟩ := h
  rw [Sampler.run, List.foldlM_append] at hrun
  obtain ⟨a', ha', -⟩ := Option.bind_eq_some_iff.mp hrun
  exact ⟨a', ha'⟩

theorem Trainer.raisesAtLimit (t : Trainer) {events : List (TrainerEvent prompt config)}
    {event : TrainerEvent prompt config} {trained : List (List ρ)}
    (hrun : t.run reward stdReward config events = .ok trained) {e : SamplingError}
    (herr : t.run reward stdReward config (events ++ [event]) = .error e) :
    RaisesAtLimit t reward stdReward (events ++ [event]) := by
  obtain ⟨a, ha, rfl⟩ := (t.run_eq_ok_iff).mp hrun
  have hnone : Sampler.run reward stdReward config (events ++ [event]) = none := by
    cases hnext : Sampler.run reward stdReward config (events ++ [event]) with
    | none => rfl
    | some a' =>
      rw [(t.run_eq_ok_iff).mpr ⟨a', hnext, rfl⟩] at herr
      cases herr
  rw [Sampler.run_append, ha] at hnone
  obtain ⟨⟨batch, rfl⟩, hlimit⟩ := Sampler.limit_of_none hnone
  obtain ⟨start, batches, st, rfl, hcount, hstart, htrained⟩ := Sampler.counted ha
  refine ⟨start, batches ++ [batch], ?_, ?_, a.trained, ?_, ?_⟩
  · rw [List.map_append, List.append_assoc, List.map_singleton]
  · rwa [List.length_append, hcount, List.length_singleton]
  · exact (t.run_eq_ok_iff).mpr ⟨st, hstart, htrained⟩
  · rw [List.dropLast_concat]
    exact (t.run_eq_ok_iff).mpr ⟨a, ha, rfl⟩

/-- Dynamic sampling selects whole prompt groups exactly when every generation
batch that the run reaches has only groups that the filter treats as a whole. -/
theorem selectsWholeGroups_iff (t : Trainer) (reward stdReward : ρ → ℚ)
    (events : List (TrainerEvent prompt config)) :
    SelectsWholeGroups t reward stdReward config events ↔
      ∀ before batch, before ++ [.generated batch] <+: events →
        ∀ trained, t.run reward stdReward config before = .ok trained →
          ∀ g ∈ batch.groups, FilteredWhole stdReward config.useLeaveOneOutBaseline g := by
  have hbatch : ∀ batch : PromptBatch prompt config.numGenerationsPerPrompt,
      keptRows prompt reward stdReward config.useLeaveOneOutBaseline batch.groups.flatten =
          (variedGroups stdReward batch.groups).flatten ↔
        ∀ g ∈ batch.groups, FilteredWhole stdReward config.useLeaveOneOutBaseline g := by
    intro batch
    rw [keptRows_flatten batch]
    exact flatMap_keptRows_iff batch.prompt_eq
  constructor
  · intro h before batch hreached trained hrun
    exact (hbatch batch).mp (h.filtered before batch hreached trained hrun)
  · intro h
    refine ⟨fun before batch hreached trained hrun ↦ ?_, fun before hbefore trained hrun ↦ ?_,
      fun before event _ trained hrun e herr ↦ t.raisesAtLimit hrun herr⟩
    · exact (hbatch batch).mpr (h before batch hreached trained hrun)
    · obtain ⟨a, ha, rfl⟩ := (t.run_eq_ok_iff).mp hrun
      obtain ⟨steps, kept, hgrouped⟩ := Sampler.exists_grouped ha fun batch hmem ↦ by
        obtain ⟨first, rest, rfl⟩ := List.append_of_mem hmem
        have hreached : first ++ [.generated batch] <+: first ++ .generated batch :: rest :=
          ⟨rest, List.append_assoc ..⟩
        obtain ⟨a', ha'⟩ := Sampler.exists_run_of_prefix ha (List.prefix_append first _)
        exact (hbatch batch).mpr (h first batch (hreached.trans hbefore) a'.trained
          ((t.run_eq_ok_iff).mpr ⟨a', ha', rfl⟩))
      have hsub := (List.sublist_append_left steps.flatten kept).trans hgrouped.sublist
      refine ⟨steps, hgrouped.trained, fun step hstep ↦ ⟨hgrouped.length_step step hstep, ?_⟩, hsub⟩
      intro g hg
      exact length_of_mem_variedOf (hsub.subset (List.mem_flatten_of_mem hstep hg))

def leaveOneOutConfig : SamplingConfig where
  numPromptsPerStep := 1
  numGenerationsPerPrompt := 4
  dynamicSamplingMaxGenBatches := 10
  useLeaveOneOutBaseline := true
  prompts_pos := Nat.one_pos
  generations_pos := Nat.succ_pos 3

def oddOneOutBatch : PromptBatch (fun _ : ℚ ↦ ()) leaveOneOutConfig.numGenerationsPerPrompt where
  groups := [[1, 0, 0, 0]]
  length_group := by decide
  prompt_eq := fun _ _ _ _ _ _ ↦ rfl
  prompt_ne := List.pairwise_singleton ..

/-- The one right generation is dropped and the three wrong ones are kept. -/
theorem oddOneOutBatch_not_selectsWholeGroups :
    ¬ SelectsWholeGroups .grpoTrain id id leaveOneOutConfig [.generated oddOneOutBatch] ∧
      ¬ SelectsWholeGroups .grpoTrainSync id id leaveOneOutConfig [.generated oddOneOutBatch] := by
  have hkept : keptRows (fun _ ↦ ()) id id leaveOneOutConfig.useLeaveOneOutBaseline
      oddOneOutBatch.groups.flatten = [0, 0, 0] := by decide +kernel
  have hvaried : (variedGroups id oddOneOutBatch.groups).flatten = [1, 0, 0, 0] := by
    decide
  have hne : ([0, 0, 0] : List ℚ) ≠ [1, 0, 0, 0] := by decide
  constructor
  · intro h
    have hfiltered := h.filtered [] oddOneOutBatch (List.prefix_refl _) [] rfl
    rw [hkept, hvaried] at hfiltered
    exact hne hfiltered
  · intro h
    have hfiltered := h.filtered [] oddOneOutBatch (List.prefix_refl _) [] rfl
    rw [hkept, hvaried] at hfiltered
    exact hne hfiltered

end Selection

end NemoRL.Algorithms
