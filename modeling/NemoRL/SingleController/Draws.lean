import Mathlib
import NemoRL.SingleController.Permits

namespace NemoRL.SingleController

open DataPlane AsyncUtils Experience Experience.RolloutManager
open Foundations Foundations.Positions Foundations.Transition

variable {ρ : Type} {cfg : Config} {s s' : State ρ}

section Places

def PumpPhase.prompts : PumpPhase → List ℕ
  | .admitting prompts => prompts
  | .launching prompts _ _ => prompts
  | _ => []

/-- The prompts a checkpoint holds for the process that resumes from it. -/
def TrainPhase.pending : TrainPhase ρ → List ℕ
  | .restoring groups _ reserve => reserve ++ groups.map (·.groupId.prompt)
  | .loadingReserve reserve => reserve
  | _ => []

/-- Every place a prompt of the dataloader can be in, trained ones included. -/
def places (s : State ρ) : List ℕ :=
  s.replacementReserve ++ s.pump.prompts ++ s.tasks.map Task.prompt ++
    (readySlots s.rm).map (·.groupId.prompt) ++ s.selected.map (·.2.groupId.prompt) ++
    s.train.pending

/-- No prompt is in two places, and none is yet to come from the dataloader. -/
structure Distinct (dataloader : ℕ) (prompts : List ℕ) : Prop where
  nodup : prompts.Nodup
  lt : ∀ p ∈ prompts, p < dataloader

theorem distinct_iff_count {dataloader : ℕ} {prompts : List ℕ} :
    Distinct dataloader prompts ↔
      ∀ p, prompts.count p ≤ if p < dataloader then 1 else 0 := by
  constructor
  · intro h p
    by_cases hp : p ∈ prompts
    · rw [if_pos (h.lt p hp)]
      exact List.nodup_iff_count_le_one.mp h.nodup p
    · rw [List.count_eq_zero.mpr hp]
      exact Nat.zero_le _
  · intro h
    refine ⟨List.nodup_iff_count_le_one.mpr fun p ↦ ?_, fun p hp ↦ ?_⟩
    · have hle := h p
      split_ifs at hle <;> omega
    · by_contra hge
      have hle := h p
      rw [if_neg hge] at hle
      have hpos := List.count_pos_iff.mpr hp
      omega

theorem count_places (s : State ρ) (p : ℕ) : (places s).count p =
    s.replacementReserve.count p + s.pump.prompts.count p + (s.tasks.map Task.prompt).count p +
      ((readySlots s.rm).map (·.groupId.prompt)).count p +
      (s.selected.map (·.2.groupId.prompt)).count p + s.train.pending.count p := by
  simp only [places, List.count_append]

theorem count_range' (start n p : ℕ) :
    (List.range' start n).count p = if start ≤ p ∧ p < start + n then 1 else 0 := by
  by_cases hp : p ∈ List.range' start n
  · rw [List.count_eq_one_of_mem List.nodup_range' hp, if_pos (by simpa using hp)]
  · rw [List.count_eq_zero.mpr hp, if_neg (by simpa using hp)]

/-- What a step may do to the places: forget some, and pull `n` prompts. -/
def Flows (s s' : State ρ) : Prop :=
  ∃ n, s'.dataloader = s.dataloader + n ∧
    ∀ p, (places s').count p ≤ (places s).count p + (List.range' s.dataloader n).count p

theorem Flows.of_le (hd : s'.dataloader = s.dataloader)
    (h : ∀ p, (places s').count p ≤ (places s).count p) : Flows s s' :=
  ⟨0, hd, fun p ↦ by simpa using h p⟩

theorem Flows.distinct (h : Flows s s') (hs : Distinct s.dataloader (places s)) :
    Distinct s'.dataloader (places s') := by
  obtain ⟨n, hd, hle⟩ := h
  rw [distinct_iff_count] at hs ⊢
  intro p
  have hbefore := hs p
  have hafter := hle p
  rw [count_range'] at hafter
  rw [hd]
  split_ifs at hbefore hafter ⊢ <;> omega

end Places

section Turns

theorem prompts_launchNext (prompts : List ℕ) (target : Option ℕ) :
    (launchNext prompts target).prompts = prompts := by
  unfold launchNext
  split_ifs with h
  · exact h.symm
  · rfl

theorem prompts_granted (p : PumpPhase) : p.granted.prompts = p.prompts := by
  unfold PumpPhase.granted
  split <;> rfl

theorem prompt_granted (t : Task ρ) : t.granted.prompt = t.prompt := by
  obtain ⟨n, c, phase⟩ := t
  cases phase <;> rfl

theorem prompts_flagged {tasks : List (Task ρ)} (h : Flagged s tasks) :
    tasks.map Task.prompt = s.tasks.map Task.prompt := by
  obtain ⟨f, rfl⟩ := h
  rw [List.map_map]
  refine List.map_congr_left fun t _ ↦ ?_
  simp only [Function.comp_apply]
  split_ifs <;> rfl

theorem TrainPhase.pending_eq_nil {p : TrainPhase ρ} (h : p.starting = false) :
    p.pending = [] := by
  cases p <;> simp_all [TrainPhase.starting, TrainPhase.pending]

theorem count_tasks {i : ℕ} {t : Task ρ} (hi : s.tasks[i]? = some t) (p : ℕ) :
    (s.tasks.map Task.prompt).count p =
      [t.prompt].count p + ((s.tasks.eraseIdx i).map Task.prompt).count p := by
  rw [((perm_cons_eraseIdx hi).map Task.prompt).count_eq, ← List.count_append]
  rfl

theorem count_set_tasks {i : ℕ} {t t' : Task ρ} (hi : s.tasks[i]? = some t) (p : ℕ) :
    ((s.tasks.set i t').map Task.prompt).count p =
      [t'.prompt].count p + ((s.tasks.eraseIdx i).map Task.prompt).count p := by
  rw [((set_perm hi t').map Task.prompt).count_eq, ← List.count_append]
  rfl

theorem Readies.count {ready : List Slot} {rm : RolloutManager.State ρ} (h : Readies s ready rm)
    (p : ℕ) : ((readySlots rm).map (·.groupId.prompt)).count p =
      (ready.map (·.groupId.prompt)).count p := (h.slots.map _).count_eq p

theorem Turn.flows {i : ℕ} {t : Task ρ} (hp : Pool s.rm s.tasks) (hi : s.tasks[i]? = some t)
    (h : Turn cfg s i t s') : Flows s s' := by
  refine .of_le (by cases h <;> rfl) fun p ↦ ?_
  have htasks := count_tasks hi p
  rw [count_places, count_places]
  cases h with
  | moved rm t' hf hr =>
    simp only [hr.count, count_set_tasks hi, hf.prompt]
    omega
  | committed rm x m e counts hx hr =>
    have hprompt : x.groupId.prompt = t.prompt := hp.prompts t (List.mem_of_getElem? hi) x hx
    have hready := hr.count p
    rw [List.map_cons, ← List.singleton_append, List.count_append] at hready
    have hfilled : (x.filled m e).groupId.prompt = t.prompt := hprompt
    rw [hfilled] at hready
    simp only [endTask]
    omega
  | shortened rm _ hr =>
    have hready := hr.count p
    simp only [endTask, release]
    omega
  | replaced rm t' reserve hsub _ hr =>
    have hready := hr.count p
    have hspare := congrArg (List.count p) hsub.spare
    rw [← List.singleton_append, List.count_append] at hspare
    simp only [count_set_tasks hi]
    omega
  | promoted rm t' reserve step lender x rest counts hsub _ _ _ _ hx hr =>
    have hready := hr.count p
    have hbefore := (hx.map (·.groupId.prompt)).count_eq p
    have hspare := congrArg (List.count p) hsub.spare
    rw [← List.singleton_append, List.count_append] at hspare
    rw [List.map_cons] at hready hbefore
    have hsame : (x.restamped step).groupId.prompt = x.groupId.prompt := rfl
    rw [hsame] at hready
    simp only [count_set_tasks hi]
    omega
  | ended rm stopping _ hr =>
    have hready := hr.count p
    simp only [endTask, release]
    omega

end Turns

section Runs

theorem Steps.flows {e : Event ρ} (hs : Sound cfg s) (he : ∀ k, e ≠ .restart k)
    (h : Steps cfg s e s') : Flows s s' := by
  have hpending : s.train.starting = false → s.train.pending = [] := TrainPhase.pending_eq_nil
  cases h with
  | diverted n hpump _ =>
    refine ⟨n, rfl, fun p ↦ ?_⟩
    simp only [count_places, List.count_append]
    omega
  | pulled n hpump _ =>
    refine ⟨n, rfl, fun p ↦ ?_⟩
    simp only [count_places, hpump, PumpPhase.prompts, List.count_nil]
    omega
  | settling hpump =>
    refine .of_le rfl fun p ↦ ?_
    simp only [count_places, hpump, PumpPhase.prompts]
    omega
  | admitted prompts hpump _ =>
    refine .of_le rfl fun p ↦ ?_
    have hle := List.Sublist.count_le p
      (List.take_sublist (numPrompts s s.sampler.admitBatch.2 prompts.length) prompts)
    have hprompts : s.pump.prompts = prompts := by
      rw [hpump]
      rfl
    simp only [count_places, admitBatch, hprompts, prompts_launchNext]
    omega
  | acquiredBuffer prompts target hpump _ =>
    refine .of_le rfl fun p ↦ ?_
    simp only [count_places, hpump, PumpPhase.prompts]
    omega
  | acquiredSem prompts target hpump _ =>
    refine .of_le rfl fun p ↦ ?_
    simp only [count_places, hpump, PumpPhase.prompts]
    omega
  | launched prompt rest target hpump =>
    refine .of_le rfl fun p ↦ ?_
    have hcons : (prompt :: rest).count p = [prompt].count p + rest.count p := by
      rw [← List.count_append]
      rfl
    have htask : Task.prompt (⟨0, false, .created prompt target⟩ : Task ρ) = prompt := rfl
    have hprompts : s.pump.prompts = prompt :: rest := by
      rw [hpump]
      rfl
    simp only [count_places, hprompts, prompts_launchNext, List.map_append, List.map_cons,
      List.map_nil, List.count_append, htask, hcons]
    omega
  | settled pump draining exhausted hpump _ hphase =>
    refine .of_le rfl fun p ↦ ?_
    have hnil : pump.prompts = [] := by
      rcases hphase with ⟨rfl, _⟩ | ⟨rfl, _⟩ <;> rfl
    simp only [count_places, hnil, List.count_nil]
    omega
  | drained hpump _ _ =>
    refine .of_le rfl fun p ↦ ?_
    have hsplit : (s.replacementReserve.take cfg.numPromptsPerStep).count p +
        (s.replacementReserve.drop cfg.numPromptsPerStep).count p =
          s.replacementReserve.count p := by
      rw [← List.count_append, List.take_append_drop]
    simp only [count_places, PumpPhase.prompts]
    omega
  | turn i t hi hturn _ => exact hturn.flows hs.pool hi
  | flagged i t _ hi =>
    refine .of_le rfl fun p ↦ ?_
    have hprompt : Task.prompt { t with cancelRequested := true } = t.prompt := rfl
    simp only [count_places, count_set_tasks hi, count_tasks hi, hprompt]
    omega
  | leaked i t hi _ _ _ =>
    refine .of_le rfl fun p ↦ ?_
    simp only [count_places, endTask, count_tasks hi]
    omega
  | launchCancelled prompts target stage hpump _ =>
    refine .of_le rfl fun p ↦ ?_
    simp only [count_places, PumpPhase.prompts, List.count_nil]
    omega
  | evicts gone rm ids htrain hev _ =>
    refine .of_le rfl fun p ↦ ?_
    have hready := (hev.ready.map (·.groupId.prompt)).count_eq p
    rw [List.map_append, List.count_append] at hready
    simp only [count_places, TrainPhase.pending, List.count_nil]
    omega
  | waits dp phase stopping hsel hi =>
    refine .of_le rfl fun p ↦ ?_
    have hready : readySlots (withRows s.rm dp) = readySlots s.rm := rfl
    have hnil := TrainPhase.pending_eq_nil (TrainPhase.emptyHanded.starting hi.emptyHanded)
    simp only [count_places, release, hready, hnil, List.count_nil]
    omega
  | selects chunk rm hsel _ hch =>
    refine .of_le rfl fun p ↦ ?_
    have hready := (hch.ready.map (·.groupId.prompt)).count_eq p
    rw [List.map_append, List.count_append] at hready
    simp only [count_places, release, List.map_append, List.map_map, List.count_append,
      TrainPhase.pending, List.count_nil]
    have hchunk : chunk.map ((fun x : ℕ × Slot ↦ x.2.groupId.prompt) ∘ fun x ↦
        (s.trainerVersion, x)) = chunk.map (·.groupId.prompt) := rfl
    rw [hchunk]
    omega
  | trained chunk dp phase stopping opened htrain hi =>
    refine .of_le rfl fun p ↦ ?_
    have hready : readySlots (withRows s.rm dp) = readySlots s.rm := rfl
    have hnil := TrainPhase.pending_eq_nil (TrainPhase.emptyHanded.starting hi.emptyHanded)
    simp only [count_places, hready, hnil, List.count_nil]
    omega
  | finished _ _ _ =>
    refine .of_le rfl fun p ↦ ?_
    simp only [count_places, finishRun, TrainPhase.pending, List.count_nil]
    omega
  | closed tasks htrain _ hflag _ =>
    refine .of_le rfl fun p ↦ ?_
    simp only [count_places, advanceVersion, prompts_flagged hflag, TrainPhase.pending,
      List.count_nil]
    omega
  | closedFrozen htrain _ =>
    refine .of_le rfl fun p ↦ ?_
    have hready : readySlots { s.rm with weightVersion := s.trainerVersion + 1 } =
        readySlots s.rm := rfl
    simp only [count_places, settleStep, advanceVersion, hready, TrainPhase.pending,
      List.count_nil]
    omega
  | synced htrain =>
    refine .of_le rfl fun p ↦ ?_
    have hready : readySlots { s.rm with weightVersion := s.trainerVersion } =
        readySlots s.rm := rfl
    have htasks : (s.tasks.map Task.granted).map Task.prompt = s.tasks.map Task.prompt := by
      rw [List.map_map]
      exact List.map_congr_left fun t _ ↦ prompt_granted t
    simp only [count_places, settleStep, permit, hready, htasks, prompts_granted,
      TrainPhase.pending, List.count_nil]
    omega
  | saving stop htrain =>
    refine .of_le rfl fun p ↦ ?_
    simp only [count_places, TrainPhase.pending, List.count_nil]
    omega
  | fetching save stop htrain =>
    refine .of_le rfl fun p ↦ ?_
    simp only [count_places, TrainPhase.pending, List.count_nil]
    omega
  | begins checkpoints phase stopping version dispatched opened hfrom hb =>
    refine .of_le rfl fun p ↦ ?_
    have hnil := TrainPhase.pending_eq_nil (TrainPhase.emptyHanded.starting hb.idles.emptyHanded)
    simp only [count_places, hnil, List.count_nil]
    omega
  | failed => exact .of_le rfl fun p ↦ le_rfl
  | restarted k _ _ _ _ => exact absurd rfl (he k)
  | restored g rest n reserve htrain =>
    refine .of_le rfl fun p ↦ ?_
    have hready := ((hs.restore htrain).2.map (·.groupId.prompt)).count_eq p
    rw [List.map_cons, ← List.singleton_append, List.count_append] at hready
    have hgroups : ((g :: rest).map (·.groupId.prompt)).count p =
        [g.groupId.prompt].count p + (rest.map (·.groupId.prompt)).count p := by
      rw [← List.count_append]
      rfl
    have hslot : g.toSlot.groupId.prompt = g.groupId.prompt := rfl
    rw [hslot] at hready
    dsimp only at hready
    simp only [count_places, htrain, TrainPhase.pending, List.count_append, hgroups]
    omega
  | acquiredRestored n reserve htrain _ =>
    refine .of_le rfl fun p ↦ ?_
    simp only [count_places, htrain, TrainPhase.pending, List.map_nil, List.append_nil]
    omega
  | started reserve phase stopping version dispatched opened htrain hb =>
    refine .of_le rfl fun p ↦ ?_
    obtain ⟨_, hpump⟩ := hs.starting (by rw [htrain]; rfl)
    have hnil := TrainPhase.pending_eq_nil (TrainPhase.emptyHanded.starting hb.idles.emptyHanded)
    have hreserve : s.train.pending = reserve := by
      rw [htrain]
      rfl
    simp only [count_places, hnil, hreserve, PumpPhase.prompts, List.count_append, List.count_nil]
    omega

theorem distinct_fresh (cfg : Config) :
    Distinct (fresh cfg : State ρ).dataloader (places (fresh cfg : State ρ)) :=
  ⟨List.nodup_nil, fun _ h ↦ absurd h List.not_mem_nil⟩

def NoRestart (_ : State ρ) : Event ρ → Prop
  | .restart _ => False
  | _ => True

instance (s : State ρ) : ∀ e, Decidable (NoRestart s e)
  | .restart _ => instDecidableFalse
  | .admitted | .pull _ | .endEpochs | .acquireBuffer | .acquireSem | .launch | .settle | .drain | .startTask _
  | .resumeTask _ _ | .resumeWaiting _ | .requestCancel _ | .cancelCreated _ | .cancelWaiting _
  | .cancelLaunch | .poll | .evicted | .wake | .trained _ | .closeStep | .synced | .endStep _ _
  | .snapshot | .saved | .fail | .restored | .acquireRestored | .startPumps => instDecidableTrue

/-- Within a process no draw of the dataset is in two places, so none is trained twice. -/
theorem draws_distinct (cfg : Config) (s : State ρ)
    (h : ReachableBy (step cfg) (Initial cfg) NoRestart s) :
    (places s).Nodup ∧ ∀ p ∈ places s, p < s.dataloader := by
  have hstep : ∀ (s : State ρ) e s', Sound cfg s → Distinct s.dataloader (places s) →
      NoRestart s e → Steps cfg s e s' → Distinct s'.dataloader (places s') := by
    intro s e s' hs hd hok hsteps
    refine (hsteps.flows hs ?_).distinct hd
    rintro k rfl
    exact hok
  obtain ⟨_, hd⟩ := invariant_of_steps (distinct_fresh cfg) trivial hstep h
  exact ⟨hd.nodup, hd.lt⟩

def twoDraws : List (Event Unit) :=
  [.pull 1, .admitted] ++ generated 0 ++ [.pull 1, .admitted] ++ generated 0 ++
  [.poll, .trained true]

theorem twoDraws_ends :
    (execBy (step singlePrompt) NoRestart (init singlePrompt) twoDraws).isSome := by
  decide +kernel

theorem draws_distinct_twoDraws :
    (places ((execBy (step singlePrompt) NoRestart (init singlePrompt) twoDraws).get
      twoDraws_ends)).Nodup :=
  (draws_distinct singlePrompt _ (.run (initial_init singlePrompt) twoDraws twoDraws_ends)).1

end Runs

section Cuts

/-- The buffer is snapshotted while no group is ready whose prompt the pending save holds in
its reserve or has still to yield. -/
def KeepsCut (s : State ρ) : Event ρ → Prop
  | .snapshot =>
    match s.train with
    | .saving save _ => ∀ x ∈ readySlots s.rm,
      x.groupId.prompt < save.dataloader ∧ x.groupId.prompt ∉ save.reserve
    | _ => True
  | _ => True

instance (s : State ρ) : ∀ e, Decidable (KeepsCut s e)
  | .snapshot => by
    dsimp only [KeepsCut]
    split <;> infer_instance
  | .admitted | .pull _ | .endEpochs | .acquireBuffer | .acquireSem | .launch | .settle | .drain | .startTask _
  | .resumeTask _ _ | .resumeWaiting _ | .requestCancel _ | .cancelCreated _ | .cancelWaiting _
  | .cancelLaunch | .poll | .evicted | .wake | .trained _ | .closeStep | .synced | .endStep _ _
  | .saved | .fail | .restart _ | .restored | .acquireRestored | .startPumps => instDecidableTrue

def SaveState.Cut (save : SaveState) (prompts : List ℕ) : Prop :=
  Distinct save.dataloader (save.reserve ++ prompts)

/-- What is being saved, and what has been saved, holds every prompt once. -/
structure Cuts (cfg : Config) (s : State ρ) : Prop where
  places : Distinct s.dataloader (places s)
  saving : ∀ save stop, s.train = .saving save stop → save.Cut []
  fetching : ∀ save slots stop, s.train = .fetching save slots stop →
    save.Cut (slots.map (·.groupId.prompt))
  saved : ∀ ck ∈ s.checkpoints, ∃ groups, ck.buffer = Envelope.ofSaved cfg.buffer.partitionId
    cfg.maxBufferedRollouts groups ∧ ck.toSaveState.Cut (groups.map (·.groupId.prompt))

theorem Distinct.sublist {dataloader : ℕ} {l l' : List ℕ} (h : Distinct dataloader l)
    (hsub : l'.Sublist l) : Distinct dataloader l' :=
  ⟨h.nodup.sublist hsub, fun p hp ↦ h.lt p (hsub.subset hp)⟩

theorem distinct_ready (h : Distinct s.dataloader (places s)) :
    ((readySlots s.rm).map (·.groupId.prompt)).Nodup :=
  List.nodup_iff_count_le_one.mpr fun p ↦ by
    have hle := List.nodup_iff_count_le_one.mp h.nodup p
    rw [count_places] at hle
    omega

theorem distinct_reserve (h : Distinct s.dataloader (places s)) :
    Distinct s.dataloader s.replacementReserve := by
  refine h.sublist ?_
  simp only [places, List.append_assoc]
  exact List.sublist_append_left ..

theorem SaveState.Cut.boot {save : SaveState} {groups gs : List (SavedGroup ρ)}
    {partition partition' : String} {capacity maxGroups n serial : ℕ}
    {checkpoints : List (Checkpoint ρ)} (h : save.Cut (groups.map (·.groupId.prompt)))
    (hpre : TQReplayBuffer.preflight (Envelope.ofSaved partition capacity groups) maxGroups
      partition' n = .ok gs) :
    Distinct save.dataloader (places (boot cfg serial save gs checkpoints)) := by
  have hplaces : places (SingleController.boot cfg serial save gs checkpoints) =
      save.reserve ++ gs.map (·.groupId.prompt) := rfl
  obtain ⟨hreserve, hgroups, hdisjoint⟩ := List.nodup_append.mp h.nodup
  have hgs : (gs.map (·.groupId.prompt)).Nodup ∧ ∀ g ∈ gs, g ∈ groups := by
    rcases TQReplayBuffer.preflight_ofSaved hpre with rfl | rfl
    · exact ⟨hgroups, fun _ hg ↦ hg⟩
    · refine ⟨nodup_map_entriesAt hgroups ?_, TQReplayBuffer.truncateFreshest_subset _ _⟩
      refine (List.perm_insertionSort _ _).nodup_iff.mpr
        (List.Nodup.sublist (List.drop_sublist _ _) ?_)
      exact (List.perm_insertionSort _ _).nodup_iff.mpr List.nodup_range
  have hmem : ∀ p ∈ gs.map (·.groupId.prompt), p ∈ groups.map (·.groupId.prompt) := by
    intro p hp
    obtain ⟨g, hg, rfl⟩ := List.mem_map.mp hp
    exact List.mem_map_of_mem (hgs.2 g hg)
  rw [hplaces]
  refine ⟨List.nodup_append.mpr ⟨hreserve, hgs.1, fun p hp q hq ↦ hdisjoint p hp q (hmem q hq)⟩,
    fun p hp ↦ ?_⟩
  rcases List.mem_append.mp hp with hp | hp
  · exact h.lt p (List.mem_append_left _ hp)
  · exact h.lt p (List.mem_append_right _ (hmem p hp))

theorem Cuts.keep (hc : Cuts cfg s) (hd : Distinct s'.dataloader (SingleController.places s'))
    (hsaving : ∀ save stop, s'.train = .saving save stop → s.train = .saving save stop)
    (hfetching : ∀ save slots stop, s'.train = .fetching save slots stop →
      s.train = .fetching save slots stop)
    (hsaved : s'.checkpoints = s.checkpoints) : Cuts cfg s' where
  places := hd
  saving := fun save stop h ↦ hc.saving save stop (hsaving save stop h)
  fetching := fun save slots stop h ↦ hc.fetching save slots stop (hfetching save slots stop h)
  saved := hsaved ▸ hc.saved

theorem TrainPhase.emptyHanded.saving {p : TrainPhase ρ} (h : p.emptyHanded = true) :
    ∀ save stop, p ≠ .saving save stop := by
  rintro save stop rfl
  simp [TrainPhase.emptyHanded] at h

theorem map_prompt_of_groupId {groups : List (SavedGroup ρ)} {slots : List Slot}
    (h : groups.map SavedGroup.groupId = slots.map Slot.groupId) :
    groups.map (·.groupId.prompt) = slots.map (·.groupId.prompt) := by
  have hprompt := congrArg (List.map GroupId.prompt) h
  rw [List.map_map, List.map_map] at hprompt
  exact hprompt

theorem Cuts.idle (hc : Cuts cfg s) (hd : Distinct s'.dataloader (SingleController.places s'))
    (he : s'.train.emptyHanded = true) (hsaved : s'.checkpoints = s.checkpoints) : Cuts cfg s' :=
  hc.keep hd (fun _ _ h ↦ absurd h (TrainPhase.emptyHanded.saving he _ _))
    (fun _ _ _ h ↦ absurd h (TrainPhase.emptyHanded.fetching he _ _ _)) hsaved

theorem Cuts.fetch (hc : Cuts cfg s) {save : SaveState} {stop : Bool}
    (htrain : s.train = .saving save stop)
    (hk : ∀ x ∈ readySlots s.rm, x.groupId.prompt < save.dataloader ∧
      x.groupId.prompt ∉ save.reserve) :
    save.Cut (s.rm.plane.buffer.snapshot.map (·.groupId.prompt)) := by
  have hreserve := hc.saving save stop htrain
  rw [SaveState.Cut, List.append_nil] at hreserve
  have hsnapshot : s.rm.plane.buffer.snapshot = readySlots s.rm := rfl
  rw [hsnapshot]
  refine ⟨List.nodup_append.mpr ⟨hreserve.nodup, distinct_ready hc.places, ?_⟩, fun p hp ↦ ?_⟩
  · rintro p hp q hq rfl
    obtain ⟨x, hx, rfl⟩ := List.mem_map.mp hq
    exact (hk x hx).2 hp
  · rcases List.mem_append.mp hp with hp | hp
    · exact hreserve.lt p hp
    · obtain ⟨x, hx, rfl⟩ := List.mem_map.mp hp
      exact (hk x hx).1

theorem Cuts.restart (hc : Cuts cfg s) {ck : Checkpoint ρ} {groups : List (SavedGroup ρ)}
    (hck : ck ∈ s.checkpoints)
    (hpre : TQReplayBuffer.preflight ck.buffer cfg.maxBufferedRollouts cfg.buffer.partitionId
      cfg.numGenerationsPerPrompt = .ok groups) :
    Cuts cfg (boot cfg s.rm.nextSerial ck.toSaveState groups s.checkpoints) := by
  obtain ⟨saved, hbuffer, hcut⟩ := hc.saved ck hck
  rw [hbuffer] at hpre
  refine ⟨hcut.boot hpre, ?_, ?_, hc.saved⟩
  · rintro save stop ⟨⟩
  · rintro save slots stop ⟨⟩

theorem Turn.train_eq {i : ℕ} {t : Task ρ} (h : Turn cfg s i t s') : s'.train = s.train := by
  cases h <;> rfl

/-- While a save is pending only the snapshot moves the train pump, a restart apart. -/
theorem train_eq_of_saving {e : Event ρ} (hp : Pool s.rm s.tasks) {save : SaveState} {stop : Bool}
    (htrain : s.train = .saving save stop) (he : e ≠ .snapshot) (h : step cfg s e = some s') :
    (∃ k, e = .restart k) ∨ s'.train = s.train := by
  cases e with
  | snapshot => exact absurd rfl he
  | restart k => exact .inl ⟨k, rfl⟩
  | startTask i =>
    simp only [step] at h
    split at h
    · rename_i n prompt target hi
      obtain rfl := Option.some.inj h
      exact .inr (startCall_turn cfg hp hi (.inl rfl)).2.train_eq
    · cases h
  | resumeTask i answer =>
    simp only [step] at h
    split at h
    · rename_i n cancelled c hi
      split_ifs at h with hc
      obtain ⟨r, hr, rfl⟩ := Option.map_eq_some_iff.mp h
      exact .inr (afterCall_turn hp hi hc hr).2.train_eq
    · cases h
  | resumeWaiting i =>
    simp only [step] at h
    split at h
    · rename_i n prompt target hi
      obtain rfl := Option.some.inj h
      exact .inr (startCall_turn cfg hp hi (.inr rfl)).2.train_eq
    · cases h
  | poll | evicted | wake | trained | closeStep | synced | endStep | saved | restored |
    acquireRestored | startPumps => simp [step, htrain] at h
  | pull | endEpochs | admitted | acquireBuffer | acquireSem | launch | settle | drain |
    requestCancel | cancelCreated | cancelWaiting | cancelLaunch | fail =>
    simp only [step] at h
    right
    repeat' split at h
    all_goals cases h
    all_goals rfl

theorem Cuts.steps {e : Event ρ} (hs : Sound cfg s) (hc : Cuts cfg s) (hk : KeepsCut s e)
    (h : step cfg s e = some s') : Cuts cfg s' := by
  have hsteps := step_cases hs.pool h
  by_cases hrestart : ∃ k, e = .restart k
  · obtain ⟨k, rfl⟩ := hrestart
    simp only [step] at h
    split at h
    · cases h
    · rename_i ck hk
      split at h
      · cases h
      · rename_i groups hpre
        obtain rfl := Option.some.inj h
        exact hc.restart (List.mem_of_getElem? hk) hpre
  have hd := (hsteps.flows hs (not_exists.mp hrestart)).distinct hc.places
  have hsame := hc.keep hd
  cases hsteps with
  | saving stop htrain =>
    refine ⟨hd, ?_, by simp, hc.saved⟩
    intro save stop heq
    obtain ⟨rfl, -⟩ := TrainPhase.saving.inj heq
    rw [SaveState.Cut, List.append_nil]
    exact distinct_reserve hc.places
  | fetching save stop htrain =>
    refine ⟨hd, by simp, ?_, hc.saved⟩
    intro save' slots stop' heq
    obtain ⟨rfl, rfl, -⟩ := TrainPhase.fetching.inj heq
    obtain rfl : e = .snapshot := by
      by_contra he
      rcases train_eq_of_saving hs.pool htrain he h with hk | heq
      · exact hrestart hk
      · cases htrain.symm.trans heq.symm
    simp only [KeepsCut, htrain] at hk
    exact hc.fetch htrain hk
  | begins checkpoints phase stopping version dispatched opened hfrom hb =>
    have hi := hb.idles.emptyHanded
    refine ⟨hd, fun _ _ h ↦ absurd h (TrainPhase.emptyHanded.saving hi _ _),
      fun _ _ _ h ↦ absurd h (TrainPhase.emptyHanded.fetching hi _ _ _), ?_⟩
    rcases hfrom with ⟨_, rfl⟩ | ⟨save, slots, stop, groups, htrain, hgroups, rfl⟩
    · exact hc.saved
    · intro ck hck
      rcases List.mem_append.mp hck with hck | hck
      · exact hc.saved ck hck
      · obtain rfl := List.mem_singleton.mp hck
        refine ⟨groups, rfl, ?_⟩
        rw [map_prompt_of_groupId (map_groupId_fetched hgroups)]
        exact hc.fetching save slots stop htrain
  | restarted k _ _ _ _ => exact absurd ⟨k, rfl⟩ hrestart
  | turn i t hi hturn _ => cases hturn <;> exact hsame (fun _ _ h ↦ h) (fun _ _ _ h ↦ h) rfl
  | evicts | selects | finished | closed | closedFrozen | synced | restored | acquiredRestored =>
    exact hsame (fun _ _ h ↦ by cases h) (fun _ _ _ h ↦ by cases h) rfl
  | waits dp phase stopping _ hi => exact hc.idle hd hi.emptyHanded rfl
  | trained chunk dp phase stopping opened _ hi => exact hc.idle hd hi.emptyHanded rfl
  | started reserve phase stopping version dispatched opened _ hb =>
    exact hc.idle hd hb.idles.emptyHanded rfl
  | diverted | pulled | settling | admitted | acquiredBuffer | acquiredSem | launched | settled |
    drained | flagged | leaked | launchCancelled | failed =>
    exact hsame (fun _ _ h ↦ h) (fun _ _ _ h ↦ h) rfl

theorem cuts_fresh (cfg : Config) : Cuts cfg (fresh cfg : State ρ) := by
  refine ⟨distinct_fresh cfg, ?_, ?_, ?_⟩
  · rintro save stop ⟨⟩
  · rintro save slots stop ⟨⟩
  · rintro ck ⟨⟩

/-- Across restarts no draw is in two places, and every checkpoint is a cut, as long as the
buffer is never snapshotted with a group that came after the rest of the checkpoint. -/
theorem checkpoints_cut (cfg : Config) (s : State ρ)
    (h : ReachableBy (step cfg) (Initial cfg) KeepsCut s) :
    ((places s).Nodup ∧ ∀ p ∈ places s, p < s.dataloader) ∧
      ∀ ck ∈ s.checkpoints, ∃ groups,
        ck.buffer = Envelope.ofSaved cfg.buffer.partitionId cfg.maxBufferedRollouts groups ∧
        (ck.reserve ++ groups.map (·.groupId.prompt)).Nodup ∧
        ∀ p ∈ ck.reserve ++ groups.map (·.groupId.prompt), p < ck.dataloader := by
  have hinv : Sound cfg s ∧ Cuts cfg s := by
    refine h.invariant (I := fun s ↦ Sound cfg s ∧ Cuts cfg s) (fun s hs ↦ ?_)
      fun s e t hs ho ht ↦ ⟨hs.1.steps (step_cases hs.1.pool ht), hs.2.steps hs.1 ho ht⟩
    rw [hs]
    exact ⟨(sound_fresh cfg).steps (init_steps cfg),
      (cuts_fresh cfg).steps (e := .startPumps) (sound_fresh cfg) trivial rfl⟩
  obtain ⟨-, hc⟩ := hinv
  refine ⟨⟨hc.places.nodup, hc.places.lt⟩, fun ck hck ↦ ?_⟩
  obtain ⟨groups, hbuffer, hcut⟩ := hc.saved ck hck
  exact ⟨groups, hbuffer, hcut.nodup, hcut.lt⟩

theorem restoringRun_cuts :
    (execBy (step singlePrompt) KeepsCut (init singlePrompt) restoringRun).isSome := by
  decide +kernel

theorem checkpoints_cut_restoring :
    (places ((execBy (step singlePrompt) KeepsCut (init singlePrompt) restoringRun).get
      restoringRun_cuts)).Nodup :=
  (checkpoints_cut singlePrompt _
    (.run (initial_init singlePrompt) restoringRun restoringRun_cuts)).1.1

/-- A prompt is pulled and generated between the save and the snapshot, and pulled again by
the process that resumes. -/
def lateDraw : List (Event Unit) :=
  [.pull 1, .admitted] ++ generated 0 ++
  [.poll, .trained true, .closeStep, .synced, .endStep true false] ++
  [.pull 1, .admitted] ++ generated 0 ++
  [.snapshot, .saved, .restart 0, .restored, .acquireRestored, .startPumps, .pull 1]

theorem lateDraw_ends : (exec (step singlePrompt) (init singlePrompt) lateDraw).isSome := by
  decide +kernel

theorem draw_twice_of_late_snapshot : ∃ s : State Unit,
    Reachable (step singlePrompt) (Initial singlePrompt) s ∧ ¬ (places s).Nodup := by
  refine ⟨_, .run (initial_init singlePrompt) lateDraw lateDraw_ends, ?_⟩
  decide +kernel

end Cuts

end NemoRL.SingleController
