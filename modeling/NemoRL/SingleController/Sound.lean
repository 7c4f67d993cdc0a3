import Mathlib
import NemoRL.SingleController.Pumps

namespace NemoRL.SingleController

open DataPlane AsyncUtils Experience Experience.RolloutManager
open Foundations Foundations.Positions Foundations.Transition

variable {ρ : Type} {cfg : Config} {s s' : State ρ}

/-- What the ownership of slots rests on in every state of a run. -/
structure Sound (cfg : Config) (s : State ρ) : Prop where
  pool : Pool s.rm s.tasks
  starting : s.train.starting = true → s.tasks = [] ∧ s.pump = .unstarted
  restoring : ∀ groups n reserve, s.train = .restoring groups n reserve →
    (s.rm.slots.map Slot.groupId ++ groups.map SavedGroup.groupId).Nodup ∧
      ∀ g ∈ groups, g.groupId.serial < s.rm.nextSerial
  fetching : ∀ save slots stop, s.train = .fetching save slots stop →
    (slots.map Slot.groupId).Nodup
  saved : ∀ ck ∈ s.checkpoints, ∃ groups, ck.buffer = Envelope.ofSaved cfg.buffer.partitionId
    cfg.maxBufferedRollouts groups ∧ (groups.map SavedGroup.groupId).Nodup

theorem TrainPhase.emptyHanded.starting {p : TrainPhase ρ} (h : p.emptyHanded = true) :
    p.starting = false := by
  cases p <;> simp_all [TrainPhase.emptyHanded, TrainPhase.starting]

theorem TrainPhase.emptyHanded.fetching {p : TrainPhase ρ} (h : p.emptyHanded = true) :
    ∀ save slots stop, p ≠ .fetching save slots stop := by
  rintro save slots stop rfl
  simp [TrainPhase.emptyHanded] at h

theorem TrainPhase.emptyHanded.owed {p : TrainPhase ρ} (h : p.emptyHanded = true) :
    p.owed = 0 := by
  cases p <;> simp_all [TrainPhase.emptyHanded, TrainPhase.owed]

namespace Sound

theorem running (hs : Sound cfg s) (h : s.tasks ≠ [] ∨ s.pump ≠ .unstarted) :
    s.train.starting = false := by
  by_contra hstart
  obtain ⟨h₁, h₂⟩ := hs.starting (by simpa using hstart)
  exact h.elim (· h₁) (· h₂)

/-- A step of the tasks or of the rollout pump. -/
theorem keep (hs : Sound cfg s) (hrun : s.train.starting = false) (hp : Pool s'.rm s'.tasks)
    (ht : s'.train = s.train) (hc : s'.checkpoints = s.checkpoints) : Sound cfg s' where
  pool := hp
  starting := by
    intro h
    rw [ht, hrun] at h
    cases h
  restoring := by
    intro groups n reserve h
    rw [← ht, h] at hrun
    simp [TrainPhase.starting] at hrun
  fetching := fun save slots stop h ↦ hs.fetching save slots stop (ht ▸ h)
  saved := hc ▸ hs.saved

theorem advance (hs : Sound cfg s) (hp : Pool s'.rm s'.tasks)
    (hrun : s'.train.starting = false)
    (hf : ∀ save slots stop, s'.train = .fetching save slots stop →
      (slots.map Slot.groupId).Nodup)
    (hc : s'.checkpoints = s.checkpoints) : Sound cfg s' where
  pool := hp
  starting := by
    intro h
    rw [hrun] at h
    cases h
  restoring := by
    intro groups n reserve h
    rw [h] at hrun
    simp [TrainPhase.starting] at hrun
  fetching := hf
  saved := hc ▸ hs.saved

theorem idle (hs : Sound cfg s) (hp : Pool s'.rm s'.tasks)
    (he : s'.train.emptyHanded = true) (hc : s'.checkpoints = s.checkpoints) : Sound cfg s' :=
  hs.advance hp (TrainPhase.emptyHanded.starting he)
    (fun _ _ _ h ↦ absurd h (TrainPhase.emptyHanded.fetching he _ _ _)) hc

end Sound

theorem Pool.withRows {rm : RolloutManager.State ρ} {tasks : List (Task ρ)} (hp : Pool rm tasks)
    (dp : KeyedStore SampleId (Row ρ)) : Pool (withRows rm dp) tasks :=
  ⟨⟨hp.tidy.1, hp.tidy.2, hp.tidy.3, hp.tidy.4⟩, hp.owns, hp.registry, hp.prompts⟩

theorem Pool.withWeight {rm : RolloutManager.State ρ} {tasks : List (Task ρ)} (hp : Pool rm tasks)
    (version : ℕ) : Pool { rm with weightVersion := version } tasks :=
  ⟨⟨hp.tidy.1, hp.tidy.2, hp.tidy.3, hp.tidy.4⟩, hp.owns, hp.registry, hp.prompts⟩

theorem Pool.flagged {rm : RolloutManager.State ρ} {tasks : List (Task ρ)} (hp : Pool rm s.tasks)
    (h : Flagged s tasks) : Pool rm tasks := by
  obtain ⟨f, rfl⟩ := h
  refine hp.map (fun t ↦ ?_) (fun t ↦ ?_) fun t ↦ ?_ <;> split_ifs <;> rfl

theorem Pool.granted {rm : RolloutManager.State ρ} {tasks : List (Task ρ)} (hp : Pool rm tasks) :
    Pool rm (tasks.map Task.granted) := by
  refine hp.map (fun t ↦ ?_) (fun t ↦ ?_) fun t ↦ ?_ <;>
    obtain ⟨n, c, phase⟩ := t <;> cases phase <;> rfl

theorem serial_lt_freshSerial {n : ℕ} {groups : List (SavedGroup ρ)} {g : SavedGroup ρ}
    (h : g ∈ groups) : g.groupId.serial < freshSerial n groups := by
  induction groups with
  | nil => cases h
  | cons a groups ih =>
    simp only [freshSerial, List.foldr_cons] at ih ⊢
    rcases List.mem_cons.mp h with rfl | h
    · exact Nat.lt_of_lt_of_le (Nat.lt_succ_self _) (le_max_left _ _)
    · exact (ih h).trans_le (le_max_right _ _)

theorem pool_empty (version nextSerial : ℕ) :
    Pool (⟨⟨.empty, .empty⟩, version, 0, 0, freshStats, [], nextSerial⟩ : RolloutManager.State ρ)
      [] where
  tidy := ⟨List.nodup_nil, by rintro x ⟨⟩, List.nodup_nil, by rintro r ⟨⟩⟩
  owns := List.Perm.refl _
  registry := List.Perm.refl _
  prompts := by rintro t ⟨⟩

theorem map_groupId_fetched {dp : KeyedStore SampleId (Row ρ)} {slots : List Slot}
    {groups : List (SavedGroup ρ)} (h : slots.mapM (TQReplayBuffer.fetchGroup dp) = some groups) :
    groups.map SavedGroup.groupId = slots.map Slot.groupId := by
  induction slots generalizing groups with
  | nil =>
    obtain rfl : groups = [] := by simpa using h.symm
    rfl
  | cons x slots ih =>
    simp only [List.mapM_cons, bind, Option.bind_eq_some_iff, pure] at h
    obtain ⟨g, hg, gs, hgs, heq⟩ := h
    obtain rfl := Option.some.inj heq
    obtain ⟨m, _, hm⟩ := Option.bind_eq_some_iff.mp hg
    obtain ⟨rows, _, rfl⟩ := Option.map_eq_some_iff.mp hm
    simp [ih hgs]

theorem Sound.boot (hs : Sound cfg s) {ck : Checkpoint ρ} {groups : List (SavedGroup ρ)}
    {n : ℕ} (hk : ck ∈ s.checkpoints)
    (h : TQReplayBuffer.preflight ck.buffer cfg.maxBufferedRollouts cfg.buffer.partitionId
      cfg.numGenerationsPerPrompt = .ok groups) :
    Sound cfg (boot cfg n ck.toSaveState groups s.checkpoints) where
  pool := pool_empty _ _
  starting := fun _ ↦ ⟨rfl, rfl⟩
  restoring := by
    rintro gs m reserve ⟨⟩
    obtain ⟨saved, hck, hnd⟩ := hs.saved ck hk
    rw [hck] at h
    refine ⟨?_, fun g hg ↦ serial_lt_freshSerial hg⟩
    exact (TQReplayBuffer.preflight_nodup h hnd).1
  fetching := by
    rintro save slots stop ⟨⟩
  saved := hs.saved

theorem Sound.restore (hs : Sound cfg s) {g : SavedGroup ρ} {rest : List (SavedGroup ρ)} {n : ℕ}
    {reserve : List ℕ} (h : s.train = .restoring (g :: rest) n reserve) :
    Sound cfg { s with
        rm.plane := TQReplayBuffer.restoreGroup s.rm.plane g
        train := .restoring rest (n + 1) reserve } ∧
      (readySlots { s.rm with plane := TQReplayBuffer.restoreGroup s.rm.plane g }).Perm
        (g.toSlot :: readySlots s.rm) := by
  obtain ⟨hnd, hold⟩ := hs.restoring _ _ _ h
  obtain ⟨htasks, hpump⟩ := hs.starting (by rw [h]; rfl)
  have hnew : ∀ y ∈ s.rm.slots, y.groupId ≠ g.groupId := by
    intro y hy heq
    exact (List.nodup_append.mp hnd).2.2 y.groupId (List.mem_map_of_mem hy) g.groupId (by simp) heq
  obtain ⟨htidy, howns, hready⟩ := hs.pool.owns.appendReady hs.pool.tidy (x := g.toSlot) rfl hnew
    (hold g (by simp))
  have hslots : (TQReplayBuffer.restoreGroup s.rm.plane g).buffer.slots =
      s.rm.slots ++ [g.toSlot] := TQReplayBuffer.slots_restoreGroup _ _
  refine ⟨⟨⟨⟨htidy.1, htidy.2, htidy.3, htidy.4⟩, howns, hs.pool.registry, hs.pool.prompts⟩,
    fun _ ↦ ⟨htasks, hpump⟩, ?_, ?_, hs.saved⟩, hready⟩
  · rintro groups m reserve' ⟨⟩
    refine ⟨?_, fun g' hg' ↦ hold g' (List.mem_cons_of_mem _ hg')⟩
    simp only [RolloutManager.State.slots, hslots, List.map_append, List.map_cons, List.map_nil,
      List.append_assoc, List.singleton_append]
    exact hnd
  · rintro save slots stop ⟨⟩

theorem Sound.steps (hs : Sound cfg s) {e : Event ρ} (h : Steps cfg s e s') : Sound cfg s' := by
  have hp := hs.pool
  cases h with
  | diverted n hpump _ => exact hs.keep (hs.running (.inr (by simp [hpump]))) hp rfl rfl
  | pulled n hpump _ => exact hs.keep (hs.running (.inr (by simp [hpump]))) hp rfl rfl
  | settling hpump => exact hs.keep (hs.running (.inr (by simp [hpump]))) hp rfl rfl
  | admitted prompts hpump _ => exact hs.keep (hs.running (.inr (by simp [hpump]))) hp rfl rfl
  | acquiredBuffer prompts target hpump _ =>
    exact hs.keep (hs.running (.inr (by simp [hpump]))) hp rfl rfl
  | acquiredSem prompts target hpump _ =>
    exact hs.keep (hs.running (.inr (by simp [hpump]))) hp rfl rfl
  | launched prompt rest target hpump =>
    refine hs.keep (hs.running (.inr (by simp [hpump]))) ⟨hp.tidy, ?_, ?_, ?_⟩ rfl rfl
    · simpa [Task.held] using hp.owns
    · simpa [Task.registered] using hp.registry
    · intro t ht
      rcases List.mem_append.mp ht with ht | ht
      · exact hp.prompts t ht
      · obtain rfl := List.mem_singleton.mp ht
        rintro x ⟨⟩
  | settled pump draining exhausted hpump _ _ =>
    exact hs.keep (hs.running (.inr (by simp [hpump]))) hp rfl rfl
  | drained hpump _ _ => exact hs.keep (hs.running (.inr (by simp [hpump]))) hp rfl rfl
  | turn i t hi hturn hpool =>
    have hne : s.tasks ≠ [] := by
      intro h
      simp [h] at hi
    refine hs.keep (hs.running (.inl hne)) hpool ?_ ?_ <;> cases hturn <;> rfl
  | flagged i t hstop hi =>
    have hne : s.tasks ≠ [] := by
      intro h
      simp [h] at hi
    refine hs.keep (hs.running (.inl hne)) ?_ rfl rfl
    have hheld := Pool.flatMap_perm (fun t ↦ t.held.toList) hi
    have hreg := Pool.flatMap_perm (fun t ↦ t.registered.toList) hi
    exact Pool.set (fun u hu ↦ hp.prompts u (Pool.mem_of_eraseIdx hu)) hi hp.tidy
      (hp.owns.trans hheld) (hp.registry.trans hreg) (hp.prompts t (List.mem_of_getElem? hi))
  | leaked i t hi hh hr _ =>
    have hne : s.tasks ≠ [] := by
      intro h
      simp [h] at hi
    exact hs.keep (hs.running (.inl hne)) (hp.erase hi hh hr) rfl rfl
  | launchCancelled prompts target stage hpump _ =>
    exact hs.keep (hs.running (.inr (by simp [hpump]))) hp rfl rfl
  | evicts gone rm ids htrain hev hne =>
    exact hs.advance hev.pool rfl (by simp) rfl
  | waits dp phase stopping _ hi => exact hs.idle (hp.withRows dp) hi.emptyHanded rfl
  | selects chunk rm _ _ hsel => exact hs.advance hsel.pool rfl (by simp) rfl
  | trained chunk dp phase stopping opened _ hi => exact hs.idle (hp.withRows dp) hi.emptyHanded rfl
  | finished _ _ _ => exact hs.advance hp rfl (by simp [finishRun]) rfl
  | closed tasks _ _ hflag _ =>
    exact hs.advance (hp.flagged hflag) rfl (by simp) rfl
  | closedFrozen _ _ =>
    exact hs.advance (hp.withWeight _) rfl (by simp [settleStep]) rfl
  | synced _ => exact hs.advance (hp.granted.withWeight _) rfl (by simp [settleStep]) rfl
  | saving stop _ => exact hs.advance hp rfl (by simp) rfl
  | fetching save stop _ =>
    refine hs.advance hp rfl ?_ rfl
    rintro save slots stop ⟨⟩
    exact hp.tidy.slots_nodup.sublist (List.filter_sublist.map _)
  | begins checkpoints phase stopping version dispatched opened hfrom hb =>
    have hi := hb.idles
    have hidle : Sound cfg { s with
        train := phase
        stopping := stopping
        versionDuringStep := version
        groupsDispatched := dispatched
        stepOpen := opened } := hs.idle hp hi.emptyHanded rfl
    refine ⟨hidle.pool, hidle.starting, hidle.restoring, hidle.fetching, ?_⟩
    rcases hfrom with ⟨_, rfl⟩ | ⟨save, slots, stop, groups, htrain, hgroups, rfl⟩
    · exact hs.saved
    · intro ck hck
      rcases List.mem_append.mp hck with hck | hck
      · exact hs.saved ck hck
      · obtain rfl := List.mem_singleton.mp hck
        refine ⟨groups, rfl, ?_⟩
        rw [map_groupId_fetched hgroups]
        exact hs.fetching save slots stop htrain
  | failed => exact ⟨hp, hs.starting, hs.restoring, hs.fetching, hs.saved⟩
  | restarted k ck groups hk hpre => exact hs.boot (List.mem_of_getElem? hk) hpre
  | restored g rest n reserve htrain => exact (hs.restore htrain).1
  | acquiredRestored n reserve htrain _ =>
    have hstart := hs.starting (by rw [htrain]; rfl)
    exact ⟨hp, fun _ ↦ hstart, by simp, by simp, hs.saved⟩
  | started reserve phase stopping version dispatched opened _ hb =>
    have hi := hb.idles
    exact hs.idle hp hi.emptyHanded rfl

theorem sound_fresh (cfg : Config) : Sound cfg (fresh cfg : State ρ) := by
  refine ⟨pool_empty _ _, fun _ ↦ ⟨rfl, rfl⟩, ?_, ?_, ?_⟩
  · rintro gs m reserve ⟨⟩
  · rintro save slots stop ⟨⟩
  · rintro ck ⟨⟩

/-- A first process starts its pumps like a resumed one. -/
theorem init_steps (cfg : Config) : Steps cfg (fresh cfg : State ρ) .startPumps (init cfg) :=
  step_cases (sound_fresh cfg).pool rfl

/-- What holds before the pumps start and is kept by every step that meets the
condition holds in every state of such a run, restarts included. -/
theorem invariant_of_steps {ok : State ρ → Event ρ → Prop} {I : State ρ → Prop}
    (h₀ : I (fresh cfg)) (hok : ok (fresh cfg) .startPumps)
    (hstep : ∀ s e s', Sound cfg s → I s → ok s e → Steps cfg s e s' → I s')
    (h : ReachableBy (step cfg) (Initial cfg) ok s) : Sound cfg s ∧ I s := by
  refine h.invariant (I := fun s ↦ Sound cfg s ∧ I s) (fun s hs ↦ ?_)
    fun s e t hs ho ht ↦ ?_
  · rw [hs]
    exact ⟨(sound_fresh cfg).steps (init_steps cfg),
      hstep _ _ _ (sound_fresh cfg) h₀ hok (init_steps cfg)⟩
  · have hsteps := step_cases hs.1.pool ht
    exact ⟨hs.1.steps hsteps, hstep _ _ _ hs.1 hs.2 ho hsteps⟩

end NemoRL.SingleController
