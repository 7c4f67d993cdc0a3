import Mathlib
import NemoRL.SingleController.Sound

namespace NemoRL.SingleController

open DataPlane AsyncUtils Experience Experience.RolloutManager
open Foundations Foundations.Positions Foundations.Transition

variable {ρ : Type} {cfg : Config} {s s' : State ρ}

def PumpPhase.permits : PumpPhase → ℕ
  | .launching _ _ .sem => 1
  | .launching _ _ (.permitted _) => 1
  | _ => 0

def TrainPhase.unpaid : TrainPhase ρ → ℕ
  | .restoring _ n _ => n
  | _ => 0

/-- A step that cancels no task parked between two prompts and no launch that
holds a permit. -/
def KeepsPermits (s : State ρ) : Event ρ → Prop
  | .cancelWaiting _ => False
  | .cancelLaunch => s.pump.permits = 0
  | _ => True

instance (s : State ρ) (e : Event ρ) : Decidable (KeepsPermits s e) := by
  cases e <;> simp only [KeepsPermits] <;> infer_instance

def permitHolders (s : State ρ) : ℕ :=
  s.pump.permits + s.tasks.length + (readySlots s.rm).length + s.train.owed

structure Conserved (cfg : Config) (s : State ρ) : Prop where
  total : s.bufferCapacity + permitHolders s = cfg.maxBufferedRollouts + s.train.unpaid
  unpaid : s.train.unpaid ≤ (readySlots s.rm).length

theorem TrainPhase.unpaid_eq_zero {p : TrainPhase ρ} (h : p.starting = false) : p.unpaid = 0 := by
  cases p <;> simp_all [TrainPhase.starting, TrainPhase.unpaid]

theorem permits_launchNext (prompts : List ℕ) (target : Option ℕ) :
    (launchNext prompts target).permits = 0 := by
  unfold launchNext
  split_ifs <;> rfl

theorem permits_granted (p : PumpPhase) : p.granted.permits = p.permits := by
  unfold PumpPhase.granted
  split <;> rfl

theorem Turn.permits {i : ℕ} {t : Task ρ} (hi : s.tasks[i]? = some t) (h : Turn cfg s i t s') :
    s'.bufferCapacity + s'.tasks.length + (readySlots s'.rm).length =
      s.bufferCapacity + s.tasks.length + (readySlots s.rm).length ∧
    s'.pump = s.pump ∧ s'.train = s.train := by
  have hlt : i < s.tasks.length := (List.getElem?_eq_some_iff.mp hi).1
  have herase : (s.tasks.eraseIdx i).length + 1 = s.tasks.length := by
    rw [List.length_eraseIdx_of_lt hlt]
    omega
  refine ⟨?_, by cases h <;> rfl, by cases h <;> rfl⟩
  cases h with
  | moved rm t' _ hr =>
    have hready := hr.slots.length_eq
    simp only [List.length_set]
    omega
  | committed rm x m e counts _ hr =>
    have hready := hr.slots.length_eq
    simp only [List.length_cons] at hready
    simp only [endTask]
    omega
  | shortened rm _ hr =>
    have hready := hr.slots.length_eq
    simp only [endTask, release]
    omega
  | replaced rm t' reserve _ _ hr =>
    have hready := hr.slots.length_eq
    simp only [List.length_set]
    omega
  | promoted rm t' reserve step lender x rest counts _ _ _ _ _ hx hr =>
    have hready := hr.slots.length_eq
    have hbefore := hx.length_eq
    simp only [List.length_cons] at hready hbefore
    simp only [List.length_set]
    omega
  | ended rm stopping _ hr =>
    have hready := hr.slots.length_eq
    simp only [endTask, release]
    omega

theorem Conserved.of_running (hs : s'.train.starting = false)
    (h : s'.bufferCapacity + permitHolders s' = cfg.maxBufferedRollouts) : Conserved cfg s' := by
  have hz := TrainPhase.unpaid_eq_zero hs
  exact ⟨by omega, by omega⟩

theorem Conserved.steps {e : Event ρ} (hs : Sound cfg s) (hc : Conserved cfg s)
    (hk : KeepsPermits s e) (h : Steps cfg s e s') : Conserved cfg s' := by
  obtain ⟨htotal, hunpaid⟩ := hc
  have hrun : ∀ p : PumpPhase, s.pump = p → p ≠ .unstarted → s.train.unpaid = 0 := by
    intro p hp hne
    exact TrainPhase.unpaid_eq_zero (hs.running (.inr (hp ▸ hne)))
  have hselect : s.train.selecting = true → s.train.unpaid = 0 := by
    intro h
    cases ht : s.train <;> simp_all [TrainPhase.selecting, TrainPhase.unpaid]
  simp only [permitHolders] at htotal
  cases h with
  | diverted n hpump _ => exact ⟨htotal, hunpaid⟩
  | pulled n hpump _ =>
    refine ⟨?_, hunpaid⟩
    simpa [permitHolders, hpump, PumpPhase.permits] using htotal
  | settling hpump =>
    refine ⟨?_, hunpaid⟩
    simpa [permitHolders, hpump, PumpPhase.permits] using htotal
  | admitted prompts hpump _ =>
    refine ⟨?_, hunpaid⟩
    have hz : s.pump.permits = 0 := by rw [hpump]; rfl
    simp only [permitHolders, admitBatch, permits_launchNext]
    rw [hz] at htotal
    exact htotal
  | acquiredBuffer prompts target hpump hpos =>
    refine ⟨?_, hunpaid⟩
    simp only [hpump, PumpPhase.permits] at htotal
    simp only [permitHolders, PumpPhase.permits]
    omega
  | acquiredSem prompts target hpump _ =>
    refine ⟨?_, hunpaid⟩
    simpa [permitHolders, hpump, PumpPhase.permits] using htotal
  | launched prompt rest target hpump =>
    refine ⟨?_, hunpaid⟩
    simp only [hpump, PumpPhase.permits] at htotal
    simp only [permitHolders, permits_launchNext, List.length_append, List.length_singleton]
    omega
  | settled pump draining exhausted hpump _ hp =>
    refine ⟨?_, hunpaid⟩
    simp only [hpump, PumpPhase.permits] at htotal
    rcases hp with ⟨rfl, _⟩ | ⟨rfl, _⟩ <;>
      simpa [permitHolders, PumpPhase.permits] using htotal
  | drained hpump _ _ =>
    refine ⟨?_, hunpaid⟩
    simpa [permitHolders, hpump, PumpPhase.permits] using htotal
  | turn i t hi hturn hpool =>
    obtain ⟨heq, hpump, htrain⟩ := hturn.permits hi
    have hne : s.tasks ≠ [] := by
      intro h
      simp [h] at hi
    refine .of_running (htrain ▸ hs.running (.inl hne)) ?_
    have hz := TrainPhase.unpaid_eq_zero (hs.running (.inl hne))
    simp only [permitHolders, hpump, htrain]
    omega
  | flagged i t _ hi =>
    refine ⟨?_, hunpaid⟩
    simpa [permitHolders] using htotal
  | leaked i t _ _ _ _ => exact hk.elim
  | launchCancelled prompts target stage hpump _ =>
    refine ⟨?_, hunpaid⟩
    have hz : s.pump.permits = 0 := hk
    rw [hz] at htotal
    simpa [permitHolders, PumpPhase.permits] using htotal
  | evicts gone rm ids htrain hev _ =>
    have hready := hev.ready.length_eq
    rw [List.length_append] at hready
    refine .of_running rfl ?_
    simp only [htrain, TrainPhase.owed, TrainPhase.unpaid] at htotal
    simp only [permitHolders, TrainPhase.owed]
    omega
  | waits dp phase stopping hsel hi =>
    have hz := hselect hsel
    refine .of_running (TrainPhase.emptyHanded.starting hi.emptyHanded) ?_
    simp only [permitHolders, release, TrainPhase.emptyHanded.owed hi.emptyHanded]
    have hready : readySlots (withRows s.rm dp) = readySlots s.rm := rfl
    rw [hready]
    omega
  | selects chunk rm hsel _ hch =>
    have hz := hselect hsel
    have hready := hch.ready.length_eq
    rw [List.length_append] at hready
    have howed : (TrainPhase.training chunk : TrainPhase ρ).owed = 0 := rfl
    refine .of_running rfl ?_
    simp only [permitHolders, release, howed]
    omega
  | trained chunk dp phase stopping opened htrain hi =>
    refine .of_running (TrainPhase.emptyHanded.starting hi.emptyHanded) ?_
    simp only [htrain, TrainPhase.owed, TrainPhase.unpaid] at htotal
    simp only [permitHolders, TrainPhase.emptyHanded.owed hi.emptyHanded]
    exact htotal
  | finished howed hstart _ =>
    have hz := TrainPhase.unpaid_eq_zero hstart
    refine .of_running rfl ?_
    simp only [permitHolders, finishRun, TrainPhase.owed]
    omega
  | closed tasks htrain _ hflag _ =>
    obtain ⟨f, rfl⟩ := hflag
    refine .of_running rfl ?_
    simp only [htrain, TrainPhase.owed, TrainPhase.unpaid] at htotal
    simp only [permitHolders, advanceVersion, TrainPhase.owed, List.length_map]
    exact htotal
  | closedFrozen htrain _ =>
    refine .of_running rfl ?_
    simp only [htrain, TrainPhase.owed, TrainPhase.unpaid] at htotal
    exact htotal
  | synced htrain =>
    refine .of_running rfl ?_
    simp only [htrain, TrainPhase.owed, TrainPhase.unpaid] at htotal
    simp only [permitHolders, settleStep, permit, permits_granted, List.length_map,
      TrainPhase.owed]
    exact htotal
  | saving stop htrain =>
    refine .of_running rfl ?_
    simp only [htrain, TrainPhase.owed, TrainPhase.unpaid] at htotal
    exact htotal
  | fetching save stop htrain =>
    refine .of_running rfl ?_
    simp only [htrain, TrainPhase.owed, TrainPhase.unpaid] at htotal
    exact htotal
  | begins checkpoints phase stopping version dispatched opened hfrom hb =>
    have hi := hb.idles
    have hz : s.train.owed = 0 ∧ s.train.unpaid = 0 := by
      rcases hfrom with ⟨htrain, _⟩ | ⟨_, _, _, _, htrain, _⟩ <;> rw [htrain] <;> exact ⟨rfl, rfl⟩
    refine .of_running (TrainPhase.emptyHanded.starting hi.emptyHanded) ?_
    simp only [permitHolders, TrainPhase.emptyHanded.owed hi.emptyHanded]
    omega
  | failed => exact ⟨htotal, hunpaid⟩
  | restarted k ck groups _ _ => exact ⟨rfl, Nat.zero_le _⟩
  | restored g rest n reserve htrain =>
    have hready := (hs.restore htrain).2.length_eq
    rw [List.length_cons] at hready
    simp only [htrain, TrainPhase.owed, TrainPhase.unpaid] at htotal hunpaid
    refine ⟨?_, ?_⟩ <;> simp only [permitHolders, TrainPhase.owed, TrainPhase.unpaid, hready] <;>
      omega
  | acquiredRestored n reserve htrain hle =>
    simp only [htrain, TrainPhase.owed, TrainPhase.unpaid] at htotal
    refine ⟨?_, Nat.zero_le _⟩
    simp only [permitHolders, TrainPhase.owed, TrainPhase.unpaid]
    omega
  | started reserve phase stopping version dispatched opened htrain hb =>
    have hi := hb.idles
    obtain ⟨_, hpump⟩ := hs.starting (by rw [htrain]; rfl)
    simp only [htrain, hpump, PumpPhase.permits, TrainPhase.owed, TrainPhase.unpaid] at htotal
    refine .of_running (TrainPhase.emptyHanded.starting hi.emptyHanded) ?_
    simp only [permitHolders, PumpPhase.permits, TrainPhase.emptyHanded.owed hi.emptyHanded]
    exact htotal

/-- Every taken permit stands for one launch, task, ready group or group being
evicted, and none is given back twice. -/
theorem buffer_permits_conserved (cfg : Config) (s : State ρ)
    (h : ReachableBy (step cfg) (Initial cfg) KeepsPermits s) :
    s.bufferCapacity ≤ cfg.maxBufferedRollouts ∧
      cfg.maxBufferedRollouts - s.bufferCapacity + s.train.unpaid = permitHolders s := by
  obtain ⟨_, hc⟩ := invariant_of_steps (I := Conserved cfg) ⟨rfl, Nat.zero_le _⟩ trivial
    (fun _ _ _ hs hc hk h ↦ Conserved.steps hs hc hk h) h
  have htotal := hc.total
  have hunpaid := hc.unpaid
  simp only [permitHolders] at htotal ⊢
  constructor <;> omega

def singlePrompt : Config where
  buffer := ⟨"rollout", false, none⟩
  policy := ⟨1, 1, 0, 0, le_rfl, le_rfl⟩
  sampler := .inOrder 1 none
  numPromptsPerStep := 1
  numGenerationsPerPrompt := 1
  maxNumSteps := 4
  maxBufferedRollouts := 2
  maxInflightPrompts := 2
  minGroupsForStreamingTrain := 1
  isPpo := false
  policyTrainingStartStep := 0
  useNemoGym := false
  replace := false
  maxReplacementAttempts := 0
  replacementReservePrompts := 0
  minStepBatchFraction := 1
  groups_le := le_rfl
  fraction_pos := one_pos
  capacity := by decide
  unstamped := by decide
  warmup := by decide
  ppo := by decide

def generated (i : ℕ) : List (Event Unit) :=
  [.acquireBuffer, .acquireSem, .launch, .startTask i,
    .resumeTask i (.record ⟨[⟨(), 1, false⟩]⟩), .resumeTask i .ok]

/-- Two prompts are generated, one is trained on, and the other is restored. -/
def restoringRun : List (Event Unit) :=
  [.pull 1, .admitted] ++ generated 0 ++ [.pull 1, .admitted] ++ generated 0 ++
  [.poll, .trained true, .closeStep, .synced, .endStep true false, .snapshot, .saved,
    .restart 0, .restored]

theorem restoringRun_ends :
    (execBy (step singlePrompt) KeepsPermits (init singlePrompt) restoringRun).isSome := by
  decide +kernel

def restoringState : State Unit :=
  (execBy (step singlePrompt) KeepsPermits (init singlePrompt) restoringRun).get restoringRun_ends

theorem restoringState_reached :
    ReachableBy (step singlePrompt) (Initial singlePrompt) KeepsPermits restoringState :=
  .run (initial_init singlePrompt) restoringRun restoringRun_ends

theorem buffer_permits_conserved_restoring :
    restoringState.bufferCapacity ≤ 2 ∧
      2 - restoringState.bufferCapacity + restoringState.train.unpaid =
        permitHolders restoringState :=
  buffer_permits_conserved singlePrompt restoringState restoringState_reached

/-- While `load_state_dict` puts the groups back, one is ready before its
permit has been acquired. -/
theorem restored_group_lacks_permit :
    ¬ ∀ (cfg : Config) (s : State Unit), Reachable (step cfg) (Initial cfg) s →
      cfg.maxBufferedRollouts - s.bufferCapacity = permitHolders s := by
  intro h
  have hlaw := h singlePrompt restoringState restoringState_reached.reachable
  have hfails : singlePrompt.maxBufferedRollouts - restoringState.bufferCapacity ≠
      permitHolders restoringState := by decide +kernel
  exact hfails hlaw

end NemoRL.SingleController
