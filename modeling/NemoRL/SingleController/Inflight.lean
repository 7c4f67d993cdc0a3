import Mathlib
import NemoRL.SingleController.Permits

namespace NemoRL.SingleController

open DataPlane AsyncUtils Experience Experience.RolloutManager
open Foundations Foundations.Positions Foundations.Transition

variable {ρ : Type} {cfg : Config} {s s' : State ρ}

section Semaphore

def PumpPhase.inflight : PumpPhase → ℕ
  | .launching _ _ (.permitted _) => 1
  | _ => 0

def inflight (s : State ρ) : ℕ := s.tasks.length + s.pump.inflight

/-- At most one permit is lost, and that only with the launch that was cancelled. -/
structure Inflight (cfg : Config) (s : State ρ) : Prop where
  le : s.sem + inflight s ≤ cfg.maxInflightPrompts
  lost : cfg.maxInflightPrompts ≤ s.sem + inflight s + if s.pump = .aborted then 1 else 0

theorem inflight_launchNext (prompts : List ℕ) (target : Option ℕ) :
    (launchNext prompts target).inflight = 0 := by
  unfold launchNext
  split_ifs <;> rfl

theorem inflight_granted (p : PumpPhase) : p.granted.inflight = p.inflight := by
  unfold PumpPhase.granted
  split <;> rfl

theorem granted_eq_aborted (p : PumpPhase) : p.granted = .aborted ↔ p = .aborted := by
  unfold PumpPhase.granted
  split <;> simp

theorem Turn.inflight {i : ℕ} {t : Task ρ} (hi : s.tasks[i]? = some t) (h : Turn cfg s i t s') :
    s'.sem + s'.tasks.length = s.sem + s.tasks.length ∧ s'.pump = s.pump := by
  have hlt : i < s.tasks.length := (List.getElem?_eq_some_iff.mp hi).1
  have herase : (s.tasks.eraseIdx i).length + 1 = s.tasks.length := by
    rw [List.length_eraseIdx_of_lt hlt]
    omega
  refine ⟨?_, by cases h <;> rfl⟩
  cases h with
  | moved | replaced | promoted => simp only [List.length_set]
  | committed | shortened | ended =>
    simp only [endTask, release]
    omega

theorem Inflight.keep (hi : Inflight cfg s)
    (hsum : s'.sem + SingleController.inflight s' = s.sem + SingleController.inflight s)
    (habort : s.pump = .aborted → s'.pump = .aborted) : Inflight cfg s' := by
  obtain ⟨hle, hlost⟩ := hi
  refine ⟨by omega, ?_⟩
  by_cases h : s.pump = .aborted
  · rw [if_pos (habort h)]
    rw [if_pos h] at hlost
    omega
  · rw [if_neg h] at hlost
    omega

theorem Inflight.steps {e : Event ρ} (hs : Sound cfg s) (hi : Inflight cfg s)
    (h : Steps cfg s e s') : Inflight cfg s' := by
  cases h with
  | diverted n hpump _ => exact hi.keep rfl fun h ↦ h
  | pulled n hpump _ => exact hi.keep (by simp [inflight, hpump, PumpPhase.inflight]) (by simp [hpump])
  | settling hpump => exact hi.keep (by simp [inflight, hpump, PumpPhase.inflight]) (by simp [hpump])
  | admitted prompts hpump _ =>
    have hnone : s.pump.inflight = 0 := by
      rw [hpump]
      rfl
    refine hi.keep ?_ (by simp [hpump])
    simp only [inflight, admitBatch, inflight_launchNext, hnone]
  | acquiredBuffer prompts target hpump _ =>
    exact hi.keep (by simp [inflight, hpump, PumpPhase.inflight]) (by simp [hpump])
  | acquiredSem prompts target hpump hpos =>
    refine hi.keep ?_ (by simp [hpump])
    simp only [inflight, hpump, PumpPhase.inflight]
    omega
  | launched prompt rest target hpump =>
    have hone : s.pump.inflight = 1 := by
      rw [hpump]
      rfl
    refine hi.keep ?_ (by simp [hpump])
    simp only [inflight, inflight_launchNext, hone, List.length_append, List.length_singleton]
  | settled pump draining exhausted hpump _ hphase =>
    refine hi.keep ?_ (by simp [hpump])
    rcases hphase with ⟨rfl, _⟩ | ⟨rfl, _⟩ <;> simp [inflight, hpump, PumpPhase.inflight]
  | drained hpump _ _ => exact hi.keep (by simp [inflight, hpump, PumpPhase.inflight]) (by simp [hpump])
  | turn i t ht hturn _ =>
    obtain ⟨hsum, hpump⟩ := hturn.inflight ht
    refine hi.keep ?_ fun h ↦ hpump.trans h
    simp only [inflight, hpump]
    omega
  | flagged i t _ ht => exact hi.keep (by simp [inflight]) fun h ↦ h
  | leaked i t ht _ _ _ =>
    have hlt : i < s.tasks.length := (List.getElem?_eq_some_iff.mp ht).1
    refine hi.keep ?_ fun h ↦ h
    simp only [inflight, endTask, List.length_eraseIdx_of_lt hlt]
    omega
  | launchCancelled prompts target stage hpump _ =>
    obtain ⟨hle, hlost⟩ := hi
    have hstage : (PumpPhase.launching prompts target stage).inflight ≤ 1 := by
      cases stage <;> simp [PumpPhase.inflight]
    simp only [inflight, hpump, reduceCtorEq, if_false] at hle hlost
    refine ⟨?_, ?_⟩ <;> simp only [inflight, PumpPhase.inflight, if_true] <;> omega
  | closed tasks _ _ hflag _ =>
    obtain ⟨f, rfl⟩ := hflag
    exact hi.keep (by simp [inflight, advanceVersion]) fun h ↦ h
  | synced _ =>
    refine hi.keep ?_ fun h ↦ (granted_eq_aborted _).mpr h
    simp only [inflight, settleStep, permit, inflight_granted, List.length_map]
  | restarted k ck groups _ _ =>
    exact ⟨le_rfl, Nat.le_add_right _ _⟩
  | started reserve phase stopping version dispatched opened htrain _ =>
    obtain ⟨-, hpump⟩ := hs.starting (by rw [htrain]; rfl)
    exact hi.keep (by simp [inflight, hpump, PumpPhase.inflight]) (by simp [hpump])
  | evicts | waits | selects | trained | finished | closedFrozen | saving | fetching | begins |
    failed | restored | acquiredRestored => exact hi.keep rfl fun h ↦ h

/-- Every permit of `sem` is free or stands for one task or one launch, and a cancelled launch
loses at most the one it holds. -/
theorem inflight_conserved (cfg : Config) (s : State ρ)
    (h : Reachable (step cfg) (Initial cfg) s) :
    s.sem + s.tasks.length + s.pump.inflight ≤ cfg.maxInflightPrompts ∧
      (s.pump ≠ .aborted →
        s.sem + s.tasks.length + s.pump.inflight = cfg.maxInflightPrompts) ∧
      cfg.maxInflightPrompts ≤ s.sem + s.tasks.length + s.pump.inflight + 1 := by
  have hfresh : Inflight cfg (fresh cfg : State ρ) := ⟨le_rfl, Nat.le_add_right _ _⟩
  obtain ⟨-, hle, hlost⟩ := invariant_of_steps hfresh trivial
    (fun _ _ _ hs hi _ h ↦ hi.steps hs h) h
  simp only [inflight, ← Nat.add_assoc] at hle hlost
  refine ⟨hle, fun hne ↦ ?_, ?_⟩
  · rw [if_neg hne] at hlost
    omega
  · split_ifs at hlost <;> omega

/-- One task is under way and the launch of the next holds a permit. -/
def launchingRun : List (Event Unit) :=
  [.pull 1, .admitted, .acquireBuffer, .acquireSem, .launch, .startTask 0,
    .pull 1, .admitted, .acquireBuffer, .acquireSem]

theorem launchingRun_ends : (exec (step singlePrompt) (init singlePrompt) launchingRun).isSome := by
  decide +kernel

def launchingState : State Unit :=
  (exec (step singlePrompt) (init singlePrompt) launchingRun).get launchingRun_ends

theorem inflight_conserved_launching :
    (launchingState.tasks.length = 1 ∧ launchingState.pump.inflight = 1) ∧
      launchingState.sem + launchingState.tasks.length + launchingState.pump.inflight ≤ 2 ∧
      (launchingState.pump ≠ .aborted →
        launchingState.sem + launchingState.tasks.length + launchingState.pump.inflight = 2) ∧
      2 ≤ launchingState.sem + launchingState.tasks.length + launchingState.pump.inflight + 1 :=
  ⟨by decide +kernel, inflight_conserved singlePrompt launchingState
    (.run (initial_init singlePrompt) launchingRun launchingRun_ends)⟩

end Semaphore

end NemoRL.SingleController
