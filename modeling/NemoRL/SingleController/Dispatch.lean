import Mathlib
import NemoRL.SingleController.Model

namespace NemoRL.SingleController

open DataPlane AsyncUtils Experience Experience.RolloutManager Foundations Foundations.Positions

variable {ρ : Type} {cfg : Config} {s : State ρ}

/-- The unready slots are those of the tasks, and so are the registry entries. -/
structure Pool (rm : RolloutManager.State ρ) (tasks : List (Task ρ)) : Prop where
  tidy : Tidy rm
  owns : Owns rm (tasks.flatMap fun t ↦ t.held.toList)
  registry : rm.registry.Perm (tasks.flatMap fun t ↦ t.registered.toList)
  prompts : ∀ t ∈ tasks, ∀ x ∈ t.held, x.groupId.prompt = t.prompt

namespace Pool

variable {rm rm' : RolloutManager.State ρ} {tasks : List (Task ρ)} {i : ℕ} {t t' : Task ρ}

theorem flatMap_perm {β : Type} (f : Task ρ → List β) (hi : tasks[i]? = some t) :
    (tasks.flatMap f).Perm (f t ++ (tasks.eraseIdx i).flatMap f) := by
  have h := (perm_cons_eraseIdx hi).flatMap_right f
  rwa [List.flatMap_cons] at h

theorem flatMap_set_perm {β : Type} (f : Task ρ → List β) (hi : tasks[i]? = some t) :
    ((tasks.set i t').flatMap f).Perm (f t' ++ (tasks.eraseIdx i).flatMap f) := by
  have h := (set_perm hi t').flatMap_right f
  rwa [List.flatMap_cons] at h

theorem mem_set (hi : tasks[i]? = some t) {u : Task ρ} :
    u ∈ tasks.set i t' ↔ u = t' ∨ u ∈ tasks.eraseIdx i := by
  rw [(set_perm hi t').mem_iff, List.mem_cons]

theorem mem_of_eraseIdx (h : t' ∈ tasks.eraseIdx i) : t' ∈ tasks :=
  (List.eraseIdx_sublist tasks i).subset h

theorem erase (hp : Pool rm tasks) (hi : tasks[i]? = some t) (hh : t.held = none)
    (hr : t.registered = none) : Pool rm (tasks.eraseIdx i) where
  tidy := hp.tidy
  owns := by
    have h := flatMap_perm (fun t ↦ t.held.toList) hi
    simp only [hh, Option.toList_none, List.nil_append] at h
    exact hp.owns.trans h
  registry := by
    have h := flatMap_perm (fun t ↦ t.registered.toList) hi
    simp only [hr, Option.toList_none, List.nil_append] at h
    exact hp.registry.trans h
  prompts := fun t ht ↦ hp.prompts t (mem_of_eraseIdx ht)

theorem set (hp : ∀ u ∈ tasks.eraseIdx i, ∀ x ∈ u.held, x.groupId.prompt = u.prompt)
    (hi : tasks[i]? = some t) (ht : Tidy rm') (ho : Owns rm' (t'.held.toList ++
      (tasks.eraseIdx i).flatMap fun t ↦ t.held.toList))
    (hr : rm'.registry.Perm (t'.registered.toList ++
      (tasks.eraseIdx i).flatMap fun t ↦ t.registered.toList))
    (hx : ∀ x ∈ t'.held, x.groupId.prompt = t'.prompt) : Pool rm' (tasks.set i t') where
  tidy := ht
  owns := ho.trans (flatMap_set_perm (fun t ↦ t.held.toList) hi).symm
  registry := hr.trans (flatMap_set_perm (fun t ↦ t.registered.toList) hi).symm
  prompts := by
    intro u hu
    rcases (mem_set hi).mp hu with rfl | hu
    · exact hx
    · exact hp u hu

theorem set_idle (hp : Pool rm (tasks.eraseIdx i)) (hi : tasks[i]? = some t)
    (hh : t'.held = none) (hr : t'.registered = none) : Pool rm (tasks.set i t') := by
  refine set hp.prompts hi hp.tidy ?_ ?_ (by simp [hh])
  · simpa [hh] using hp.owns
  · simpa [hr] using hp.registry

theorem map (hp : Pool rm tasks) {f : Task ρ → Task ρ} (hh : ∀ t, (f t).held = t.held)
    (hr : ∀ t, (f t).registered = t.registered) (hq : ∀ t, (f t).prompt = t.prompt) :
    Pool rm (tasks.map f) where
  tidy := hp.tidy
  owns := by
    rw [List.flatMap_map]
    simp only [hh]
    exact hp.owns
  registry := by
    rw [List.flatMap_map]
    simp only [hr]
    exact hp.registry
  prompts := by
    intro u hu x hx
    obtain ⟨t, ht, rfl⟩ := List.mem_map.mp hu
    rw [hh] at hx
    rw [hq]
    exact hp.prompts t ht x hx

end Pool

theorem Task.targetStep_held {t : Task ρ} {x : Slot} (h : x ∈ t.held) :
    x.targetStep = t.target := by
  unfold Task.held at h
  cases hphase : t.phase <;> simp only [hphase, Option.mem_def, reduceCtorEq] at h
  simpa only [Task.target, hphase] using Call.targetStep_held h

def Task.Uncancelled (t : Task ρ) : Prop :=
  t.cancelRequested = false ∧ ∀ c, t.phase = .calling c → c.cancelling = false

/-- The task after a turn of it that goes on with the same prompt. -/
structure Follows (s : State ρ) (t t' : Task ρ) : Prop where
  target : t'.target = t.target
  prompt : t'.prompt = t.prompt
  held : ∀ x ∈ t'.held, x ∈ t.held ∨ x.startWeight = s.rm.weightVersion
  uncancelled : t.Uncancelled → t'.Uncancelled

/-- The task that goes on with a spare prompt after a drop. -/
structure Substitutes (cfg : Config) (s : State ρ) (t' : Task ρ) (reserve : List ℕ) : Prop where
  budget : cfg.policy.maxSkippedPrompts + cfg.policy.maxConsecutiveDroppedPrompts ≠ 0
  replace : cfg.replace = true
  spare : s.replacementReserve = t'.prompt :: reserve
  held : ∀ x ∈ t'.held, x.startWeight = s.rm.weightVersion
  uncancelled : t'.Uncancelled

/-- The ready slots after a turn of a task, and the weights it leaves alone. -/
structure Readies (s : State ρ) (ready : List Slot) (rm : RolloutManager.State ρ) : Prop where
  slots : (readySlots rm).Perm ready
  weightVersion : rm.weightVersion = s.rm.weightVersion

inductive Turn (cfg : Config) (s : State ρ) (i : ℕ) (t : Task ρ) : State ρ → Prop
  | moved (rm : RolloutManager.State ρ) (t' : Task ρ) : Follows s t t' →
      Readies s (readySlots s.rm) rm →
      Turn cfg s i t { s with rm := rm, tasks := s.tasks.set i t' }
  | committed (rm : RolloutManager.State ρ) (x : Slot) (m : KVBatchMeta) (e : ℕ)
      (counts : ℕ → ℕ) : t.held = some x →
      Readies s (x.filled m e :: readySlots s.rm) rm →
      Turn cfg s i t { endTask { s with rm := rm } i with batchReplacements := counts }
  | shortened (rm : RolloutManager.State ρ) :
      cfg.policy.maxSkippedPrompts + cfg.policy.maxConsecutiveDroppedPrompts ≠ 0 →
      Readies s (readySlots s.rm) rm →
      Turn cfg s i t { endTask (release { s with rm := rm } 1) i with
        batchShortfall := bump s.batchShortfall t.target }
  | replaced (rm : RolloutManager.State ρ) (t' : Task ρ) (reserve : List ℕ) :
      Substitutes cfg s t' reserve → t'.target = t.target →
      Readies s (readySlots s.rm) rm →
      Turn cfg s i t { s with
        rm := rm, tasks := s.tasks.set i t', replacementReserve := reserve }
  | promoted (rm : RolloutManager.State ρ) (t' : Task ρ) (reserve : List ℕ) (step lender : ℕ)
      (x : Slot) (rest : List Slot) (counts : ℕ → ℕ) :
      Substitutes cfg s t' reserve → t.target = some step → s.trainerVersion ≤ step →
      t'.target = some lender → TQReplayBuffer.Lends step x lender →
      (readySlots s.rm).Perm (x :: rest) → Readies s (x.restamped step :: rest) rm →
      Turn cfg s i t { s with
        rm := rm
        tasks := s.tasks.set i t'
        replacementReserve := reserve
        batchPromotions := counts }
  | ended (rm : RolloutManager.State ρ) (stopping : Bool) :
      (stopping = false → s.stopping = false ∧ ¬ t.Uncancelled) →
      Readies s (readySlots s.rm) rm →
      Turn cfg s i t { endTask (release { s with rm := rm } 1) i with stopping := stopping }

theorem startCall_eq (cfg : Config) {i : ℕ} {t t₀ : Task ρ} (prompt : ℕ) (target : Option ℕ)
    (hp : Pool s.rm (s.tasks.eraseIdx i)) (hi : s.tasks[i]? = some t₀) :
    ∃ rm c, startCall s i t prompt target =
        { s with rm := rm, tasks := s.tasks.set i { t with phase := .calling c } } ∧
      Pool rm (s.tasks.set i { t with phase := .calling c }) ∧
      Readies s (readySlots s.rm) rm ∧ c.prompt = prompt ∧ c.target = target ∧
      c.cancelling = false ∧ ∀ x ∈ c.held, x.startWeight = s.rm.weightVersion := by
  obtain ⟨hleaves, howns, hready⟩ := hp.owns.start cfg.policy prompt target hp.tidy
    hp.registry
  refine ⟨_, _, rfl, Pool.set hp.prompts hi hleaves.tidy howns hleaves.registry ?_, ⟨hready, rfl⟩, rfl, rfl,
    rfl, ?_⟩
  · intro x hx
    obtain rfl := Option.mem_some_iff.mp hx
    rfl
  · intro x hx
    obtain rfl := Option.mem_some_iff.mp hx
    rfl

theorem promoteIntoStep_cases {i : ℕ} (target : Option ℕ)
    (hp : Pool s.rm (s.tasks.eraseIdx i)) :
    promoteIntoStep s target = (s, target) ∨
    ∃ step lender x rest b, target = some step ∧ s.trainerVersion ≤ step ∧
      promoteIntoStep s target = ({ s with
        rm := withBuffer s.rm b, batchPromotions := bump s.batchPromotions target }, some lender) ∧
      TQReplayBuffer.Lends step x lender ∧ (readySlots s.rm).Perm (x :: rest) ∧
      (readySlots (withBuffer s.rm b)).Perm (x.restamped step :: rest) ∧
      Pool (withBuffer s.rm b) (s.tasks.eraseIdx i) := by
  unfold promoteIntoStep
  cases target with
  | none => exact .inl rfl
  | some step =>
    simp only
    split_ifs with hlt
    · exact .inl rfl
    · cases hpr : s.rm.plane.buffer.promoteReadyGroup step with
      | mk b lender =>
        cases lender with
        | none => exact .inl rfl
        | some lender =>
          have hsome : (s.rm.plane.buffer.promoteReadyGroup step).2 = some lender := by rw [hpr]
          obtain ⟨htidy, howns, x, rest, hlend, hready, hready'⟩ :=
            hp.owns.promote hp.tidy hsome
          rw [hpr] at htidy howns hready'
          exact .inr ⟨step, lender, x, rest, b, rfl, by omega, rfl, hlend, hready, hready',
            htidy, howns, hp.registry, hp.prompts⟩

theorem takeReplacement_eq_some {target : Option ℕ} {n spare : ℕ} {reserve : List ℕ}
    (h : takeReplacement cfg s target n = some (spare, reserve)) :
    cfg.replace = true ∧ s.replacementReserve = spare :: reserve := by
  unfold takeReplacement at h
  split_ifs at h with hc
  cases hr : s.replacementReserve with
  | nil => simp [hr] at h
  | cons a l =>
    simp only [hr, Option.some.injEq, Prod.mk.injEq] at h
    obtain ⟨rfl, rfl⟩ := h
    exact ⟨by simpa using (not_or.mp hc).1, rfl⟩

theorem dropped_turn {rm : RolloutManager.State ρ} {i : ℕ} {t t₀ : Task ρ}
    (hb : cfg.policy.maxSkippedPrompts + cfg.policy.maxConsecutiveDroppedPrompts ≠ 0)
    (hp : Pool rm (s.tasks.eraseIdx i)) (hi : s.tasks[i]? = some t₀)
    (hr : Readies s (readySlots s.rm) rm) (ht : t₀.target = t.target)
    (hc : t.cancelRequested = false) :
    Pool (dropped cfg { s with rm := rm } i t).rm (dropped cfg { s with rm := rm } i t).tasks ∧
      Turn cfg s i t₀ (dropped cfg { s with rm := rm } i t) := by
  unfold dropped
  cases htake : takeReplacement cfg { s with rm := rm } t.target t.replacements with
  | none =>
    refine ⟨hp, ?_⟩
    simp only
    rw [← ht]
    exact .shortened rm hb hr
  | some taken =>
    obtain ⟨spare, reserve⟩ := taken
    obtain ⟨hreplace, hspare⟩ := takeReplacement_eq_some htake
    have hw := hr.weightVersion
    simp only
    rcases promoteIntoStep_cases (s := { s with rm := rm, replacementReserve := reserve })
        t.target hp with
      hnone | ⟨step, lender, x, rest, b, htarget, hle, hsome, hlend, hx, hx', hp'⟩
    · rw [hnone]
      simp only
      split_ifs with hperm
      · obtain ⟨rm', c, heq, hpool, hready, hcp, hct, hcc, hheld⟩ := startCall_eq cfg
          (s := { s with rm := rm, replacementReserve := reserve })
          (t := { t with replacements := t.replacements + 1 })
          spare t.target hp hi
        rw [heq]
        refine ⟨hpool, .replaced rm' _ reserve ⟨hb, hreplace, ?_, ?_, hc, ?_⟩ ?_ ?_⟩
        · simpa [Task.prompt, hcp] using hspare
        · intro y hy
          rw [← hw]
          exact hheld y hy
        · rintro c' ⟨⟩
          exact hcc
        · rw [ht]
          exact hct
        · exact ⟨hready.slots.trans hr.slots, hready.weightVersion.trans hw⟩
      · refine ⟨hp.set_idle hi rfl rfl, .replaced rm _ reserve ⟨hb, hreplace, hspare, ?_, hc, ?_⟩
          ht.symm hr⟩
        · rintro y ⟨⟩
        · rintro c' ⟨⟩
    · rw [hsome]
      have hready₀ := hr.slots.symm.trans hx
      have htarget₀ := ht.trans htarget
      simp only
      split_ifs with hperm
      · obtain ⟨rm', c, heq, hpool, hready, hcp, hct, hcc, hheld⟩ := startCall_eq cfg
          (s := { s with
            rm := withBuffer rm b
            replacementReserve := reserve
            batchPromotions := bump s.batchPromotions t.target })
          (t := { t with replacements := t.replacements + 1 })
          spare (some lender) hp' hi
        rw [heq]
        refine ⟨hpool, .promoted rm' _ reserve step lender x rest _
          ⟨hb, hreplace, ?_, ?_, hc, ?_⟩ htarget₀ hle hct hlend hready₀ ?_⟩
        · simpa [Task.prompt, hcp] using hspare
        · intro y hy
          rw [← hw]
          exact hheld y hy
        · rintro c' ⟨⟩
          exact hcc
        · exact ⟨hready.slots.trans hx', hready.weightVersion.trans hw⟩
      · refine ⟨hp'.set_idle hi rfl rfl, .promoted (withBuffer rm b) _ reserve step lender x rest _
          ⟨hb, hreplace, hspare, ?_, hc, ?_⟩ htarget₀ hle rfl hlend hready₀ ⟨hx', hw⟩⟩
        · rintro y ⟨⟩
        · rintro c' ⟨⟩

theorem afterCall_turn {i n : ℕ} {cancelled : Bool} {c : Call ρ} {answer : Answer ρ}
    {r : RolloutManager.State ρ × Progress (Call ρ) Outcome} (hp : Pool s.rm s.tasks)
    (hi : s.tasks[i]? = some ⟨n, cancelled, .calling c⟩) (hc : answer.cancels = cancelled)
    (h : RolloutManager.resume cfg.buffer cfg.policy s.rm c answer = some r) :
    Pool (afterCall cfg s i ⟨n, false, .calling c⟩ r).rm
        (afterCall cfg s i ⟨n, false, .calling c⟩ r).tasks ∧
      Turn cfg s i ⟨n, cancelled, .calling c⟩ (afterCall cfg s i ⟨n, false, .calling c⟩ r) := by
  obtain ⟨hleaves, howns, hready⟩ := hp.owns.resume hp.tidy
    (Pool.flatMap_perm (fun t ↦ t.held.toList) hi)
    (hp.registry.trans (Pool.flatMap_perm (fun t ↦ t.registered.toList) hi)) h
  have hprompts : ∀ u ∈ s.tasks.eraseIdx i, ∀ x ∈ u.held, x.groupId.prompt = u.prompt :=
    fun u hu ↦ hp.prompts u (Pool.mem_of_eraseIdx hu)
  have hheld : ∀ x ∈ c.held, x.groupId.prompt = c.prompt :=
    hp.prompts _ (List.mem_of_getElem? hi)
  have hun : (⟨n, cancelled, .calling c⟩ : Task ρ).Uncancelled → Uncancelled r.2 := by
    rintro ⟨hfalse, hcall⟩
    exact resume_uncancelled h (hcall c rfl) (hc.trans hfalse)
  have hweight := hleaves.weightVersion
  have hcontinues := hleaves.continues
  obtain ⟨rm, r⟩ := r
  cases r with
  | suspended c' =>
    obtain ⟨hprompt, htarget, hslot⟩ := hcontinues
    refine ⟨Pool.set hprompts hi hleaves.tidy howns hleaves.registry ?_,
      .moved rm _ ⟨htarget, hprompt, ?_, ?_⟩ ⟨hready, hweight⟩⟩
    · intro x hx
      rcases hslot x hx with hx | ⟨_, hx⟩
      · exact (hheld x hx).trans hprompt.symm
      · exact hx.trans hprompt.symm
    · intro x hx
      exact (hslot x hx).imp id And.left
    · intro hu
      refine ⟨rfl, ?_⟩
      rintro _ ⟨⟩
      exact hun hu
  | raised e =>
    have hpool : Pool rm (s.tasks.eraseIdx i) :=
      ⟨hleaves.tidy, howns, hleaves.registry, hprompts⟩
    refine ⟨hpool, .ended rm _ ?_ ⟨hready, hweight⟩⟩
    intro hstop
    obtain ⟨hs, he⟩ := Bool.or_eq_false_iff.mp hstop
    refine ⟨hs, fun hu ↦ ?_⟩
    have hcancelled := hun hu
    simp only [Uncancelled] at hcancelled
    simp [hcancelled] at he
  | returned o =>
    have hpool : Pool rm (s.tasks.eraseIdx i) :=
      ⟨hleaves.tidy, howns, hleaves.registry, hprompts⟩
    cases o with
    | committed =>
      obtain ⟨x, m, e, hx, hperm⟩ := hready
      exact ⟨hpool, .committed rm x m e _ hx ⟨hperm, hweight⟩⟩
    | skipped budget =>
      have hb : cfg.policy.maxSkippedPrompts + cfg.policy.maxConsecutiveDroppedPrompts ≠ 0 := by
        cases budget <;> simp only [Continues] at hcontinues <;> omega
      exact dropped_turn hb hpool hi ⟨hready, hweight⟩ rfl rfl

end NemoRL.SingleController
