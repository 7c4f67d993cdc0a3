import Mathlib
import NemoRL.Experience.RolloutManager
import NemoRL.Foundations.Transition

namespace NemoRL.Experience.RetryMachine

open DataPlane AsyncUtils RolloutManager Foundations.Positions Foundations.Transition

variable {ρ : Type}

/-- Concurrent calls sharing one manager, and how the finished ones ended. -/
structure Machine (ρ : Type) where
  rm : State ρ
  calls : List (Call ρ)
  log : List (Call ρ × Except Exc Outcome)

inductive Event (ρ : Type)
  | start (prompt : ℕ) (target : Option ℕ)
  | resume (i : ℕ) (answer : Answer ρ)
  | removeReady (idxs : List ℕ)
  | promote (toTargetStep : ℕ)
  | restore (prompt weight : ℕ) (target : Option ℕ) (m : KVBatchMeta)
  | setWeightVersion (version : ℕ)

def finish (m : Machine ρ) (i : ℕ) (c : Call ρ) :
    State ρ × Progress (Call ρ) Outcome → Machine ρ
  | (rm, .suspended c') => ⟨rm, m.calls.set i c', m.log⟩
  | (rm, .returned o) => ⟨rm, m.calls.eraseIdx i, m.log ++ [(c, .ok o)]⟩
  | (rm, .raised e) => ⟨rm, m.calls.eraseIdx i, m.log ++ [(c, .error e)]⟩

/-- The calls, and the pumps around them that only ever touch ready slots. -/
def step (cfg : BufferConfig) (policy : RetryPolicy) (m : Machine ρ) :
    Event ρ → Option (Machine ρ)
  | .start prompt target =>
    match RolloutManager.start m.rm prompt target with
    | (rm, .suspended c) => some { m with rm := rm, calls := m.calls ++ [c] }
    | _ => none
  | .resume i answer => do
    let c ← m.calls[i]?
    let r ← RolloutManager.resume cfg policy m.rm c answer
    some (finish m i c r)
  | .removeReady idxs =>
    if idxs.Nodup ∧ ∀ x ∈ entriesAt m.rm.slots idxs, x.ready = true then
      match m.rm.plane.buffer.remove idxs with
      | (b, some _) => some { m with rm := withBuffer m.rm b }
      | _ => none
    else none
  | .promote t =>
    some { m with rm := withBuffer m.rm (m.rm.plane.buffer.promoteReadyGroup t).1 }
  | .restore prompt weight target kvMeta =>
    let rm := { m.rm with nextSerial := m.rm.nextSerial + 1 }
    some { m with rm := withBuffer rm (rm.plane.buffer.append
      ⟨some kvMeta, weight, weight, target, true, ⟨m.rm.nextSerial, prompt⟩⟩) }
  | .setWeightVersion version => some { m with rm.weightVersion := version }

def init : Machine ρ :=
  ⟨⟨⟨.empty, .empty⟩, 0, 0, 0,
    ⟨0, 0, fun _ ↦ 0, fun _ ↦ 0, fun _ ↦ 0, fun _ ↦ 0, 0⟩, [], 0⟩, [], []⟩

def Initial (m : Machine ρ) : Prop := m = init

abbrev Reaches (cfg : BufferConfig) (policy : RetryPolicy) (m : Machine ρ) : Prop :=
  Reachable (step cfg policy) Initial m

/-- Attempts are bounded by what is left of the two budgets, and the slot a
call holds is that of its last attempt. -/
structure InBudget (policy : RetryPolicy) (c : Call ρ) : Prop where
  infra : c.infraAttempts < policy.maxInfraAttempts
  data : c.dataAttempts < policy.maxDataAttempts
  attempts : c.reserved.length = c.infraAttempts + c.dataAttempts + c.held.toList.length
  held : ∀ x ∈ c.held, x.groupId ∈ c.reserved
  registered : ∀ r ∈ c.registered, r.1 ∈ c.reserved

def Charges (policy : RetryPolicy) (rm rm' : State ρ) : Progress (Call ρ) Outcome → Prop
  | .suspended _ => rm'.skippedPrompts = rm.skippedPrompts ∧
      rm'.consecutiveInfraDrops = rm.consecutiveInfraDrops
  | .returned .committed => rm'.skippedPrompts = rm.skippedPrompts ∧
      rm'.consecutiveInfraDrops = 0
  | .returned (.skipped .data) => rm.skippedPrompts < policy.maxSkippedPrompts ∧
      rm'.skippedPrompts = rm.skippedPrompts + 1 ∧
      rm'.consecutiveInfraDrops = rm.consecutiveInfraDrops
  | .returned (.skipped .infra) => rm'.skippedPrompts = rm.skippedPrompts ∧
      rm'.consecutiveInfraDrops = rm.consecutiveInfraDrops + 1 ∧
      rm'.consecutiveInfraDrops ≤ policy.maxConsecutiveDroppedPrompts
  | .raised _ => rm'.skippedPrompts = rm.skippedPrompts ∧
      rm.consecutiveInfraDrops ≤ rm'.consecutiveInfraDrops

/-- The ids a suspended call has reserved are those it had, and perhaps a fresh one. -/
def Reserves (rm rm' : State ρ) (c : Call ρ) : Progress (Call ρ) Outcome → Prop
  | .suspended c' => (c'.reserved = c.reserved ∧ rm'.nextSerial = rm.nextSerial) ∨
      (c'.reserved = c.reserved ++ [⟨rm.nextSerial, c.prompt⟩] ∧
        rm'.nextSerial = rm.nextSerial + 1)
  | _ => rm'.nextSerial = rm.nextSerial

structure Spends (policy : RetryPolicy) (rm : State ρ) (c : Call ρ)
    (r : State ρ × Progress (Call ρ) Outcome) : Prop where
  charges : Charges policy rm r.1 r.2
  reserves : Reserves rm r.1 c r.2
  inBudget : ∀ c', r.2 = .suspended c' → InBudget policy c'

section Step

variable {policy : RetryPolicy} {rm rm₀ : State ρ} {c c₀ : Call ρ}

theorem beginAttempt_spends (hi : c.infraAttempts < policy.maxInfraAttempts)
    (hd : c.dataAttempts < policy.maxDataAttempts)
    (ha : c.reserved.length = c.infraAttempts + c.dataAttempts)
    (hr : c.reserved = c₀.reserved) (hp : c.prompt = c₀.prompt)
    (hs : rm.skippedPrompts = rm₀.skippedPrompts)
    (hc : rm.consecutiveInfraDrops = rm₀.consecutiveInfraDrops)
    (hn : rm.nextSerial = rm₀.nextSerial) :
    Spends policy rm₀ c₀ (beginAttempt rm c) where
  charges := ⟨hs, hc⟩
  reserves := .inr ⟨by simp [hr, hp, hn], by simp [beginAttempt, hn]⟩
  inBudget := fun c' h ↦ by
    obtain rfl := Progress.suspended.inj h
    exact {
      infra := hi
      data := hd
      attempts := by simp [Call.held, ha]
      held := by simp [Call.held, TQReplayBuffer.reservation]
      registered := by simp [Call.registered] }

theorem exhausted_spends (error : Exc) (hs : rm.skippedPrompts = rm₀.skippedPrompts)
    (hc : rm.consecutiveInfraDrops = rm₀.consecutiveInfraDrops)
    (hn : rm.nextSerial = rm₀.nextSerial) :
    Spends policy rm₀ c₀ (exhausted policy rm error) := by
  unfold exhausted
  simp only
  split_ifs with h
  · exact ⟨⟨hs, by simp only; omega⟩, hn, by simp⟩
  · exact ⟨⟨hs, by simp only; omega, by simp only; omega⟩, hn, by simp⟩

theorem dataExhausted_spends (error : Exc) (hs : rm.skippedPrompts = rm₀.skippedPrompts)
    (hc : rm.consecutiveInfraDrops = rm₀.consecutiveInfraDrops)
    (hn : rm.nextSerial = rm₀.nextSerial) :
    Spends policy rm₀ c₀ (dataExhausted policy rm error) := by
  unfold dataExhausted
  simp only
  split_ifs with h₁ h₂
  · exact ⟨⟨hs, hc.ge⟩, hn, by simp⟩
  · exact ⟨⟨hs, hc.ge⟩, hn, by simp⟩
  · exact ⟨⟨by omega, by simp only; omega, hc⟩, hn, by simp⟩

/-- After the slot of a failed attempt is gone, its call has made one attempt
for every failure charged to a budget, and the last one. -/
theorem retry_spends (error : Exc) (hi : c.infraAttempts < policy.maxInfraAttempts)
    (hd : c.dataAttempts < policy.maxDataAttempts)
    (ha : c.reserved.length = c.infraAttempts + c.dataAttempts + 1)
    (hs : rm.skippedPrompts = rm₀.skippedPrompts)
    (hc : rm.consecutiveInfraDrops = rm₀.consecutiveInfraDrops)
    (hn : rm.nextSerial = rm₀.nextSerial) :
    Spends policy rm₀ c (retry policy rm c error) := by
  unfold retry
  split_ifs with hpost
  · exact ⟨⟨hs, hc.ge⟩, hn, by simp⟩
  · cases classifyRolloutFailure error with
    | infra =>
      simp only
      split_ifs with hmax
      · exact exhausted_spends error hs hc hn
      · refine ⟨⟨hs, hc⟩, .inl ⟨rfl, hn⟩, fun c' h ↦ ?_⟩
        obtain rfl := Progress.suspended.inj h
        exact {
          infra := by simp only; omega
          data := hd
          attempts := by simp [Call.held, ha]; omega
          held := by simp [Call.held]
          registered := by simp [Call.registered] }
    | data =>
      simp only
      split_ifs with hmax
      · exact dataExhausted_spends error hs hc hn
      · exact beginAttempt_spends hi (by simp only; omega) (by simp only; omega) rfl rfl
          hs hc hn

theorem handle_spends {g : GroupId} (error : Exc) (hi : c.infraAttempts < policy.maxInfraAttempts)
    (hd : c.dataAttempts < policy.maxDataAttempts)
    (ha : c.reserved.length = c.infraAttempts + c.dataAttempts + 1)
    (hs : rm.skippedPrompts = rm₀.skippedPrompts)
    (hc : rm.consecutiveInfraDrops = rm₀.consecutiveInfraDrops)
    (hn : rm.nextSerial = rm₀.nextSerial) :
    Spends policy rm₀ c (handle policy rm c g error) := by
  unfold handle
  split_ifs with he
  · exact retry_spends error hi hd ha hs hc hn
  · exact ⟨⟨hs, hc.ge⟩, hn, by simp⟩

theorem afterCommit_spends {d : Commit ρ} (hb : InBudget policy c) (hphase : c.phase = .committing d)
    {r : Plane ρ × Progress (Commit ρ) KVBatchMeta} (he : Commit.Effect rm.plane d r) :
    Spends policy rm c (resume.afterCommit policy rm c d r) := by
  have hheld : c.held =
      some (TQReplayBuffer.reservation d.startWeightVersion c.target d.groupId) := by
    simp [Call.held, hphase]
  have ha := hb.attempts
  rw [hheld] at ha
  cases he with
  | filled => exact ⟨⟨rfl, rfl⟩, rfl, by simp [resume.afterCommit, succeed]⟩
  | raised e => exact handle_spends e hb.infra hb.data ha rfl rfl rfl
  | suspended stage =>
    refine ⟨⟨rfl, rfl⟩, .inl ⟨rfl, rfl⟩, fun c' h ↦ ?_⟩
    obtain rfl := Progress.suspended.inj h
    exact {
      infra := hb.infra
      data := hb.data
      attempts := ha
      held := fun x hx ↦ hb.held x (by rw [hheld]; exact hx)
      registered := by simp [Call.registered] }

theorem resume_spends {cfg : BufferConfig} {answer : Answer ρ}
    {r : State ρ × Progress (Call ρ) Outcome} (hb : InBudget policy c)
    (h : RolloutManager.resume cfg policy rm c answer = some r) : Spends policy rm c r := by
  have ha := hb.attempts
  unfold RolloutManager.resume at h
  cases hphase : c.phase with
  | rollout g v =>
    have hheld : c.held = some (TQReplayBuffer.reservation v c.target g) := by
      simp [Call.held, hphase]
    rw [hheld] at ha
    cases answer with
    | ok => simp [hphase] at h
    | raise e =>
      simp only [hphase, Option.some.injEq] at h
      subst h
      exact handle_spends e hb.infra hb.data ha rfl rfl rfl
    | record record =>
      simp only [hphase] at h
      cases hstart : Commit.start cfg (unregister rm g).plane g record v
          (unregister rm g).weightVersion with
      | suspended d =>
        obtain ⟨rfl, _, _⟩ := Commit.start_eq_suspended hstart
        simp only [hstart, Option.some.injEq] at h
        subst h
        refine ⟨⟨rfl, rfl⟩, .inl ⟨rfl, rfl⟩, fun c' h ↦ ?_⟩
        obtain rfl := Progress.suspended.inj h
        exact {
          infra := hb.infra
          data := hb.data
          attempts := ha
          held := fun x hx ↦ hb.held x (by rw [hheld]; exact hx)
          registered := by simp [Call.registered] }
      | returned m => exact absurd hstart Commit.start_ne_returned
      | raised e =>
        simp only [hstart, Option.some.injEq] at h
        subst h
        exact handle_spends e hb.infra hb.data ha rfl rfl rfl
  | committing d =>
    cases answer with
    | record record => simp [hphase] at h
    | ok =>
      simp only [hphase, Option.some.injEq] at h
      subst h
      exact afterCommit_spends hb hphase (Commit.resume_effect cfg _ _ _)
    | raise e =>
      simp only [hphase, Option.some.injEq] at h
      subst h
      exact afterCommit_spends hb hphase (Commit.resume_effect cfg _ _ _)
  | backoff =>
    have hheld : c.held = none := by simp [Call.held, hphase]
    rw [hheld] at ha
    cases answer with
    | record record => simp [hphase] at h
    | ok =>
      simp only [hphase, Option.some.injEq] at h
      subst h
      exact beginAttempt_spends hb.infra hb.data ha rfl rfl rfl rfl rfl
    | raise e =>
      simp only [hphase, Option.some.injEq] at h
      subst h
      exact ⟨⟨rfl, le_rfl⟩, rfl, by simp⟩

end Step

def isCommit (e : Call ρ × Except Exc Outcome) : Bool :=
  match e.2 with
  | .ok .committed => true
  | _ => false

def isSkip (budget : FailureClass) (e : Call ρ × Except Exc Outcome) : Bool :=
  match e.2 with
  | .ok (.skipped b) => decide (b = budget)
  | _ => false

/-- What holds of the calls and the budgets at every suspension point. -/
structure Inv (policy : RetryPolicy) (m : Machine ρ) : Prop where
  tidy : Tidy m.rm
  owns : Owns m.rm (m.calls.filterMap Call.held)
  registry : m.rm.registry.Perm (m.calls.filterMap Call.registered)
  inBudget : ∀ c ∈ m.calls, InBudget policy c
  ids_nodup : (m.calls.flatMap Call.reserved).Nodup
  ids_old : ∀ g ∈ m.calls.flatMap Call.reserved, g.serial < m.rm.nextSerial
  foreign : ∀ x ∈ readySlots m.rm, x.groupId ∉ m.calls.flatMap Call.reserved
  logged : ∀ e ∈ m.log, e.1.reserved.length ≤
    policy.maxInfraAttempts + policy.maxDataAttempts - 1
  skips : m.log.countP (isSkip .data) = m.rm.skippedPrompts
  skips_le : m.rm.skippedPrompts ≤ policy.maxSkippedPrompts
  drops : ∀ l, l <:+: m.log → (∀ e ∈ l, isCommit e = false) →
    l.countP (isSkip .infra) ≤ policy.maxConsecutiveDroppedPrompts
  recent : ∀ l, l <:+ m.log → (∀ e ∈ l, isCommit e = false) →
    l.countP (isSkip .infra) ≤ m.rm.consecutiveInfraDrops

theorem InBudget.length_le {policy : RetryPolicy} {c : Call ρ} (h : InBudget policy c) :
    c.reserved.length ≤ policy.maxInfraAttempts + policy.maxDataAttempts - 1 := by
  have h₁ := h.infra
  have h₂ := h.data
  have h₃ := h.attempts
  have h₄ : c.held.toList.length ≤ 1 := by cases c.held <;> simp
  omega

/-- The calls other than the one that takes a step. -/
structure Others (policy : RetryPolicy) (m : Machine ρ) (c : Call ρ) (rest : List (Call ρ)) :
    Prop where
  perm : m.calls.Perm (c :: rest)
  inv : Inv policy m

namespace Others

variable {policy : RetryPolicy} {m : Machine ρ} {c : Call ρ} {rest : List (Call ρ)}

theorem held_perm (h : Others policy m c rest) :
    (m.calls.filterMap Call.held).Perm (c.held.toList ++ rest.filterMap Call.held) := by
  refine (h.perm.filterMap Call.held).trans ?_
  cases hc : c.held <;> simp [hc]

theorem registered_perm (h : Others policy m c rest) :
    m.rm.registry.Perm (c.registered.toList ++ rest.filterMap Call.registered) := by
  refine (h.inv.registry.trans (h.perm.filterMap Call.registered)).trans ?_
  cases hc : c.registered <;> simp [hc]

theorem ids_perm (h : Others policy m c rest) :
    (m.calls.flatMap Call.reserved).Perm (c.reserved ++ rest.flatMap Call.reserved) :=
  h.perm.flatMap_right _

theorem disjoint (h : Others policy m c rest) {g : GroupId} (hg : g ∈ c.reserved) :
    g ∉ rest.flatMap Call.reserved := fun hr ↦
  (List.nodup_append.mp (h.ids_perm.nodup_iff.mp h.inv.ids_nodup)).2.2 g hg g hr rfl

theorem mem_calls (h : Others policy m c rest) {d : Call ρ} (hd : d ∈ rest) : d ∈ m.calls :=
  h.perm.mem_iff.mpr (List.mem_cons_of_mem _ hd)

theorem held_foreign (h : Others policy m c rest) {x : Slot}
    (hx : x ∈ readySlots m.rm ++ rest.filterMap Call.held) : x.groupId ∉ c.reserved := by
  intro hg
  rcases List.mem_append.mp hx with hx | hx
  · exact h.inv.foreign x hx (h.ids_perm.mem_iff.mpr (List.mem_append_left _ hg))
  · obtain ⟨d, hd, hdx⟩ := List.mem_filterMap.mp hx
    refine h.disjoint hg (List.mem_flatMap.mpr ⟨d, hd, ?_⟩)
    exact (h.inv.inBudget d (h.mem_calls hd)).held x hdx

theorem registered_foreign (h : Others policy m c rest) {r : GroupId × ℕ}
    (hr : r ∈ rest.filterMap Call.registered) : r.1 ∉ c.reserved := by
  intro hg
  obtain ⟨d, hd, hdr⟩ := List.mem_filterMap.mp hr
  refine h.disjoint hg (List.mem_flatMap.mpr ⟨d, hd, ?_⟩)
  exact (h.inv.inBudget d (h.mem_calls hd)).registered r hdr

end Others

/-- What a call that has ended leaves of its own: exactly one ready slot if it
committed and no slot otherwise, and no registry entry. -/
def EndsClean (rm : State ρ) (c : Call ρ) : Except Exc Outcome → Prop
  | .ok .committed =>
    (∃ x, rm.slots.filter (fun y ↦ decide (y.groupId ∈ c.reserved)) = [x] ∧ x.ready = true) ∧
    ∀ r ∈ rm.registry, r.1 ∉ c.reserved
  | _ => (∀ x ∈ rm.slots, x.groupId ∉ c.reserved) ∧ ∀ r ∈ rm.registry, r.1 ∉ c.reserved

def ending : Progress (Call ρ) Outcome → Option (Except Exc Outcome)
  | .suspended _ => none
  | .returned o => some (.ok o)
  | .raised e => some (.error e)

theorem endsClean {policy : RetryPolicy} {m : Machine ρ} {c : Call ρ} {rest : List (Call ρ)}
    {r : State ρ × Progress (Call ρ) Outcome} {o : Except Exc Outcome}
    (h : Others policy m c rest) (hb : InBudget policy c)
    (hl : Leaves policy m.rm c (readySlots m.rm ++ rest.filterMap Call.held)
      (rest.filterMap Call.registered) r) (ho : ending r.2 = some o) : EndsClean r.1 c o := by
  obtain ⟨rm, r⟩ := r
  have hslots := hl.slots
  have hregistry := hl.registry
  have hforeign : ∀ x ∈ readySlots m.rm ++ rest.filterMap Call.held,
      x.groupId ∉ c.reserved := fun x hx ↦ h.held_foreign hx
  cases r with
  | suspended c' => simp [ending] at ho
  | raised e =>
    obtain rfl := Option.some.inj ho
    exact ⟨fun x hx ↦ hforeign x (hslots.mem_iff.mp hx),
      fun r hr ↦ h.registered_foreign (hregistry.mem_iff.mp hr)⟩
  | returned out =>
    obtain rfl := Option.some.inj ho
    have hreg : ∀ r ∈ rm.registry, r.1 ∉ c.reserved := fun r hr ↦
      h.registered_foreign (hregistry.mem_iff.mp hr)
    cases out with
    | skipped budget => exact ⟨fun x hx ↦ hforeign x (hslots.mem_iff.mp hx), hreg⟩
    | committed =>
      obtain ⟨x, kv, e, hx, hperm⟩ := hslots
      refine ⟨⟨x.filled kv e, ?_, rfl⟩, hreg⟩
      have hmine : (x.filled kv e).groupId ∈ c.reserved := hb.held x hx
      have hnone : (readySlots m.rm ++ rest.filterMap Call.held).filter
          (fun y ↦ decide (y.groupId ∈ c.reserved)) = [] :=
        List.filter_eq_nil_iff.mpr fun y hy ↦ by simp [hforeign y hy]
      have hfilter := hperm.filter fun y ↦ decide (y.groupId ∈ c.reserved)
      rw [List.filter_cons, hnone] at hfilter
      simpa [hmine] using hfilter

theorem suffix_cases {policy : RetryPolicy} {m : Machine ρ} (h : Inv policy m)
    (e : Call ρ × Except Exc Outcome) {n : ℕ}
    (hold : m.rm.consecutiveInfraDrops + (if isSkip .infra e then 1 else 0) ≤ n ∨
      isCommit e = true)
    {l : List (Call ρ × Except Exc Outcome)} (hl : l <:+ m.log ++ [e])
    (hc : ∀ x ∈ l, isCommit x = false) : l.countP (isSkip .infra) ≤ n := by
  rcases List.suffix_concat_iff.mp hl with rfl | ⟨t, rfl, ht⟩
  · simp
  · have he : isCommit e = false := hc e (by simp)
    have hn := hold.resolve_right (by simp [he])
    have htail := h.recent t ht fun x hx ↦ hc x (by simp [hx])
    rw [List.countP_append, List.countP_singleton]
    omega

section Finish

variable {policy : RetryPolicy} {m : Machine ρ} {c : Call ρ} {i : ℕ}
  {r : State ρ × Progress (Call ρ) Outcome}

theorem suspend_inv (h : Others policy m c (m.calls.eraseIdx i)) (hi : m.calls[i]? = some c)
    (hl : Leaves policy m.rm c
      (readySlots m.rm ++ (m.calls.eraseIdx i).filterMap Call.held)
      ((m.calls.eraseIdx i).filterMap Call.registered) r)
    (ho : Owns r.1 (heldBy r.2 ++ (m.calls.eraseIdx i).filterMap Call.held))
    (hr : ReadyAfter c.held (readySlots m.rm) (readySlots r.1) r.2)
    (hs : Spends policy m.rm c r) {c' : Call ρ} (hc : r.2 = .suspended c') :
    Inv policy ⟨r.1, m.calls.set i c', m.log⟩ := by
  obtain ⟨rm, r⟩ := r
  obtain rfl : r = .suspended c' := hc
  have hset := set_perm hi c'
  have hcharges := hs.charges
  have hregistry := hl.registry
  have hserial : m.rm.nextSerial ≤ rm.nextSerial := by
    rcases hs.reserves with ⟨_, h⟩ | ⟨_, h⟩ <;> simp only at h <;> omega
  have hids : ∀ g ∈ c'.reserved ++ (m.calls.eraseIdx i).flatMap Call.reserved,
      g ∈ m.calls.flatMap Call.reserved ∨ (g.serial = m.rm.nextSerial ∧
        m.rm.nextSerial < rm.nextSerial) := by
    intro g hg
    have hmem := h.ids_perm.mem_iff (a := g)
    rcases List.mem_append.mp hg with hg | hg
    · rcases hs.reserves with ⟨h₁, _⟩ | ⟨h₁, h₂⟩
      · exact .inl (hmem.mpr (List.mem_append_left _ (h₁ ▸ hg)))
      · rw [h₁, List.mem_append, List.mem_singleton] at hg
        rcases hg with hg | rfl
        · exact .inl (hmem.mpr (List.mem_append_left _ hg))
        · exact .inr ⟨rfl, by simp only at h₂; omega⟩
    · exact .inl (hmem.mpr (List.mem_append_right _ hg))
  have hflat : ((m.calls.set i c').flatMap Call.reserved).Perm
      (c'.reserved ++ (m.calls.eraseIdx i).flatMap Call.reserved) := hset.flatMap_right _
  exact {
    tidy := hl.tidy
    owns := by
      refine ho.trans ?_
      refine List.Perm.trans ?_ (hset.filterMap Call.held).symm
      cases hheld : c'.held <;> simp [heldBy, hheld]
    registry := by
      refine hregistry.trans ?_
      refine List.Perm.trans ?_ (hset.filterMap Call.registered).symm
      cases hheld : c'.registered <;> simp [hheld]
    inBudget := fun d hd ↦ by
      rcases List.mem_or_eq_of_mem_set hd with hd | rfl
      · exact h.inv.inBudget d hd
      · exact hs.inBudget _ rfl
    ids_nodup := by
      refine hflat.nodup_iff.mpr ?_
      have hnd := h.ids_perm.nodup_iff.mp h.inv.ids_nodup
      rcases hs.reserves with ⟨h₁, _⟩ | ⟨h₁, _⟩
      · rwa [h₁]
      · rw [h₁, List.append_assoc]
        have hmid : (c.reserved ++ ([(⟨m.rm.nextSerial, c.prompt⟩ : GroupId)] ++
            (m.calls.eraseIdx i).flatMap Call.reserved)).Perm (⟨m.rm.nextSerial, c.prompt⟩ ::
              (c.reserved ++ (m.calls.eraseIdx i).flatMap Call.reserved)) := List.perm_middle
        refine hmid.nodup_iff.mpr (List.nodup_cons.mpr ⟨?_, hnd⟩)
        intro hg
        have hlt := h.inv.ids_old _ (h.ids_perm.mem_iff.mpr hg)
        simp at hlt
    ids_old := fun g hg ↦ by
      rcases hids g (hflat.mem_iff.mp hg) with hg | ⟨hg, hlt⟩
      · exact (h.inv.ids_old g hg).trans_le hserial
      · exact hg.trans_lt hlt
    foreign := fun x hx hg ↦ by
      have hxm : x ∈ readySlots m.rm := hr.mem_iff.mp hx
      rcases hids _ (hflat.mem_iff.mp hg) with hg | ⟨hg, _⟩
      · exact h.inv.foreign x hxm hg
      · have hlt := h.inv.tidy.slots_old x (List.mem_filter.mp hxm).1
        omega
    logged := h.inv.logged
    skips := h.inv.skips.trans hcharges.1.symm
    skips_le := hcharges.1 ▸ h.inv.skips_le
    drops := h.inv.drops
    recent := fun l hl hc ↦ (h.inv.recent l hl hc).trans hcharges.2.ge }

theorem ending_eq_some {p : Progress (Call ρ) Outcome} {o : Except Exc Outcome}
    (h : ending p = some o) :
    (∃ e, p = .raised e ∧ o = .error e) ∨ (∃ x, p = .returned x ∧ o = .ok x) := by
  cases p with
  | suspended c => simp [ending] at h
  | raised e => exact .inl ⟨e, rfl, (Option.some.inj h).symm⟩
  | returned x => exact .inr ⟨x, rfl, (Option.some.inj h).symm⟩

theorem ended_ready (hb : InBudget policy c) {o : Except Exc Outcome}
    (hc : ending r.2 = some o)
    (hr : ReadyAfter c.held (readySlots m.rm) (readySlots r.1) r.2) :
    ∀ x ∈ readySlots r.1, x ∈ readySlots m.rm ∨ x.groupId ∈ c.reserved := by
  intro x hx
  rcases ending_eq_some hc with ⟨e, hp, _⟩ | ⟨out, hp, _⟩
  · rw [hp] at hr
    exact .inl (hr.mem_iff.mp hx)
  · rw [hp] at hr
    cases out with
    | skipped b => exact .inl (hr.mem_iff.mp hx)
    | committed =>
      obtain ⟨y, kv, e, hy, hperm⟩ := hr
      rcases List.mem_cons.mp (hperm.mem_iff.mp hx) with rfl | hx
      · exact .inr (hb.held y hy)
      · exact .inl hx

/-- An infrastructure skip is within its budget and counted since the last commit. -/
theorem ended_drops {o : Except Exc Outcome} (hc : ending r.2 = some o)
    (hs : Spends policy m.rm c r) :
    (m.rm.consecutiveInfraDrops + (if isSkip .infra (c, o) then 1 else 0) ≤
      r.1.consecutiveInfraDrops ∨ isCommit (c, o) = true) ∧
    (isSkip .infra (c, o) = true →
      r.1.consecutiveInfraDrops ≤ policy.maxConsecutiveDroppedPrompts) := by
  have hch := hs.charges
  rcases ending_eq_some hc with ⟨e, hp, rfl⟩ | ⟨out, hp, rfl⟩
  · rw [hp] at hch
    exact ⟨.inl (by simpa [isSkip] using hch.2), by simp [isSkip]⟩
  · rw [hp] at hch
    cases out with
    | committed => exact ⟨.inr rfl, by simp [isSkip]⟩
    | skipped b =>
      cases b with
      | data => exact ⟨.inl (by simpa [isSkip] using hch.2.2.ge), by simp [isSkip]⟩
      | infra => exact ⟨.inl (by simpa [isSkip] using hch.2.1.ge), fun _ ↦ hch.2.2⟩

theorem ended_skips {o : Except Exc Outcome} (hc : ending r.2 = some o)
    (hs : Spends policy m.rm c r) (hm : m.rm.skippedPrompts ≤ policy.maxSkippedPrompts) :
    r.1.skippedPrompts = m.rm.skippedPrompts + (if isSkip .data (c, o) then 1 else 0) ∧
      r.1.skippedPrompts ≤ policy.maxSkippedPrompts := by
  have hch := hs.charges
  rcases ending_eq_some hc with ⟨e, hp, rfl⟩ | ⟨out, hp, rfl⟩
  · rw [hp] at hch
    exact ⟨by simpa [isSkip] using hch.1, hch.1.trans_le hm⟩
  · rw [hp] at hch
    cases out with
    | committed => exact ⟨by simpa [isSkip] using hch.1, hch.1.trans_le hm⟩
    | skipped b =>
      cases b with
      | data => exact ⟨by simpa [isSkip] using hch.2.1, by have h := hch.1; have h' := hch.2.1; omega⟩
      | infra => exact ⟨by simpa [isSkip] using hch.1, hch.1.trans_le hm⟩

theorem end_inv (h : Others policy m c (m.calls.eraseIdx i)) (hb : InBudget policy c)
    (hl : Leaves policy m.rm c
      (readySlots m.rm ++ (m.calls.eraseIdx i).filterMap Call.held)
      ((m.calls.eraseIdx i).filterMap Call.registered) r)
    (ho : Owns r.1 (heldBy r.2 ++ (m.calls.eraseIdx i).filterMap Call.held))
    (hr : ReadyAfter c.held (readySlots m.rm) (readySlots r.1) r.2)
    (hs : Spends policy m.rm c r) {o : Except Exc Outcome} (hc : ending r.2 = some o) :
    Inv policy ⟨r.1, m.calls.eraseIdx i, m.log ++ [(c, o)]⟩ := by
  obtain ⟨hlog, hmax⟩ := ended_drops hc hs
  obtain ⟨hskips, hskips_le⟩ := ended_skips hc hs h.inv.skips_le
  have hready := ended_ready hb hc hr
  have hreserves := hs.reserves
  have hreg := hl.registry
  obtain ⟨hserial, hregistry, howns⟩ : r.1.nextSerial = m.rm.nextSerial ∧
      r.1.registry.Perm ((m.calls.eraseIdx i).filterMap Call.registered) ∧
      Owns r.1 ((m.calls.eraseIdx i).filterMap Call.held) := by
    rcases ending_eq_some hc with ⟨e, hp, _⟩ | ⟨out, hp, _⟩
    · rw [hp] at hreserves hreg ho
      exact ⟨hreserves, hreg, ho⟩
    · rw [hp] at hreserves hreg ho
      exact ⟨hreserves, hreg, ho⟩
  exact {
    tidy := hl.tidy
    owns := howns
    registry := hregistry
    inBudget := fun d hd ↦ h.inv.inBudget d (h.mem_calls hd)
    ids_nodup := (h.ids_perm.nodup_iff.mp h.inv.ids_nodup).of_append_right
    ids_old := fun g hg ↦ by
      rw [hserial]
      exact h.inv.ids_old g (h.ids_perm.mem_iff.mpr (List.mem_append_right _ hg))
    foreign := fun x hx hg ↦ by
      rcases hready x hx with hx | hx
      · exact h.inv.foreign x hx (h.ids_perm.mem_iff.mpr (List.mem_append_right _ hg))
      · exact h.disjoint hx hg
    logged := fun e he ↦ by
      rcases List.mem_append.mp he with he | he
      · exact h.inv.logged e he
      · obtain rfl : e = (c, o) := by simpa using he
        exact hb.length_le
    skips := by
      rw [List.countP_append, List.countP_singleton, h.inv.skips]
      exact hskips.symm
    skips_le := hskips_le
    drops := fun l hl hcl ↦ by
      rcases List.infix_concat_iff.mp hl with hl | hl
      · by_cases hskip : isSkip .infra (c, o) = true
        · exact (suffix_cases h.inv (c, o) hlog hl hcl).trans (hmax hskip)
        · rcases List.suffix_concat_iff.mp hl with rfl | ⟨t, rfl, ht⟩
          · simp
          · have htail := h.inv.drops t ht.isInfix fun x hx ↦ hcl x (by simp [hx])
            rw [List.countP_append, List.countP_singleton]
            simpa [hskip] using htail
      · exact h.inv.drops l hl hcl
    recent := fun l hl hcl ↦ suffix_cases h.inv (c, o) hlog hl hcl }

end Finish

section Run

variable {cfg : BufferConfig} {policy : RetryPolicy} {m : Machine ρ}

theorem others_of_getElem? (h : Inv policy m) {i : ℕ} {c : Call ρ} (hi : m.calls[i]? = some c) :
    Others policy m c (m.calls.eraseIdx i) :=
  ⟨perm_cons_eraseIdx hi, h⟩

theorem resume_inv (h : Inv policy m) {i : ℕ} {c : Call ρ} (hi : m.calls[i]? = some c)
    {answer : Answer ρ} {r : State ρ × Progress (Call ρ) Outcome}
    (hr : RolloutManager.resume cfg policy m.rm c answer = some r) :
    Inv policy (finish m i c r) ∧
      ∀ o, ending r.2 = some o → EndsClean r.1 c o := by
  have hothers := others_of_getElem? h hi
  have hb := h.inBudget c (List.mem_of_getElem? hi)
  obtain ⟨hl, ho, hready⟩ := h.owns.resume h.tidy hothers.held_perm hothers.registered_perm hr
  have hs := resume_spends hb hr
  refine ⟨?_, fun o hc ↦ endsClean hothers hb hl hc⟩
  obtain ⟨rm, p⟩ := r
  cases p with
  | suspended c' => exact suspend_inv hothers hi hl ho hready hs rfl
  | returned out => exact end_inv hothers hb hl ho hready hs rfl
  | raised e => exact end_inv hothers hb hl ho hready hs rfl

theorem withRm_inv (h : Inv policy m) {rm : State ρ} (ht : Tidy rm)
    (ho : Owns rm (m.calls.filterMap Call.held)) (hreg : rm.registry = m.rm.registry)
    (hserial : m.rm.nextSerial ≤ rm.nextSerial)
    (hskipped : rm.skippedPrompts = m.rm.skippedPrompts)
    (hdrops : rm.consecutiveInfraDrops = m.rm.consecutiveInfraDrops)
    (hready : ∀ x ∈ readySlots rm, x.groupId ∉ m.calls.flatMap Call.reserved) :
    Inv policy { m with rm := rm } where
  tidy := ht
  owns := ho
  registry := hreg ▸ h.registry
  inBudget := h.inBudget
  ids_nodup := h.ids_nodup
  ids_old := fun g hg ↦ (h.ids_old g hg).trans_le hserial
  foreign := hready
  logged := h.logged
  skips := h.skips.trans hskipped.symm
  skips_le := hskipped ▸ h.skips_le
  drops := h.drops
  recent := hdrops ▸ h.recent

theorem waiting_inv (h : Inv policy m) (prompt : ℕ) (target : Option ℕ) :
    Inv policy { m with calls := m.calls ++ [.waiting prompt target] } where
  tidy := h.tidy
  owns := by
    simpa [List.filterMap_append, List.filterMap_cons] using h.owns
  registry := by
    simpa [List.filterMap_append, List.filterMap_cons] using h.registry
  inBudget := fun c hc ↦ by
    rcases List.mem_append.mp hc with hc | hc
    · exact h.inBudget c hc
    · obtain rfl := List.mem_singleton.mp hc
      exact ⟨policy.infra_pos, policy.data_pos, rfl, by simp, by simp⟩
  ids_nodup := by simpa using h.ids_nodup
  ids_old := fun g hg ↦ h.ids_old g (by simpa using hg)
  foreign := fun x hx hg ↦ h.foreign x hx (by simpa using hg)
  logged := h.logged
  skips := h.skips
  skips_le := h.skips_le
  drops := h.drops
  recent := h.recent

theorem start_inv (h : Inv policy m) {prompt : ℕ} {target : Option ℕ} {rm : State ρ}
    {c : Call ρ} (hc : RolloutManager.start m.rm prompt target = (rm, .suspended c)) :
    Inv policy { m with rm := rm, calls := m.calls ++ [c] } := by
  have hresume : RolloutManager.resume ⟨"", false, none⟩ policy m.rm
      (.waiting prompt target) .ok = some (rm, .suspended c) :=
    congrArg some hc
  have hinv := (resume_inv (waiting_inv h prompt target) (i := m.calls.length) (by simp)
    hresume).1
  simpa [finish] using hinv

theorem step_inv (h : Inv policy m) {e : Event ρ} {t : Machine ρ}
    (hstep : step cfg policy m e = some t) : Inv policy t := by
  cases e with
  | start prompt target =>
    simp only [step] at hstep
    rcases hs : RolloutManager.start m.rm prompt target with ⟨rm, r⟩
    rw [hs] at hstep
    cases r with
    | suspended c =>
      obtain rfl := Option.some.inj hstep
      exact start_inv h hs
    | returned o => simp at hstep
    | raised e => simp at hstep
  | resume i answer =>
    simp only [step, Option.bind_eq_bind, Option.bind_eq_some_iff] at hstep
    obtain ⟨c, hc, r, hr, ht⟩ := hstep
    obtain rfl := Option.some.inj ht
    exact (resume_inv h hc hr).1
  | removeReady idxs =>
    simp only [step] at hstep
    split_ifs at hstep with hidx
    rcases hb : m.rm.plane.buffer.remove idxs with ⟨b, ids⟩
    rw [hb] at hstep
    cases ids with
    | none => simp at hstep
    | some ids =>
      obtain rfl := Option.some.inj hstep
      obtain ⟨ht, ho, hready⟩ := h.owns.removeReady h.tidy hidx.1 hidx.2 hb
      exact withRm_inv h ht ho rfl le_rfl rfl rfl fun x hx ↦
        h.foreign x (hready.mem_iff.mpr (List.mem_append_right _ hx))
  | promote t =>
    obtain rfl := Option.some.inj hstep
    cases hlent : (m.rm.plane.buffer.promoteReadyGroup t).2 with
    | none =>
      rw [(TQReplayBuffer.promoteReadyGroup_eq_none hlent).1]
      exact h
    | some lent =>
      obtain ⟨ht, ho, x, rest, _, hx, hready⟩ := h.owns.promote h.tidy hlent
      refine withRm_inv h ht ho rfl le_rfl rfl rfl fun y hy ↦ ?_
      rcases List.mem_cons.mp (hready.mem_iff.mp hy) with rfl | hy
      · exact h.foreign x (hx.mem_iff.mpr (by simp))
      · exact h.foreign y (hx.mem_iff.mpr (List.mem_cons_of_mem _ hy))
  | restore prompt weight target kvMeta =>
    obtain rfl := Option.some.inj hstep
    have ht : Tidy { m.rm with nextSerial := m.rm.nextSerial + 1 } :=
      ⟨h.tidy.1, fun x hx ↦ (h.tidy.2 x hx).trans (Nat.lt_succ_self _), h.tidy.3,
        fun r hr ↦ (h.tidy.4 r hr).trans (Nat.lt_succ_self _)⟩
    have hnew : ∀ y ∈ m.rm.slots, y.groupId ≠ ⟨m.rm.nextSerial, prompt⟩ := by
      intro y hy hyg
      have hlt := h.tidy.slots_old y hy
      rw [hyg] at hlt
      simp at hlt
    have howns : Owns { m.rm with nextSerial := m.rm.nextSerial + 1 }
        (m.calls.filterMap Call.held) := h.owns
    obtain ⟨ht', ho, hready⟩ := howns.appendReady ht
      (x := ⟨some kvMeta, weight, weight, target, true, ⟨m.rm.nextSerial, prompt⟩⟩) rfl hnew
      (Nat.lt_succ_self _)
    refine withRm_inv h ht' ho rfl (Nat.le_succ _) rfl rfl fun y hy hyg ↦ ?_
    rcases List.mem_cons.mp (hready.mem_iff.mp hy) with rfl | hy
    · have hlt := h.ids_old _ hyg
      simp at hlt
    · exact h.foreign y hy hyg
  | setWeightVersion v =>
    obtain rfl := Option.some.inj hstep
    exact withRm_inv h ⟨h.tidy.1, h.tidy.2, h.tidy.3, h.tidy.4⟩ h.owns rfl le_rfl rfl rfl
      h.foreign

theorem init_inv (policy : RetryPolicy) : Inv policy (init : Machine ρ) where
  tidy := ⟨.nil, by simp [State.slots, init], .nil, by simp [init]⟩
  owns := List.Perm.refl _
  registry := List.Perm.refl _
  inBudget := by simp [init]
  ids_nodup := .nil
  ids_old := by simp [init]
  foreign := by simp [readySlots, State.slots, init]
  logged := by simp [init]
  skips := rfl
  skips_le := Nat.zero_le _
  drops := fun l hl _ ↦ by
    obtain rfl : l = [] := by simpa [init] using hl
    simp
  recent := fun l hl _ ↦ by
    obtain rfl : l = [] := by simpa [init] using hl
    simp

theorem Reaches.inv (h : Reaches cfg policy m) : Inv policy m :=
  h.invariant (fun _ hm ↦ hm ▸ init_inv policy) fun _ _ _ hi _ hstep ↦ step_inv hi hstep

/-- Attempts, exits and the two run-wide budgets of concurrent calls. -/
theorem generate_and_push_within_budgets (h : Reaches cfg policy m) :
    (∀ c ∈ m.calls, c.reserved.length ≤
      policy.maxInfraAttempts + policy.maxDataAttempts - 1) ∧
    (∀ e ∈ m.log, e.1.reserved.length ≤
      policy.maxInfraAttempts + policy.maxDataAttempts - 1) ∧
    (∀ i c answer r o, m.calls[i]? = some c →
      RolloutManager.resume cfg policy m.rm c answer = some r → ending r.2 = some o →
      step cfg policy m (.resume i answer) =
        some ⟨r.1, m.calls.eraseIdx i, m.log ++ [(c, o)]⟩ ∧ EndsClean r.1 c o) ∧
    m.log.countP (isSkip .data) ≤ policy.maxSkippedPrompts ∧
    ∀ l, l <:+: m.log → (∀ e ∈ l, isCommit e = false) →
      l.countP (isSkip .infra) ≤ policy.maxConsecutiveDroppedPrompts := by
  have hinv := h.inv
  refine ⟨fun c hc ↦ (hinv.inBudget c hc).length_le, hinv.logged, ?_,
    hinv.skips.trans_le hinv.skips_le, hinv.drops⟩
  intro i c answer r o hc hr ho
  refine ⟨?_, (resume_inv hinv hc hr).2 o ho⟩
  obtain ⟨rm, p⟩ := r
  rcases ending_eq_some ho with ⟨e, hp, rfl⟩ | ⟨x, hp, rfl⟩ <;>
  · simp only at hp
    subst hp
    simp [step, hc, hr, finish]

end Run

theorem initial_init : Initial (init : Machine ρ) := rfl

def twoAttempts : RetryPolicy := ⟨2, 1, 0, 0, by decide, by decide⟩

/-- A rollout times out, backs off, and commits at its second attempt. -/
def retriedRun : List (Event ℕ) :=
  [.start 0 none, .resume 0 (.raise (.ofClasses [.timeoutError] none)), .resume 0 .ok,
    .resume 0 (.record ⟨[⟨7, 3, false⟩]⟩), .resume 0 .ok]

theorem retriedRun_ends :
    (exec (step ⟨"rollout_data", false, none⟩ twoAttempts) init retriedRun).isSome := by decide

theorem generate_and_push_within_budgets_retried :
    ((exec (step ⟨"rollout_data", false, none⟩ twoAttempts) init retriedRun).get
      retriedRun_ends).log.length = 1 ∧
    ∀ e ∈ ((exec (step ⟨"rollout_data", false, none⟩ twoAttempts) init retriedRun).get
      retriedRun_ends).log, e.1.reserved.length ≤ 2 :=
  ⟨by decide,
    (generate_and_push_within_budgets (Reachable.run initial_init retriedRun retriedRun_ends)).2.1⟩

end NemoRL.Experience.RetryMachine
