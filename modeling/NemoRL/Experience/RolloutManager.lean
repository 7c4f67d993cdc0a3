import Mathlib
import NemoRL.AsyncUtils.Commit

namespace NemoRL.Experience.RolloutManager

open DataPlane AsyncUtils Foundations.Positions

structure RetryPolicy where
  maxInfraAttempts : ℕ
  maxDataAttempts : ℕ
  maxSkippedPrompts : ℕ
  maxConsecutiveDroppedPrompts : ℕ
  infra_pos : 1 ≤ maxInfraAttempts
  data_pos : 1 ≤ maxDataAttempts

abbrev Counts := Option ExcClass → ℕ

def Counts.bump (c : Counts) (reason : Option ExcClass) : Counts :=
  Function.update c reason (c reason + 1)

structure RolloutStats where
  committed : ℕ
  skipped : ℕ
  redispatchesByReason : Counts
  dataRetriesByReason : Counts
  dataFailuresByReason : Counts
  infraDropsByReason : Counts
  maxConsecutiveInfraDrops : ℕ

structure State (ρ : Type) where
  plane : Plane ρ
  weightVersion : ℕ
  skippedPrompts : ℕ
  consecutiveInfraDrops : ℕ
  stats : RolloutStats
  /-- The controller's registry of attempts that are rolling out. -/
  registry : List (GroupId × ℕ)
  /-- The serial number of the next fresh group id. -/
  nextSerial : ℕ

/-- The `await` an attempt is suspended at. -/
inductive Phase (ρ : Type)
  | rollout (groupId : GroupId) (startVersion : ℕ)
  | committing (commit : Commit ρ)
  | backoff

/-- One `generate_and_push`, with the ids it has reserved so far. -/
structure Call (ρ : Type) where
  prompt : ℕ
  target : Option ℕ
  infraAttempts : ℕ
  dataAttempts : ℕ
  lastInfraError : Option Exc
  phase : Phase ρ
  reserved : List GroupId

/-- How a call returns; a skip keeps the budget it is charged to. -/
inductive Outcome
  | committed
  | skipped (budget : FailureClass)
  deriving DecidableEq

/-- What the `await` of a call gives back. -/
inductive Answer (ρ : Type)
  | record (record : PromptGroupRecord ρ)
  | ok
  | raise (error : Exc)

variable {ρ : Type}

def State.slots (rm : State ρ) : List Slot := rm.plane.buffer.slots

namespace Call

def held (c : Call ρ) : Option Slot :=
  match c.phase with
  | .rollout g v => some (TQReplayBuffer.reservation v c.target g)
  | .committing d => some (TQReplayBuffer.reservation d.startWeightVersion c.target d.groupId)
  | .backoff => none

def registered (c : Call ρ) : Option (GroupId × ℕ) :=
  match c.phase with
  | .rollout g v => some (g, v)
  | _ => none

end Call

def Call.waiting (prompt : ℕ) (target : Option ℕ) : Call ρ :=
  ⟨prompt, target, 0, 0, none, .backoff, []⟩

@[simp] theorem Call.held_waiting (prompt : ℕ) (target : Option ℕ) :
    (Call.waiting prompt target : Call ρ).held = none := rfl

@[simp] theorem Call.registered_waiting (prompt : ℕ) (target : Option ℕ) :
    (Call.waiting prompt target : Call ρ).registered = none := rfl

@[simp] theorem Call.reserved_waiting (prompt : ℕ) (target : Option ℕ) :
    (Call.waiting prompt target : Call ρ).reserved = [] := rfl

/-- The head of the retry loop: reserve a slot under a fresh id and register it. -/
def beginAttempt (rm : State ρ) (c : Call ρ) : State ρ × Progress (Call ρ) Outcome :=
  let startVersion := rm.weightVersion
  let groupId : GroupId := ⟨rm.nextSerial, c.prompt⟩
  ({ rm with
      plane.buffer := rm.plane.buffer.reserve startVersion c.target groupId
      registry := rm.registry ++ [(groupId, startVersion)]
      nextSerial := rm.nextSerial + 1 },
    .suspended { c with
      phase := .rollout groupId startVersion
      reserved := c.reserved ++ [groupId] })

def start (rm : State ρ) (prompt : ℕ) (target : Option ℕ) :
    State ρ × Progress (Call ρ) Outcome :=
  beginAttempt rm (.waiting prompt target)

/-- `remove_group` in a handler, which swallows the error of a slot that is gone. -/
def cleanup (rm : State ρ) (groupId : GroupId) : State ρ :=
  { rm with plane.buffer := (rm.plane.buffer.removeGroup groupId).getD rm.plane.buffer }

/-- The lines after the loop, once the infrastructure budget has run out. -/
def exhausted (policy : RetryPolicy) (rm : State ρ) (error : Exc) :
    State ρ × Progress (Call ρ) Outcome :=
  let drops := rm.consecutiveInfraDrops + 1
  if drops > policy.maxConsecutiveDroppedPrompts then
    ({ rm with consecutiveInfraDrops := drops }, .raised (.redispatchExhausted error))
  else
    ({ rm with
        consecutiveInfraDrops := drops
        stats.infraDropsByReason := rm.stats.infraDropsByReason.bump error.typeName
        stats.maxConsecutiveInfraDrops := max rm.stats.maxConsecutiveInfraDrops drops
        stats.skipped := rm.stats.skipped + 1 },
      .returned (.skipped .infra))

def dataExhausted (policy : RetryPolicy) (rm : State ρ) (error : Exc) :
    State ρ × Progress (Call ρ) Outcome :=
  let failed := { rm.stats with
    dataFailuresByReason := rm.stats.dataFailuresByReason.bump error.typeName }
  if rm.skippedPrompts ≥ policy.maxSkippedPrompts then
    ({ rm with stats := failed },
      .raised (if policy.maxSkippedPrompts = 0 then error else .dataFailure error))
  else
    ({ rm with
        skippedPrompts := rm.skippedPrompts + 1
        stats := { failed with skipped := failed.skipped + 1 } },
      .returned (.skipped .data))

/-- The `except Exception` handler, after the slot of the attempt is removed. -/
def retry (policy : RetryPolicy) (rm : State ρ) (c : Call ρ) (error : Exc) :
    State ρ × Progress (Call ρ) Outcome :=
  if containsPostWriteEnrichmentError error then (rm, .raised error)
  else match classifyRolloutFailure error with
    | .infra =>
      let attempts := c.infraAttempts + 1
      if attempts ≥ policy.maxInfraAttempts then exhausted policy rm error
      else
        ({ rm with stats.redispatchesByReason :=
            rm.stats.redispatchesByReason.bump error.typeName },
          .suspended { c with
            infraAttempts := attempts
            lastInfraError := some error
            phase := .backoff })
    | .data =>
      let attempts := c.dataAttempts + 1
      if attempts ≥ policy.maxDataAttempts then dataExhausted policy rm error
      else
        beginAttempt
          { rm with stats.dataRetriesByReason :=
              rm.stats.dataRetriesByReason.bump error.typeName }
          { c with dataAttempts := attempts }

/-- Both handlers: every exception removes the slot, only `Exception`s retry. -/
def handle (policy : RetryPolicy) (rm : State ρ) (c : Call ρ) (groupId : GroupId)
    (error : Exc) : State ρ × Progress (Call ρ) Outcome :=
  if error.isException then retry policy (cleanup rm groupId) c error
  else (cleanup rm groupId, .raised error)

def succeed (rm : State ρ) : State ρ × Progress (Call ρ) Outcome :=
  ({ rm with
      stats.committed := rm.stats.committed + 1
      consecutiveInfraDrops := 0 },
    .returned .committed)

def unregister (rm : State ρ) (groupId : GroupId) : State ρ :=
  { rm with registry := rm.registry.filter fun r ↦ r.1 ≠ groupId }

def resume (cfg : BufferConfig) (policy : RetryPolicy) (rm : State ρ) (c : Call ρ)
    (answer : Answer ρ) : Option (State ρ × Progress (Call ρ) Outcome) :=
  match c.phase, answer with
  | .rollout g v, .record record =>
    let rm := unregister rm g
    match Commit.start cfg rm.plane g record v rm.weightVersion with
    | .suspended d => some (rm, .suspended { c with phase := .committing d })
    | .returned _ => some (succeed rm)
    | .raised e => some (handle policy rm c g e)
  | .rollout g _, .raise e => some (handle policy (unregister rm g) c g e)
  | .committing d, .ok => some (afterCommit policy rm c d (Commit.resume cfg rm.plane d .ok))
  | .committing d, .raise e =>
    some (afterCommit policy rm c d (Commit.resume cfg rm.plane d (.raise e)))
  | .backoff, .ok => some (beginAttempt rm c)
  | .backoff, .raise e => some (rm, .raised e)
  | _, _ => none
where
  /-- Continue with what a resumption of the commit has come to. -/
  afterCommit (policy : RetryPolicy) (rm : State ρ) (c : Call ρ) (d : Commit ρ) :
      Plane ρ × Progress (Commit ρ) KVBatchMeta → State ρ × Progress (Call ρ) Outcome
    | (p, .suspended d') => ({ rm with plane := p }, .suspended { c with phase := .committing d' })
    | (p, .returned _) => succeed { rm with plane := p }
    | (p, .raised e) => handle policy { rm with plane := p } c d.groupId e

/-- No two slots or registry entries share a group, and none is from the future. -/
structure Tidy (rm : State ρ) : Prop where
  slots_nodup : (rm.slots.map Slot.groupId).Nodup
  slots_old : ∀ x ∈ rm.slots, x.groupId.serial < rm.nextSerial
  registry_nodup : (rm.registry.map Prod.fst).Nodup
  registry_old : ∀ r ∈ rm.registry, r.1.serial < rm.nextSerial

/-- The slots a call leaves beside the others: its own unready one while it is
suspended, its filled one when it has committed, and none otherwise. -/
def LeavesSlots (held : Option Slot) (others : List Slot) (slots : List Slot) :
    Progress (Call ρ) Outcome → Prop
  | .suspended c => slots.Perm (c.held.toList ++ others)
  | .returned .committed => ∃ x m e, held = some x ∧ slots.Perm (x.filled m e :: others)
  | .returned (.skipped _) => slots.Perm others
  | .raised _ => slots.Perm others

def LeavesRegistry (others registry : List (GroupId × ℕ)) :
    Progress (Call ρ) Outcome → Prop
  | .suspended c => registry.Perm (c.registered.toList ++ others)
  | _ => registry.Perm others

/-- What a call stays for while it is suspended: the same prompt and step, in
the slot it had or in a fresh one stamped with the current weights. -/
def Continues (policy : RetryPolicy) (rm : State ρ) (c : Call ρ) :
    Progress (Call ρ) Outcome → Prop
  | .suspended c' => c'.prompt = c.prompt ∧ c'.target = c.target ∧
      ∀ x ∈ c'.held, x ∈ c.held ∨
        (x.startWeight = rm.weightVersion ∧ x.groupId.prompt = c.prompt)
  | .returned (.skipped .data) => policy.maxSkippedPrompts ≠ 0
  | .returned (.skipped .infra) => policy.maxConsecutiveDroppedPrompts ≠ 0
  | _ => True

/-- Everything a step of a call guarantees to the others. -/
structure Leaves (policy : RetryPolicy) (rm : State ρ) (c : Call ρ) (others : List Slot)
    (entries : List (GroupId × ℕ)) (r : State ρ × Progress (Call ρ) Outcome) : Prop where
  tidy : Tidy r.1
  slots : LeavesSlots c.held others r.1.slots r.2
  registry : LeavesRegistry entries r.1.registry r.2
  weightVersion : r.1.weightVersion = rm.weightVersion
  continues : Continues policy rm c r.2

variable {policy : RetryPolicy} {rm rm₀ : State ρ} {c c₀ : Call ρ} {others : List Slot}
  {entries : List (GroupId × ℕ)}

theorem beginAttempt_leaves (ht : Tidy rm) (hs : rm.slots.Perm others)
    (hr : rm.registry.Perm entries) (hw : rm.weightVersion = rm₀.weightVersion)
    (hp : c.prompt = c₀.prompt) (htarget : c.target = c₀.target) :
    Leaves policy rm₀ c₀ others entries (beginAttempt rm c) where
  tidy := by
    have hfresh : ∀ x ∈ rm.slots, x.groupId ≠ ⟨rm.nextSerial, c.prompt⟩ := by
      intro x hx h
      have hlt := ht.slots_old x hx
      rw [h] at hlt
      simp at hlt
    have hfreshr : ∀ r ∈ rm.registry, r.1 ≠ ⟨rm.nextSerial, c.prompt⟩ := by
      intro r hr h
      have hlt := ht.registry_old r hr
      rw [h] at hlt
      simp at hlt
    constructor
    · simp only [beginAttempt, State.slots, TQReplayBuffer.slots_reserve, List.map_append]
      refine List.nodup_append.mpr ⟨ht.slots_nodup, by simp, fun g hg h hh ↦ ?_⟩
      obtain ⟨x, hx, rfl⟩ := List.mem_map.mp hg
      obtain rfl : h = ⟨rm.nextSerial, c.prompt⟩ := by
        simpa [TQReplayBuffer.reservation] using hh
      exact hfresh x hx
    · intro x hx
      simp only [beginAttempt, State.slots, TQReplayBuffer.slots_reserve, List.mem_append,
        List.mem_singleton] at hx ⊢
      rcases hx with hx | rfl
      · exact (ht.slots_old x hx).trans (Nat.lt_succ_self _)
      · exact Nat.lt_succ_self _
    · simp only [beginAttempt, List.map_append]
      refine List.nodup_append.mpr ⟨ht.registry_nodup, by simp, fun g hg h hh ↦ ?_⟩
      obtain ⟨r, hr, rfl⟩ := List.mem_map.mp hg
      obtain rfl : h = ⟨rm.nextSerial, c.prompt⟩ := by simpa using hh
      exact hfreshr r hr
    · intro r hr
      simp only [beginAttempt, List.mem_append, List.mem_singleton] at hr ⊢
      rcases hr with hr | rfl
      · exact (ht.registry_old r hr).trans (Nat.lt_succ_self _)
      · exact Nat.lt_succ_self _
  slots := by
    simp only [beginAttempt, LeavesSlots, State.slots, TQReplayBuffer.slots_reserve]
    exact (List.perm_append_comm).trans (hs.cons _)
  registry := by
    simp only [beginAttempt, LeavesRegistry]
    exact (List.perm_append_comm).trans (hr.cons _)
  weightVersion := hw
  continues := by
    refine ⟨hp, htarget, fun x hx ↦ .inr ?_⟩
    obtain rfl : TQReplayBuffer.reservation rm.weightVersion c.target
        ⟨rm.nextSerial, c.prompt⟩ = x := by simpa [Call.held] using hx
    exact ⟨hw, hp⟩

theorem exhausted_leaves (error : Exc) (ht : Tidy rm) (hs : rm.slots.Perm others)
    (hr : rm.registry.Perm entries) (hw : rm.weightVersion = rm₀.weightVersion) :
    Leaves policy rm₀ c₀ others entries (exhausted policy rm error) := by
  unfold exhausted
  simp only
  split_ifs with h
  · exact ⟨⟨ht.1, ht.2, ht.3, ht.4⟩, hs, hr, hw, trivial⟩
  · refine ⟨⟨ht.1, ht.2, ht.3, ht.4⟩, hs, hr, hw, ?_⟩
    simp only [Continues]
    omega

theorem dataExhausted_leaves (error : Exc) (ht : Tidy rm) (hs : rm.slots.Perm others)
    (hr : rm.registry.Perm entries) (hw : rm.weightVersion = rm₀.weightVersion) :
    Leaves policy rm₀ c₀ others entries (dataExhausted policy rm error) := by
  unfold dataExhausted
  simp only
  split_ifs with h₁ h₂
  · exact ⟨⟨ht.1, ht.2, ht.3, ht.4⟩, hs, hr, hw, trivial⟩
  · exact ⟨⟨ht.1, ht.2, ht.3, ht.4⟩, hs, hr, hw, trivial⟩
  · refine ⟨⟨ht.1, ht.2, ht.3, ht.4⟩, hs, hr, hw, ?_⟩
    simp only [Continues]
    omega

theorem retry_leaves (error : Exc) (ht : Tidy rm) (hs : rm.slots.Perm others)
    (hr : rm.registry.Perm entries) (hw : rm.weightVersion = rm₀.weightVersion)
    (hp : c.prompt = c₀.prompt) (htarget : c.target = c₀.target) :
    Leaves policy rm₀ c₀ others entries (retry policy rm c error) := by
  unfold retry
  split_ifs with hpost
  · exact ⟨ht, hs, hr, hw, trivial⟩
  · cases classifyRolloutFailure error with
    | infra =>
      simp only
      split_ifs with hmax
      · exact exhausted_leaves error ht hs hr hw
      · exact ⟨⟨ht.1, ht.2, ht.3, ht.4⟩, hs, hr, hw, hp, htarget, by simp [Call.held]⟩
    | data =>
      simp only
      split_ifs with hmax
      · exact dataExhausted_leaves error ht hs hr hw
      · exact beginAttempt_leaves ⟨ht.1, ht.2, ht.3, ht.4⟩ hs hr hw hp htarget

theorem cleanup_slots {g : GroupId} {x : Slot} (ht : Tidy rm) (hs : rm.slots.Perm (x :: others))
    (hx : x.groupId = g) : Tidy (cleanup rm g) ∧ (cleanup rm g).slots.Perm others := by
  have hmem : x ∈ rm.slots := hs.mem_iff.mpr (by simp)
  unfold cleanup
  cases hb : rm.plane.buffer.removeGroup g with
  | none => exact absurd hx (TQReplayBuffer.removeGroup_eq_none.mp hb x hmem)
  | some b =>
    obtain ⟨i, y, hy, hyg, hslots⟩ := TQReplayBuffer.removeGroup_eq_some hb
    have hperm : rm.slots.Perm (y :: b.slots) := hslots ▸ perm_cons_eraseIdx hy
    have hyx : y = x := by
      refine List.inj_on_of_nodup_map ht.slots_nodup ?_ hmem (hyg.trans hx.symm)
      exact hperm.mem_iff.mpr (by simp)
    subst hyx
    have hrest : b.slots.Perm others := (hperm.symm.trans hs).cons_inv
    have hsub : ∀ z ∈ b.slots, z ∈ rm.slots := fun z hz ↦
      hperm.mem_iff.mpr (List.mem_cons_of_mem _ hz)
    refine ⟨⟨?_, fun z hz ↦ ht.slots_old z (hsub z hz), ht.3, ht.4⟩, hrest⟩
    exact (List.nodup_cons.mp ((hperm.map Slot.groupId).nodup_iff.mp ht.slots_nodup)).2

theorem handle_leaves {g : GroupId} {x : Slot} (error : Exc) (ht : Tidy rm)
    (hs : rm.slots.Perm (x :: others)) (hx : x.groupId = g) (hr : rm.registry.Perm entries)
    (hw : rm.weightVersion = rm₀.weightVersion) (hp : c.prompt = c₀.prompt)
    (htarget : c.target = c₀.target) :
    Leaves policy rm₀ c₀ others entries (handle policy rm c g error) := by
  obtain ⟨ht', hs'⟩ := cleanup_slots ht hs hx
  unfold handle
  split_ifs with he
  · exact retry_leaves error ht' hs' hr hw hp htarget
  · exact ⟨ht', hs', hr, hw, trivial⟩

theorem unregister_registry {g : GroupId} {v : ℕ} (ht : Tidy rm)
    (hr : rm.registry.Perm ((g, v) :: entries)) :
    Tidy (unregister rm g) ∧ (unregister rm g).registry.Perm entries := by
  have hsub : (unregister rm g).registry.Sublist rm.registry := List.filter_sublist
  refine ⟨⟨ht.1, ht.2, ht.3.sublist (hsub.map _), fun r hr ↦ ht.4 r (hsub.subset hr)⟩, ?_⟩
  have hnd := (hr.map Prod.fst).nodup_iff.mp ht.registry_nodup
  have hne : ∀ r ∈ entries, r.1 ≠ g := fun r hmem h ↦
    (List.nodup_cons.mp hnd).1 (List.mem_map.mpr ⟨r, hmem, h⟩)
  have h := hr.filter fun r ↦ decide (r.1 ≠ g)
  have hself : entries.filter (fun r ↦ decide (r.1 ≠ g)) = entries :=
    List.filter_eq_self.mpr fun r hmem ↦ by simpa using hne r hmem
  simpa only [unregister, List.filter_cons, ne_eq, not_true_eq_false, decide_false,
    Bool.false_eq_true, if_false, hself] using h

theorem tidy_of_slots {b : TQReplayBuffer} (ht : Tidy rm)
    (h : (b.slots.map Slot.groupId).Perm (rm.slots.map Slot.groupId))
    (dp : Foundations.KeyedStore SampleId (Row ρ)) : Tidy { rm with plane := ⟨b, dp⟩ } := by
  refine ⟨h.nodup_iff.mpr ht.1, fun x hx ↦ ?_, ht.3, ht.4⟩
  obtain ⟨y, hy, hyx⟩ := List.mem_map.mp (h.mem_iff.mp (List.mem_map_of_mem hx))
  rw [← hyx]
  exact ht.2 y hy

theorem afterCommit_leaves {d : Commit ρ} {x : Slot} (ht : Tidy rm) (hx : c.held = some x)
    (hd : c.phase = .committing d) (hs : rm.slots.Perm (x :: others))
    (hr : rm.registry.Perm entries) {r : Plane ρ × Progress (Commit ρ) KVBatchMeta}
    (he : Commit.Effect rm.plane d r) :
    Leaves policy rm c others entries (resume.afterCommit policy rm c d r) := by
  have hheld : x = TQReplayBuffer.reservation d.startWeightVersion c.target d.groupId := by
    simpa [Call.held, hd] using hx.symm
  cases he with
  | @filled q m i s hi hg hm hq =>
    have hsx : s = x := by
      have hsm : s ∈ rm.slots := List.mem_of_getElem? hi
      refine List.inj_on_of_nodup_map ht.slots_nodup hsm (hs.mem_iff.mpr (by simp)) ?_
      rw [hg, hheld]
      rfl
    subst hsx
    have hbefore := perm_cons_eraseIdx hi
    have hafter := set_perm hi (s.filled m d.endWeightVersion)
    have hrest : (rm.plane.buffer.slots.eraseIdx i).Perm others :=
      (hbefore.symm.trans hs).cons_inv
    have htidy := tidy_of_slots (b := q.buffer) ht (by
      rw [hq]
      exact ((hafter.map Slot.groupId).trans (hbefore.map Slot.groupId).symm)) q.dp
    refine ⟨⟨htidy.1, htidy.2, ht.3, ht.4⟩, ⟨s, m, d.endWeightVersion, hx, ?_⟩, hr, rfl, trivial⟩
    simp only [resume.afterCommit, succeed, State.slots, hq]
    exact hafter.trans (hrest.cons _)
  | @suspended q stage hq =>
    have htidy := tidy_of_slots (b := q.buffer) ht (by rw [hq]; exact List.Perm.refl _) q.dp
    refine ⟨htidy, ?_, hr, rfl, rfl, rfl, fun y hy ↦ .inl ?_⟩
    · simp only [resume.afterCommit, LeavesSlots, State.slots, hq, Call.held]
      rw [hheld] at hs
      exact hs
    · rw [hx, hheld]
      simpa [Call.held] using hy
  | @raised q e hq =>
    have htidy := tidy_of_slots (b := q.buffer) ht (by rw [hq]; exact List.Perm.refl _) q.dp
    refine handle_leaves e htidy (x := x) ?_ (by rw [hheld]; rfl) hr rfl rfl rfl
    simp only [State.slots, hq]
    exact hs

theorem resume_leaves {cfg : BufferConfig} {answer : Answer ρ}
    {r : State ρ × Progress (Call ρ) Outcome} (ht : Tidy rm)
    (hs : rm.slots.Perm (c.held.toList ++ others))
    (hr : rm.registry.Perm (c.registered.toList ++ entries))
    (h : resume cfg policy rm c answer = some r) : Leaves policy rm c others entries r := by
  unfold resume at h
  cases hphase : c.phase with
  | rollout g v =>
    simp only [Call.held, Call.registered, hphase, Option.toList_some,
      List.singleton_append] at hs hr
    obtain ⟨ht', hr'⟩ := unregister_registry ht hr
    have hx : (TQReplayBuffer.reservation v c.target g).groupId = g := rfl
    cases answer with
    | ok => simp [hphase] at h
    | raise e =>
      simp only [hphase, Option.some.injEq] at h
      subst h
      exact handle_leaves e ht' hs hx hr' rfl rfl rfl
    | record record =>
      simp only [hphase] at h
      cases hstart : Commit.start cfg (unregister rm g).plane g record v
          (unregister rm g).weightVersion with
      | suspended d =>
        obtain ⟨rfl, _, _⟩ := Commit.start_eq_suspended hstart
        simp only [hstart, Option.some.injEq] at h
        subst h
        refine ⟨ht', hs, hr', rfl, rfl, rfl, fun y hy ↦ .inl ?_⟩
        simpa [Call.held, hphase] using hy
      | returned m => exact absurd hstart Commit.start_ne_returned
      | raised e =>
        simp only [hstart, Option.some.injEq] at h
        subst h
        exact handle_leaves e ht' hs hx hr' rfl rfl rfl
  | committing d =>
    have hheld : c.held =
        some (TQReplayBuffer.reservation d.startWeightVersion c.target d.groupId) := by
      simp [Call.held, hphase]
    rw [hheld] at hs
    simp only [Call.registered, hphase, Option.toList_none, List.nil_append] at hr
    cases answer with
    | record record => simp [hphase] at h
    | ok =>
      simp only [hphase, Option.some.injEq] at h
      subst h
      exact afterCommit_leaves ht hheld hphase hs hr (Commit.resume_effect cfg _ _ _)
    | raise e =>
      simp only [hphase, Option.some.injEq] at h
      subst h
      exact afterCommit_leaves ht hheld hphase hs hr (Commit.resume_effect cfg _ _ _)
  | backoff =>
    simp only [Call.held, Call.registered, hphase, Option.toList_none,
      List.nil_append] at hs hr
    cases answer with
    | record record => simp [hphase] at h
    | ok =>
      simp only [hphase, Option.some.injEq] at h
      subst h
      exact beginAttempt_leaves ht hs hr rfl rfl rfl
    | raise e =>
      simp only [hphase, Option.some.injEq] at h
      subst h
      exact ⟨ht, hs, hr, rfl, trivial⟩

theorem start_leaves (policy : RetryPolicy) (prompt : ℕ) (target : Option ℕ) (ht : Tidy rm)
    (hs : rm.slots.Perm others) (hr : rm.registry.Perm entries) :
    Leaves policy rm (.waiting prompt target) others entries
      (start rm prompt target) :=
  beginAttempt_leaves ht hs hr rfl rfl rfl

def Call.cancelling (c : Call ρ) : Bool :=
  match c.phase with
  | .committing d =>
    match d.stage with
    | .clear e => e.isCancelled
    | _ => false
  | _ => false

def Uncancelled : Progress (Call ρ) Outcome → Prop
  | .suspended c => c.cancelling = false
  | .returned _ => True
  | .raised e => e.isCancelled = false

def Answer.cancels : Answer ρ → Bool
  | .raise e => e.isCancelled
  | _ => false

theorem handle_uncancelled (policy : RetryPolicy) (rm : State ρ) (c : Call ρ) (g : GroupId)
    {error : Exc} (he : error.isCancelled = false) :
    Uncancelled (handle policy rm c g error).2 := by
  unfold handle
  split_ifs
  · unfold retry
    split_ifs
    · exact he
    · cases classifyRolloutFailure error with
      | infra =>
        simp only
        split_ifs
        · unfold exhausted
          simp only
          split_ifs
          · simp [Uncancelled, Exc.redispatchExhausted]
          · trivial
        · rfl
      | data =>
        simp only
        split_ifs
        · unfold dataExhausted
          simp only
          split_ifs
          · exact he
          · simp [Uncancelled, Exc.dataFailure]
          · trivial
        · rfl
  · exact he

theorem afterCommit_uncancelled {p : Plane ρ} {d : Commit ρ} {reply : Reply}
    (cfg : BufferConfig) (hd : ∀ e, d.stage = .clear e → e.isCancelled = false)
    (hr : ∀ e, reply = .raise e → e.isCancelled = false) :
    Uncancelled (resume.afterCommit policy rm c d (Commit.resume cfg p d reply)).2 := by
  have hfinish : ∀ (q : Plane ρ) m,
      Uncancelled (resume.afterCommit policy rm c d (Commit.finish q d m)).2 := by
    intro q m
    unfold Commit.finish
    cases q.buffer.index d.groupId with
    | none => simp [resume.afterCommit, Uncancelled, Call.cancelling, Exc.valueError]
    | some i => trivial
  unfold Commit.resume
  cases hstage : d.stage with
  | put =>
    cases reply with
    | ok =>
      cases cfg.enricherField with
      | none => exact hfinish _ _
      | some f => rfl
    | raise e => exact hr e rfl
  | enrich =>
    cases reply with
    | ok => exact hfinish _ _
    | raise e =>
      simp only [resume.afterCommit, Uncancelled, Call.cancelling]
      split_ifs
      · simp [Exc.postWriteEnrichment]
      · exact hr e rfl
  | clear err =>
    cases reply with
    | ok => exact handle_uncancelled _ _ _ _ (hd err hstage)
    | raise rb =>
      simp only [hd err hstage, Bool.false_eq_true, if_false]
      exact handle_uncancelled _ _ _ _ (isCancelled_group _)

theorem resume_uncancelled {cfg : BufferConfig} {answer : Answer ρ}
    {r : State ρ × Progress (Call ρ) Outcome}
    (h : resume cfg policy rm c answer = some r) (hc : c.cancelling = false)
    (ha : answer.cancels = false) : Uncancelled r.2 := by
  unfold resume at h
  cases hphase : c.phase with
  | rollout g v =>
    cases answer with
    | ok => simp [hphase] at h
    | raise e =>
      simp only [hphase, Option.some.injEq] at h
      subst h
      exact handle_uncancelled _ _ _ _ ha
    | record record =>
      simp only [hphase] at h
      cases hstart : Commit.start cfg (unregister rm g).plane g record v
          (unregister rm g).weightVersion with
      | suspended d =>
        obtain ⟨rfl, _, _⟩ := Commit.start_eq_suspended hstart
        simp only [hstart, Option.some.injEq] at h
        subst h
        rfl
      | returned m => exact absurd hstart Commit.start_ne_returned
      | raised e =>
        simp only [hstart, Option.some.injEq] at h
        subst h
        refine handle_uncancelled _ _ _ _ ?_
        unfold Commit.start at hstart
        split_ifs at hstart <;> obtain rfl := Progress.raised.inj hstart <;> rfl
  | committing d =>
    have hd : ∀ e, d.stage = .clear e → e.isCancelled = false := by
      intro e he
      simpa [Call.cancelling, hphase, he] using hc
    cases answer with
    | record record => simp [hphase] at h
    | ok =>
      simp only [hphase, Option.some.injEq] at h
      subst h
      exact afterCommit_uncancelled cfg hd (by simp)
    | raise e =>
      simp only [hphase, Option.some.injEq] at h
      subst h
      refine afterCommit_uncancelled cfg hd ?_
      rintro _ ⟨⟩
      exact ha
  | backoff =>
    cases answer with
    | record record => simp [hphase] at h
    | ok =>
      simp only [hphase, Option.some.injEq] at h
      subst h
      rfl
    | raise e =>
      simp only [hphase, Option.some.injEq] at h
      subst h
      exact ha

def readySlots (rm : State ρ) : List Slot := rm.slots.filter Slot.ready

def Owns (rm : State ρ) (held : List Slot) : Prop :=
  (rm.slots.filter fun x ↦ !x.ready).Perm held

def heldBy : Progress (Call ρ) Outcome → List Slot
  | .suspended c => c.held.toList
  | _ => []

def ReadyAfter (held : Option Slot) (before after : List Slot) :
    Progress (Call ρ) Outcome → Prop
  | .returned .committed => ∃ x m e, held = some x ∧ after.Perm (x.filled m e :: before)
  | _ => after.Perm before

theorem Call.ready_held {x : Slot} (h : c.held = some x) : x.ready = false := by
  unfold Call.held at h
  cases hphase : c.phase <;> simp only [hphase, Option.some.injEq, reduceCtorEq] at h
  · exact h ▸ rfl
  · exact h ▸ rfl

theorem Call.targetStep_held {x : Slot} (h : c.held = some x) : x.targetStep = c.target := by
  unfold Call.held at h
  cases hphase : c.phase <;> simp only [hphase, Option.some.injEq, reduceCtorEq] at h
  · exact h ▸ rfl
  · exact h ▸ rfl

theorem Owns.unready {held : List Slot} (ho : Owns rm held) : ∀ x ∈ held, x.ready = false :=
  fun x hx ↦ by
    have h := (List.mem_filter.mp (ho.mem_iff.mpr hx)).2
    simpa using h

theorem Owns.slots {held : List Slot} (ho : Owns rm held) :
    rm.slots.Perm (readySlots rm ++ held) :=
  ((List.filter_append_perm Slot.ready rm.slots).symm).trans (ho.append_left _)

theorem owns_of_slots (mine : List Slot) {others ready : List Slot}
    (hs : rm.slots.Perm (mine ++ (ready ++ others))) (hm : ∀ x ∈ mine, x.ready = false)
    (ho : ∀ x ∈ others, x.ready = false) (hr : ∀ x ∈ ready, x.ready = true) :
    Owns rm (mine ++ others) ∧ (readySlots rm).Perm ready := by
  have hm₁ : mine.filter Slot.ready = [] := List.filter_eq_nil_iff.mpr fun x hx ↦ by simp [hm x hx]
  have ho₁ : others.filter Slot.ready = [] :=
    List.filter_eq_nil_iff.mpr fun x hx ↦ by simp [ho x hx]
  have hr₁ : ready.filter Slot.ready = ready := List.filter_eq_self.mpr hr
  have hm₂ : mine.filter (fun x ↦ !x.ready) = mine :=
    List.filter_eq_self.mpr fun x hx ↦ by simp [hm x hx]
  have ho₂ : others.filter (fun x ↦ !x.ready) = others :=
    List.filter_eq_self.mpr fun x hx ↦ by simp [ho x hx]
  have hr₂ : ready.filter (fun x ↦ !x.ready) = [] :=
    List.filter_eq_nil_iff.mpr fun x hx ↦ by simp [hr x hx]
  constructor
  · have h := hs.filter fun x ↦ !x.ready
    simpa [Owns, List.filter_append, hm₂, ho₂, hr₂] using h
  · have h := hs.filter Slot.ready
    simpa [readySlots, List.filter_append, hm₁, ho₁, hr₁] using h

theorem Owns.of_leaves {rest : List Slot} {r : State ρ × Progress (Call ρ) Outcome}
    (hrest : ∀ x ∈ rest, x.ready = false)
    (h : Leaves policy rm c (readySlots rm ++ rest) entries r) :
    Owns r.1 (heldBy r.2 ++ rest) ∧ ReadyAfter c.held (readySlots rm) (readySlots r.1) r.2 := by
  have hready : ∀ x ∈ readySlots rm, x.ready = true := fun x hx ↦ (List.mem_filter.mp hx).2
  obtain ⟨rm', r⟩ := r
  have hs := h.slots
  cases r with
  | suspended c' =>
    refine owns_of_slots _ hs (fun x hx ↦ ?_) hrest hready
    exact Call.ready_held (Option.mem_toList.mp hx)
  | raised e => exact owns_of_slots [] hs (by simp) hrest hready
  | returned o =>
    cases o with
    | skipped budget => exact owns_of_slots [] hs (by simp) hrest hready
    | committed =>
      obtain ⟨x, m, e, hx, hperm⟩ := hs
      have hfilled : ∀ y ∈ x.filled m e :: readySlots rm, y.ready = true := by
        intro y hy
        rcases List.mem_cons.mp hy with rfl | hy
        · rfl
        · exact hready y hy
      obtain ⟨h₁, h₂⟩ := owns_of_slots [] hperm (by simp) hrest hfilled
      exact ⟨h₁, x, m, e, hx, h₂⟩

theorem Owns.resume {cfg : BufferConfig} {answer : Answer ρ} {held rest : List Slot}
    {r : State ρ × Progress (Call ρ) Outcome} (ho : Owns rm held) (ht : Tidy rm)
    (hheld : held.Perm (c.held.toList ++ rest))
    (hr : rm.registry.Perm (c.registered.toList ++ entries))
    (h : RolloutManager.resume cfg policy rm c answer = some r) :
    Leaves policy rm c (readySlots rm ++ rest) entries r ∧ Owns r.1 (heldBy r.2 ++ rest) ∧
      ReadyAfter c.held (readySlots rm) (readySlots r.1) r.2 := by
  have hslots : rm.slots.Perm (c.held.toList ++ (readySlots rm ++ rest)) := by
    refine ho.slots.trans ((hheld.append_left _).trans ?_)
    rw [← List.append_assoc, ← List.append_assoc]
    exact List.perm_append_comm.append_right _
  have hleaves := resume_leaves ht hslots hr h
  refine ⟨hleaves, Owns.of_leaves (fun x hx ↦ ho.unready x ?_) hleaves⟩
  exact hheld.mem_iff.mpr (List.mem_append_right _ hx)

theorem Owns.start (policy : RetryPolicy) (prompt : ℕ) (target : Option ℕ) {held : List Slot}
    (ho : Owns rm held) (ht : Tidy rm) (hr : rm.registry.Perm entries) :
    Leaves policy rm (.waiting prompt target) (readySlots rm ++ held) entries
        (RolloutManager.start rm prompt target) ∧
      Owns (RolloutManager.start rm prompt target).1
        (heldBy (RolloutManager.start rm prompt target).2 ++ held) ∧
      (readySlots (RolloutManager.start rm prompt target).1).Perm (readySlots rm) := by
  have hleaves := start_leaves policy prompt target ht ho.slots hr
  obtain ⟨h₁, h₂⟩ := Owns.of_leaves ho.unready hleaves
  exact ⟨hleaves, h₁, h₂⟩

def withBuffer (rm : State ρ) (b : TQReplayBuffer) : State ρ := { rm with plane.buffer := b }

theorem tidy_withBuffer {b : TQReplayBuffer} (ht : Tidy rm) {gone : List Slot}
    (h : (rm.slots.map Slot.groupId).Perm ((gone ++ b.slots).map Slot.groupId)) :
    Tidy (withBuffer rm b) := by
  have hnd := h.nodup_iff.mp ht.slots_nodup
  rw [List.map_append] at hnd h
  refine ⟨hnd.of_append_right, fun x hx ↦ ?_, ht.registry_nodup, ht.registry_old⟩
  obtain ⟨y, hy, hyx⟩ := List.mem_map.mp
    (h.mem_iff.mpr (List.mem_append_right _ (List.mem_map_of_mem hx)))
  rw [← hyx]
  exact ht.slots_old y hy

theorem Owns.removeReady {held : List Slot} {idxs : List ℕ} {b : TQReplayBuffer}
    {ids : List SampleId} (ho : Owns rm held) (ht : Tidy rm) (hnd : idxs.Nodup)
    (hready : ∀ x ∈ entriesAt rm.slots idxs, x.ready = true)
    (h : rm.plane.buffer.remove idxs = (b, some ids)) :
    Tidy (withBuffer rm b) ∧ Owns (withBuffer rm b) held ∧
      (readySlots rm).Perm (entriesAt rm.slots idxs ++ readySlots (withBuffer rm b)) := by
  have hi := TQReplayBuffer.lt_size_of_remove (congrArg Prod.snd h)
  have hb := (TQReplayBuffer.remove_spec hnd hi).1
  rw [h] at hb
  have hp : rm.slots.Perm (entriesAt rm.slots idxs ++ b.slots) := by
    rw [hb]
    exact dropAll_perm hnd fun i hmem ↦ TQReplayBuffer.length_slots _ ▸ hi i hmem
  have h₁ : (entriesAt rm.slots idxs).filter Slot.ready = entriesAt rm.slots idxs :=
    List.filter_eq_self.mpr hready
  have h₂ : (entriesAt rm.slots idxs).filter (fun x ↦ !x.ready) = [] :=
    List.filter_eq_nil_iff.mpr fun x hx ↦ by simp [hready x hx]
  refine ⟨tidy_withBuffer ht (hp.map _), ?_, ?_⟩
  · have h := hp.filter fun x ↦ !x.ready
    rw [List.filter_append, h₂, List.nil_append] at h
    exact h.symm.trans ho
  · have h := hp.filter Slot.ready
    rw [List.filter_append, h₁] at h
    exact h

theorem Owns.promote {held : List Slot} {t lent : ℕ} (ho : Owns rm held) (ht : Tidy rm)
    (h : (rm.plane.buffer.promoteReadyGroup t).2 = some lent) :
    Tidy (withBuffer rm (rm.plane.buffer.promoteReadyGroup t).1) ∧
    Owns (withBuffer rm (rm.plane.buffer.promoteReadyGroup t).1) held ∧
    ∃ x rest, TQReplayBuffer.Lends t x lent ∧ (readySlots rm).Perm (x :: rest) ∧
      (readySlots (withBuffer rm (rm.plane.buffer.promoteReadyGroup t).1)).Perm
        (x.restamped t :: rest) := by
  obtain ⟨i, x, hx, hlend, _, hslots⟩ := TQReplayBuffer.promoteReadyGroup_eq_some h
  have hbefore := perm_cons_eraseIdx hx
  have hafter := set_perm hx (x.restamped t)
  rw [← hslots] at hafter
  have hready : x.ready = true := hlend.1
  have hready' : (x.restamped t).ready = true := hready
  have hids : (rm.slots.map Slot.groupId).Perm
      (([] ++ (rm.plane.buffer.promoteReadyGroup t).1.slots).map Slot.groupId) :=
    (hbefore.map Slot.groupId).trans (hafter.map Slot.groupId).symm
  refine ⟨tidy_withBuffer ht hids, ?_, x, (rm.slots.eraseIdx i).filter Slot.ready, hlend,
    ?_, ?_⟩
  · have h₁ := hbefore.filter fun y ↦ !y.ready
    have h₂ := hafter.filter fun y ↦ !y.ready
    simp only [List.filter_cons, hready, hready', Bool.not_true, Bool.false_eq_true,
      if_false] at h₁ h₂
    exact h₂.trans (h₁.symm.trans ho)
  · have h₁ := hbefore.filter Slot.ready
    simp only [List.filter_cons, hready, if_true] at h₁
    exact h₁
  · have h₂ := hafter.filter Slot.ready
    simp only [List.filter_cons, hready', if_true] at h₂
    exact h₂

theorem Owns.appendReady {held : List Slot} {x : Slot} (ho : Owns rm held) (ht : Tidy rm)
    (hx : x.ready = true) (hnew : ∀ y ∈ rm.slots, y.groupId ≠ x.groupId)
    (hold : x.groupId.serial < rm.nextSerial) :
    Tidy (withBuffer rm (rm.plane.buffer.append x)) ∧
    Owns (withBuffer rm (rm.plane.buffer.append x)) held ∧
    (readySlots (withBuffer rm (rm.plane.buffer.append x))).Perm (x :: readySlots rm) := by
  have hslots : (withBuffer rm (rm.plane.buffer.append x)).slots = rm.slots ++ [x] :=
    TQReplayBuffer.slots_append _ _
  refine ⟨⟨?_, ?_, ht.registry_nodup, ht.registry_old⟩, ?_, ?_⟩
  · rw [hslots, List.map_append]
    refine List.nodup_append.mpr ⟨ht.slots_nodup, by simp, fun g hg h hh ↦ ?_⟩
    obtain ⟨y, hy, rfl⟩ := List.mem_map.mp hg
    obtain rfl : h = x.groupId := by simpa using hh
    exact hnew y hy
  · intro y hy
    rw [hslots] at hy
    rcases List.mem_append.mp hy with hy | hy
    · exact ht.slots_old y hy
    · obtain rfl : y = x := by simpa using hy
      exact hold
  · have hnone : [x].filter (fun y ↦ !y.ready) = [] := by simp [hx]
    rw [Owns, hslots, List.filter_append, hnone, List.append_nil]
    exact ho
  · have hself : [x].filter Slot.ready = [x] := by simp [hx]
    rw [readySlots, hslots, List.filter_append, hself]
    exact List.perm_append_comm

end NemoRL.Experience.RolloutManager
