import Mathlib
import NemoRL.AsyncUtils.TrajectoryCollector

namespace NemoRL.AsyncUtils.TrajectoryCollector

open Experience Foundations.Positions Foundations.Transition

variable {s t : CollectBatch} {task : ℕ} {push : Push} {phase : PushPhase}

/-- What the push tasks and the answers of `add` keep of the groups. -/
structure CollectBatch.Accounts (s : CollectBatch) : Prop where
  nodup : s.added.Nodup
  buffered : ∀ g, g ∈ s.bufferedGroupIndices ↔ g ∈ s.added
  expected : ∀ g ∈ s.added, g < s.expectedPromptGroups
  distinct : (s.pushTasks.map Push.groupIndex).Nodup
  scheduled : ∀ push ∈ s.pushTasks,
    push.groupIndex ∈ s.scheduledGroupIndices ∧ push.groupIndex < s.expectedPromptGroups
  fresh : ∀ push ∈ s.pushTasks, push.phase = .buffered ∨ push.groupIndex ∉ s.bufferedGroupIndices

def CollectPhase.Active : CollectPhase → Prop
  | streaming | gathering _ => True
  | sleeping | returned | raised .. => False

/-- Where an attempt is beside how many there were, and what the end of the last one says. -/
structure CollectBatch.Phased (s : CollectBatch) : Prop where
  attempts : s.attempt ≤ s.maxAttempts
  settled : ¬ s.phase.Active → ∀ push ∈ s.pushTasks, push.phase.isDone = true
  sleeping : s.phase = .sleeping → s.attempt < s.maxAttempts
  returned : s.phase = .returned → s.pendingGroupIndices = []
  raised : ∀ missing error, s.phase = .raised missing error →
    missing = s.pendingGroupIndices ∧ missing ≠ []

namespace CollectBatch

theorem mem_setPush (h : s.pushTasks[task]? = some push) {x : Push}
    (hx : x ∈ (s.setPush task push phase).pushTasks) :
    x = { push with phase := phase } ∨ x ∈ s.pushTasks.eraseIdx task :=
  List.mem_cons.mp ((set_perm h _).mem_iff.mp hx)

theorem map_groupIndex_setPush (h : s.pushTasks[task]? = some push) :
    (s.setPush task push phase).pushTasks.map Push.groupIndex =
      s.pushTasks.map Push.groupIndex :=
  map_set_of_eq Push.groupIndex h { push with phase := phase } rfl

theorem Accounts.groupIndex_ne (h : s.Accounts) (hp : s.pushTasks[task]? = some push) {x : Push}
    (hx : x ∈ s.pushTasks.eraseIdx task) : x.groupIndex ≠ push.groupIndex := by
  have hnd := ((perm_cons_eraseIdx hp).map Push.groupIndex).nodup_iff.mp h.distinct
  rw [List.map_cons, List.nodup_cons] at hnd
  intro heq
  exact hnd.1 (List.mem_map.mpr ⟨x, hx, heq⟩)

theorem Accounts.setPush (h : s.Accounts) (hp : s.pushTasks[task]? = some push)
    (hf : push.groupIndex ∉ s.bufferedGroupIndices) : (s.setPush task push phase).Accounts where
  nodup := h.nodup
  buffered := h.buffered
  expected := h.expected
  distinct := by
    rw [map_groupIndex_setPush hp]
    exact h.distinct
  scheduled x hx := by
    rcases mem_setPush hp hx with rfl | hx
    · exact h.scheduled push (List.mem_of_getElem? hp)
    · exact h.scheduled x (List.mem_of_mem_eraseIdx hx)
  fresh x hx := by
    rcases mem_setPush hp hx with rfl | hx
    · exact .inr hf
    · exact h.fresh x (List.mem_of_mem_eraseIdx hx)

theorem Accounts.success (h : s.Accounts) (hp : s.pushTasks[task]? = some push)
    (hf : push.groupIndex ∉ s.bufferedGroupIndices) :
    (s.answered task push .success).Accounts where
  nodup := by
    refine h.nodup.append (List.nodup_singleton _) ?_
    rw [List.disjoint_singleton]
    exact fun hmem ↦ hf ((h.buffered _).mpr hmem)
  buffered g := by
    show g ∈ insert push.groupIndex s.bufferedGroupIndices ↔ g ∈ s.added ++ [push.groupIndex]
    rw [Finset.mem_insert, List.mem_append, List.mem_singleton, h.buffered, or_comm]
  expected g hg := by
    rcases List.mem_append.mp hg with hg | hg
    · exact h.expected g hg
    · rw [List.mem_singleton.mp hg]
      exact (h.scheduled push (List.mem_of_getElem? hp)).2
  distinct := (h.setPush hp hf).distinct
  scheduled := (h.setPush hp hf).scheduled
  fresh x hx := by
    rcases mem_setPush hp hx with rfl | hx
    · exact .inl rfl
    · refine (h.fresh x (List.mem_of_mem_eraseIdx hx)).imp_right fun hne ↦ ?_
      intro hmem
      rcases Finset.mem_insert.mp hmem with heq | hmem
      · exact h.groupIndex_ne hp hx heq
      · exact hne hmem

theorem Accounts.answered (h : s.Accounts) (hp : s.pushTasks[task]? = some push)
    (hf : push.groupIndex ∉ s.bufferedGroupIndices) (answer : AddAnswer) :
    (s.answered task push answer).Accounts := by
  cases answer with
  | success => exact h.success hp hf
  | full => exact h.setPush hp hf
  | other status => exact h.setPush hp hf
  | error error => exact h.setPush hp hf

theorem Accounts.of_phase (h : s.Accounts) (phase : CollectPhase) :
    ({ s with phase := phase } : CollectBatch).Accounts :=
  ⟨h.nodup, h.buffered, h.expected, h.distinct, h.scheduled, h.fresh⟩

theorem Accounts.receive (h : s.Accounts) (groupIndex : ℤ) (size : ℕ) :
    (s.receive groupIndex size).Accounts := by
  unfold CollectBatch.receive
  split_ifs with hexpected hsize hbuffered hscheduled
  · exact h.of_phase _
  · exact h
  · exact h.of_phase _
  · refine ⟨h.nodup, h.buffered, h.expected, ?_, fun x hx ↦ ?_, fun x hx ↦ ?_⟩
    · rw [List.map_append]
      refine h.distinct.append (List.nodup_singleton _) ?_
      rw [List.map_singleton, List.disjoint_singleton]
      intro hmem
      obtain ⟨x, hx, heq⟩ := List.mem_map.mp hmem
      have := (h.scheduled x hx).1
      rw [heq] at this
      exact hscheduled this
    · rcases List.mem_append.mp hx with hx | hx
      · exact ⟨Finset.mem_insert_of_mem (h.scheduled x hx).1, (h.scheduled x hx).2⟩
      · rw [List.mem_singleton.mp hx]
        refine ⟨Finset.mem_insert_self _ _, ?_⟩
        show groupIndex.toNat < s.expectedPromptGroups
        omega
    · rcases List.mem_append.mp hx with hx | hx
      · exact h.fresh x hx
      · rw [List.mem_singleton.mp hx]
        exact .inr hbuffered
  · exact h.of_phase _

theorem Accounts.finish (h : s.Accounts) (streamError : Option CollectError) :
    (s.finish streamError).Accounts := by
  unfold CollectBatch.finish
  simp only
  split_ifs
  · exact h.of_phase _
  · exact h.of_phase _
  · exact h.of_phase _

/-- A task that waits for something pushes a group that is not buffered. -/
theorem Accounts.not_mem_of_waits (h : s.Accounts) (hp : s.pushTasks[task]? = some push)
    (hw : push.phase.isDone = false) : push.groupIndex ∉ s.bufferedGroupIndices := by
  refine (h.fresh push (List.mem_of_getElem? hp)).resolve_left fun hphase ↦ ?_
  rw [hphase] at hw
  cases hw

inductive Moves (s : CollectBatch) : CollectBatch → Prop
  | received (hs : s.phase = .streaming) (groupIndex : ℤ) (size : ℕ) :
      Moves s (s.receive groupIndex size)
  | ended (hs : s.phase = .streaming) (error : Option CollectError) :
      Moves s { s with phase := .gathering error }
  | pushed {task : ℕ} {push : Push} (hp : s.pushTasks[task]? = some push)
      (hw : push.phase.isDone = false) (phase : PushPhase) : Moves s (s.setPush task push phase)
  | answered {task : ℕ} {push : Push} (hp : s.pushTasks[task]? = some push)
      (hw : push.phase.isDone = false) (answer : AddAnswer) : Moves s (s.answered task push answer)
  | stopped : Moves s { s with running := false }
  | finished {error : Option CollectError} (hs : s.phase = .gathering error)
      (hd : ∀ push ∈ s.pushTasks, push.phase.isDone = true) : Moves s (s.finish error)
  | restarted (hs : s.phase = .sleeping) :
      Moves s { s with
        attempt := s.attempt + 1
        pushTasks := []
        scheduledGroupIndices := ∅
        phase := .streaming }

theorem moves_of_step {e : CollectEvent} (h : s.step e = some t) : Moves s t := by
  cases e with
  | yielded groupIndex size =>
    simp only [step] at h
    split at h
    · obtain rfl := Option.some.inj h
      exact .received ‹_› _ _
    · cases h
  | streamError error =>
    simp only [step] at h
    split at h
    · obtain rfl := Option.some.inj h
      exact .ended ‹_› _
    · cases h
  | streamEnd =>
    simp only [step] at h
    split at h
    · obtain rfl := Option.some.inj h
      exact .ended ‹_› _
    · cases h
  | submit task =>
    simp only [step] at h
    split at h
    · obtain rfl := Option.some.inj h
      exact .pushed ‹_› rfl _
    · cases h
  | prepareError task error =>
    simp only [step] at h
    split at h
    · obtain rfl := Option.some.inj h
      exact .pushed ‹_› rfl _
    · cases h
  | answer task answer =>
    simp only [step] at h
    split at h
    · obtain rfl := Option.some.inj h
      exact .answered ‹_› rfl _
    · cases h
  | stop =>
    obtain rfl := Option.some.inj h
    exact .stopped
  | gathered =>
    simp only [step] at h
    split at h
    · split_ifs at h with hd
      obtain rfl := Option.some.inj h
      exact .finished ‹_› (List.all_eq_true.mp hd)
    · cases h
  | awake =>
    simp only [step] at h
    split at h
    · obtain rfl := Option.some.inj h
      exact .restarted ‹_›
    · cases h

theorem Accounts.moves (h : s.Accounts) (hm : Moves s t) : t.Accounts := by
  cases hm with
  | received _ groupIndex size => exact h.receive groupIndex size
  | ended _ error => exact h.of_phase _
  | pushed hp hw phase => exact h.setPush hp (h.not_mem_of_waits hp hw)
  | answered hp hw answer => exact h.answered hp (h.not_mem_of_waits hp hw) answer
  | stopped => exact ⟨h.nodup, h.buffered, h.expected, h.distinct, h.scheduled, h.fresh⟩
  | finished _ _ => exact h.finish _
  | restarted _ =>
    -- the tasks of the last attempt are gone, what they added stays
    exact ⟨h.nodup, h.buffered, h.expected, List.nodup_nil, fun x hx ↦ (List.not_mem_nil hx).elim,
      fun x hx ↦ (List.not_mem_nil hx).elim⟩

theorem Phased.of_active (hs : s.phase.Active) (ha : s.attempt ≤ s.maxAttempts) : s.Phased := by
  refine ⟨ha, fun hn ↦ absurd hs hn, fun hphase ↦ ?_, fun hphase ↦ ?_, fun missing error hphase ↦ ?_⟩
  all_goals
    rw [hphase] at hs
    exact hs.elim

theorem Phased.active (h : s.Phased) (hp : s.pushTasks[task]? = some push)
    (hw : push.phase.isDone = false) : s.phase.Active := by
  by_contra hn
  have hd := h.settled hn push (List.mem_of_getElem? hp)
  rw [hw] at hd
  cases hd

theorem Phased.finish (h : s.Phased) (hd : ∀ push ∈ s.pushTasks, push.phase.isDone = true)
    (error : Option CollectError) : (s.finish error).Phased := by
  unfold CollectBatch.finish
  simp only
  split_ifs with hpending hlast
  · refine ⟨h.attempts, fun _ ↦ hd, fun hphase ↦ ?_, fun _ ↦ hpending, fun _ _ hphase ↦ ?_⟩
    · cases hphase
    · cases hphase
  · refine ⟨h.attempts, fun _ ↦ hd, fun hphase ↦ ?_, fun hphase ↦ ?_, fun _ _ hphase ↦ ?_⟩
    · cases hphase
    · cases hphase
    · obtain ⟨rfl, -⟩ := CollectPhase.raised.inj hphase
      exact ⟨rfl, hpending⟩
  · refine ⟨h.attempts, fun _ ↦ hd, fun _ ↦ ?_, fun hphase ↦ ?_, fun _ _ hphase ↦ ?_⟩
    · have := h.attempts
      show s.attempt < s.maxAttempts
      omega
    · cases hphase
    · cases hphase

theorem phase_answered (task : ℕ) (push : Push) (answer : AddAnswer) :
    (s.answered task push answer).phase = s.phase ∧
      (s.answered task push answer).attempt = s.attempt ∧
      (s.answered task push answer).maxAttempts = s.maxAttempts := by
  cases answer <;> exact ⟨rfl, rfl, rfl⟩

theorem Phased.receive (h : s.Phased) (hs : s.phase = .streaming) (groupIndex : ℤ) (size : ℕ) :
    (s.receive groupIndex size).Phased := by
  unfold CollectBatch.receive
  split_ifs
  · exact .of_active trivial h.attempts
  · exact h
  · exact .of_active trivial h.attempts
  · exact .of_active (by rw [hs]; trivial) h.attempts
  · exact .of_active trivial h.attempts

theorem Phased.moves (h : s.Phased) (hm : Moves s t) : t.Phased := by
  cases hm with
  | received hs groupIndex size => exact h.receive hs groupIndex size
  | ended _ error => exact .of_active trivial h.attempts
  | pushed hp hw phase => exact .of_active (h.active hp hw) h.attempts
  | @answered task push hp hw answer =>
    obtain ⟨hphase, hattempt, hmax⟩ := phase_answered (s := s) task push answer
    refine .of_active ?_ ?_
    · rw [hphase]
      exact h.active hp hw
    · rw [hattempt, hmax]
      exact h.attempts
  | stopped => exact ⟨h.attempts, h.settled, h.sleeping, h.returned, h.raised⟩
  | finished _ hd => exact h.finish hd _
  | restarted hs => exact .of_active trivial (h.sleeping hs)

theorem moves_constants (hm : Moves s t) :
    t.expectedPromptGroups = s.expectedPromptGroups ∧ t.maxAttempts = s.maxAttempts := by
  cases hm with
  | received _ groupIndex size =>
    unfold CollectBatch.receive
    split_ifs <;> exact ⟨rfl, rfl⟩
  | ended _ error => exact ⟨rfl, rfl⟩
  | pushed _ _ phase => exact ⟨rfl, rfl⟩
  | answered _ _ answer => cases answer <;> exact ⟨rfl, rfl⟩
  | stopped => exact ⟨rfl, rfl⟩
  | finished _ _ =>
    unfold CollectBatch.finish
    simp only
    split_ifs <;> exact ⟨rfl, rfl⟩
  | restarted _ => exact ⟨rfl, rfl⟩

theorem mem_pendingGroupIndices (h : s.Accounts) {g : ℕ} :
    g ∈ s.pendingGroupIndices ↔ g < s.expectedPromptGroups ∧ g ∉ s.added := by
  rw [pendingGroupIndices, List.mem_filter, List.mem_range, decide_eq_true_iff, h.buffered]

theorem pendingGroupIndices_eq_nil (h : s.Accounts) :
    s.pendingGroupIndices = [] ↔ ∀ g < s.expectedPromptGroups, g ∈ s.added := by
  rw [List.eq_nil_iff_forall_not_mem]
  refine forall_congr' fun g ↦ ?_
  rw [mem_pendingGroupIndices h, not_and, not_not]

/-- A batch that is not over waits for the stream, a task or its delay. -/
theorem exists_step (hactive : s.phase ≠ .returned)
    (hraised : ∀ missing error, s.phase ≠ .raised missing error) :
    ∃ e, e ≠ .stop ∧ (s.step e).isSome := by
  rcases hphase : s.phase with _ | error | _ | _ | ⟨missing, error⟩
  · refine ⟨.streamEnd, CollectEvent.noConfusion, ?_⟩
    simp only [step, hphase, Option.isSome_some]
  · by_cases hd : (s.pushTasks.all fun push ↦ push.phase.isDone) = true
    · refine ⟨.gathered, CollectEvent.noConfusion, ?_⟩
      simp only [step, hphase, hd, if_true, Option.isSome_some]
    · obtain ⟨push, hmem, hw⟩ := List.all_eq_false.mp (eq_false_of_ne_true hd)
      obtain ⟨task, hp⟩ := List.mem_iff_getElem?.mp hmem
      obtain ⟨g, phase⟩ := push
      cases phase with
      | waiting =>
        refine ⟨.submit task, CollectEvent.noConfusion, ?_⟩
        simp only [step, hp, Option.isSome_some]
      | adding =>
        refine ⟨.answer task .full, CollectEvent.noConfusion, ?_⟩
        simp only [step, hp, Option.isSome_some]
      | buffered => exact absurd rfl hw
      | failed error => exact absurd rfl hw
  · refine ⟨.awake, CollectEvent.noConfusion, ?_⟩
    simp only [step, hphase, Option.isSome_some]
  · exact absurd hphase hactive
  · exact absurd hphase (hraised missing error)

theorem finish_cases (h : s.Accounts) (error : Option CollectError) :
    (s.finish error).added = s.added ∧
      ((s.finish error).phase = .returned ↔ ∀ g < s.expectedPromptGroups, g ∈ s.added) ∧
      ((∃ g < s.expectedPromptGroups, g ∉ s.added) → s.attempt = s.maxAttempts →
        ∃ lastError, (s.finish error).phase = .raised s.pendingGroupIndices lastError) := by
  rw [← pendingGroupIndices_eq_nil h]
  unfold CollectBatch.finish
  simp only
  split_ifs with hpending hlast
  · refine ⟨rfl, iff_of_true rfl hpending, ?_⟩
    rintro ⟨g, hg, hmem⟩
    exact absurd ((pendingGroupIndices_eq_nil h).mp hpending g hg) hmem
  · exact ⟨rfl, iff_of_false id hpending, fun _ _ ↦ ⟨_, rfl⟩⟩
  · refine ⟨rfl, iff_of_false id hpending, fun _ hmax ↦ ?_⟩
    exact absurd (.inl hmax) hlast

end CollectBatch

section Start

variable {size : ℕ} {numGenerations : ℤ} {useNemoGym : Bool} {taskIndices : List (Option ℤ)}
  {s₀ : CollectBatch}

theorem CollectBatch.accounts_of_empty {s : CollectBatch} (hadded : s.added = [])
    (hbuffered : s.bufferedGroupIndices = ∅) (htasks : s.pushTasks = []) : s.Accounts := by
  refine ⟨?_, fun g ↦ ?_, ?_, ?_, ?_, ?_⟩
  · rw [hadded]
    exact List.nodup_nil
  · simp only [hbuffered, hadded, Finset.notMem_empty, List.not_mem_nil]
  · simp only [hadded, List.not_mem_nil, false_implies, implies_true]
  · rw [htasks]
    exact List.nodup_nil
  · simp only [htasks, List.not_mem_nil, false_implies, implies_true]
  · simp only [htasks, List.not_mem_nil, false_implies, implies_true]

theorem CollectBatch.start_eq_ok
    (h : CollectBatch.start size numGenerations useNemoGym taskIndices = .ok s₀) :
    s₀.Accounts ∧ s₀.Phased ∧ s₀.expectedPromptGroups = size / numGenerations.toNat ∧
      s₀.maxAttempts = 1 + if useNemoGym then maxNemoGymStreamRetries else 0 := by
  unfold CollectBatch.start at h
  split_ifs at h with hsize hgym
  · cases hmap : buildTaskIndexMap taskIndices numGenerations.toNat
      (size / numGenerations.toNat) with
    | error error =>
      simp only [hmap] at h
      cases h
    | ok map =>
      simp only [hmap] at h
      obtain rfl := Except.ok.inj h
      exact ⟨CollectBatch.accounts_of_empty rfl rfl rfl, .of_active trivial (Nat.le_add_right 1 _), rfl, by
        rw [if_pos hgym]⟩
  · obtain rfl := Except.ok.inj h
    exact ⟨CollectBatch.accounts_of_empty rfl rfl rfl, .of_active trivial (Nat.le_add_right 1 _), rfl, by
      rw [if_neg hgym]⟩

theorem CollectBatch.accounts_of_reachable {s : CollectBatch}
    (hstart : CollectBatch.start size numGenerations useNemoGym taskIndices = .ok s₀)
    (h : Reachable CollectBatch.step (· = s₀) s) :
    s.Accounts ∧ s.Phased ∧ s.expectedPromptGroups = size / numGenerations.toNat ∧
      s.maxAttempts = 1 + if useNemoGym then maxNemoGymStreamRetries else 0 := by
  refine h.invariant (I := fun s : CollectBatch ↦ s.Accounts ∧ s.Phased ∧
    s.expectedPromptGroups = size / numGenerations.toNat ∧
      s.maxAttempts = 1 + if useNemoGym then maxNemoGymStreamRetries else 0) ?_ ?_
  · rintro s rfl
    exact CollectBatch.start_eq_ok hstart
  · rintro s e t ⟨haccounts, hphased, hexpected, hmax⟩ - hstep
    have hm := CollectBatch.moves_of_step hstep
    obtain ⟨hexpected', hmax'⟩ := CollectBatch.moves_constants hm
    exact ⟨haccounts.moves hm, hphased.moves hm, hexpected'.trans hexpected, hmax'.trans hmax⟩

/-- Every group is buffered at most once, and the batch returns when all of them are. -/
theorem collect_rollout_batch {s : CollectBatch}
    (hstart : CollectBatch.start size numGenerations useNemoGym taskIndices = .ok s₀)
    (h : Reachable CollectBatch.step (· = s₀) s) :
    s.added.Nodup ∧ (∀ g ∈ s.added, g < size / numGenerations.toNat) ∧
      (∀ push ∈ s.pushTasks, push.phase ≠ .buffered → push.groupIndex ∉ s.added) ∧
      (s.attempt ≤ 1 + if useNemoGym then maxNemoGymStreamRetries else 0) ∧
      (∀ t, s.step .gathered = some t → t.added = s.added ∧
        (t.phase = .returned ↔ ∀ g < size / numGenerations.toNat, g ∈ s.added) ∧
        ((∃ g < size / numGenerations.toNat, g ∉ s.added) →
          (s.attempt = 1 + if useNemoGym then maxNemoGymStreamRetries else 0) →
          ∃ missing error, t.phase = .raised missing error)) ∧
      (s.phase = .returned → ∀ g < size / numGenerations.toNat, g ∈ s.added) ∧
      (∀ missing error, s.phase = .raised missing error → missing ≠ [] ∧
        ∀ g, g ∈ missing ↔ g < size / numGenerations.toNat ∧ g ∉ s.added) ∧
      (s.phase ≠ .returned → (∀ missing error, s.phase ≠ .raised missing error) →
        ∃ e, e ≠ .stop ∧ (s.step e).isSome) := by
  obtain ⟨haccounts, hphased, hexpected, hmax⟩ := CollectBatch.accounts_of_reachable hstart h
  rw [← hexpected, ← hmax]
  refine ⟨haccounts.nodup, haccounts.expected, fun push hpush hphase ↦ ?_, hphased.attempts,
    fun t ht ↦ ?_, fun hphase ↦ ?_, fun missing error hphase ↦ ?_, CollectBatch.exists_step⟩
  · rw [← haccounts.buffered]
    exact (haccounts.fresh push hpush).resolve_left hphase
  · simp only [CollectBatch.step] at ht
    split at ht
    · split_ifs at ht
      obtain rfl := Option.some.inj ht
      obtain ⟨hadded, hreturned, hraised⟩ := CollectBatch.finish_cases haccounts _
      refine ⟨hadded, hreturned, fun hmissing hlast ↦ ?_⟩
      obtain ⟨lastError, hphase⟩ := hraised hmissing hlast
      exact ⟨_, lastError, hphase⟩
    · cases ht
  · exact (CollectBatch.pendingGroupIndices_eq_nil haccounts).mp (hphased.returned hphase)
  · obtain ⟨rfl, hne⟩ := hphased.raised missing error hphase
    exact ⟨hne, fun g ↦ CollectBatch.mem_pendingGroupIndices haccounts⟩

/-- One retry: the first group is answered `full` and streamed again in both attempts. -/
theorem collect_rollout_batch_retried : ∃ s₀ s₁ s,
    CollectBatch.start 4 2 true [some 7, some 7, some 9, some 9] = .ok s₀ ∧
      exec CollectBatch.step s₀ [.yielded 0 2, .submit 0, .answer 0 .full, .submit 0,
        .yielded 0 2, .answer 0 .success, .gathered, .awake] = some s₁ ∧
      exec CollectBatch.step s₁ [.yielded 0 2, .yielded 1 2, .submit 0, .streamEnd,
        .answer 0 .success, .gathered] = some s ∧
      s.phase = .returned ∧ s.added = [0, 1] ∧ ∀ g < 4 / (2 : ℤ).toNat, g ∈ s.added := by
  let s₀ : CollectBatch := ⟨2, 2, 4, true, 1, [], ∅, ∅, .streaming, []⟩
  let s₁ : CollectBatch := ⟨2, 2, 4, true, 2, [], ∅, insert 0 ∅, .streaming, [0]⟩
  let s : CollectBatch :=
    ⟨2, 2, 4, true, 2, [⟨1, .buffered⟩], insert 1 ∅, insert 1 (insert 0 ∅), .returned, [0, 1]⟩
  have hstart : CollectBatch.start 4 2 true [some 7, some 7, some 9, some 9] = .ok s₀ := rfl
  have hfirst : exec CollectBatch.step s₀ [.yielded 0 2, .submit 0, .answer 0 .full, .submit 0,
      .yielded 0 2, .answer 0 .success, .gathered, .awake] = some s₁ := rfl
  have hsecond : exec CollectBatch.step s₁ [.yielded 0 2, .yielded 1 2, .submit 0, .streamEnd,
      .answer 0 .success, .gathered] = some s := rfl
  have hinit : Reachable CollectBatch.step (· = s₀) s₀ := .init rfl
  have hreach := ReachableBy.exec (ReachableBy.exec hinit _ hfirst) _ hsecond
  obtain ⟨-, -, -, -, -, hreturned, -⟩ := collect_rollout_batch hstart hreach
  exact ⟨s₀, s₁, s, hstart, hfirst, hsecond, rfl, rfl, hreturned rfl⟩

end Start

end NemoRL.AsyncUtils.TrajectoryCollector
