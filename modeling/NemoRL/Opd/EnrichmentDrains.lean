import Mathlib
import NemoRL.Opd.TeacherCoordinator

namespace NemoRL.Opd

open DataPlane Experience Foundations AsyncUtils Foundations.Transition Foundations.Positions

variable {ρ : Type*} {cfg : CoordinatorConfig} {s t : Coordinator ρ} {i j : ℕ}
  {e f : Enrichment ρ}

namespace Stage

def holds : Stage → Bool
  | .shielded | .draining => true
  | _ => false

theorem isEnded_of_reply (reply : Reply) :
    (match reply with | .ok => Stage.returned | .raise error => Stage.raised error).isEnded := by
  cases reply <;> rfl

theorem holds_of_isEnded {stage : Stage} (h : stage.isEnded) : stage.holds = false := by
  cases stage <;> simp_all [isEnded, holds]

end Stage

theorem Worker.isLive_of_isRunning {w : Worker ρ} (h : w.isRunning) : w.isLive := by
  cases w <;> simp_all [isRunning, isLive]

theorem Worker.isRunning_of_isInferring {w : Worker ρ} (h : w.isInferring) : w.isRunning := by
  cases w <;> simp_all [isRunning, isInferring]

/-- What holds of each call by itself: a job that is not over keeps the call
inside of the lock, and the `commit` rolls back only once the call has ended. -/
structure Enrichment.Sound (e : Enrichment ρ) : Prop where
  live : e.worker.isLive → e.stage.holds
  sampleIds : ∀ c, e.progress = .suspended c → c.sampleIds = e.commit.sampleIds
  clears : e.RollsBack → e.stage.isEnded

def DistinctGroups (l : List (Enrichment ρ)) : Prop :=
  ∀ (i j : ℕ) (e f : Enrichment ρ), l[i]? = some e → l[j]? = some f →
    e.commit.groupId = f.commit.groupId → i = j

/-- The locks stand for the calls that are inside of them. -/
structure Coordinator.Sound (s : Coordinator ρ) : Prop where
  calls : ∀ (i : ℕ) (e : Enrichment ρ), s.enrichments[i]? = some e → e.Sound
  locks : ∀ g i, s.teacherLocks g = some i ↔
    ∃ e : Enrichment ρ, s.enrichments[i]? = some e ∧ e.groupAlias = g ∧ e.stage.holds
  groups : DistinctGroups s.enrichments

theorem DistinctGroups.set {l : List (Enrichment ρ)} (h : DistinctGroups l)
    (hi : l[i]? = some e) (hc : f.commit = e.commit) : DistinctGroups (l.set i f) := by
  intro j k x y hx hy hxy
  rcases getElem?_set_cases hx with ⟨rfl, rfl⟩ | ⟨-, hx'⟩ <;>
    rcases getElem?_set_cases hy with ⟨rfl, rfl⟩ | ⟨-, hy'⟩
  · rfl
  · exact h _ _ _ _ hi hy' (hc ▸ hxy)
  · exact h _ _ _ _ hx' hi (hxy.trans (congrArg _ hc))
  · exact h _ _ _ _ hx' hy' hxy

theorem sampleIds_of_resume {cfg : BufferConfig} {p : Plane ρ} {c c' : Commit ρ}
    {reply : Reply} (h : (c.resume cfg p reply).2 = .suspended c') :
    c'.sampleIds = c.sampleIds := by
  have heffect := c.resume_effect cfg p reply
  generalize c.resume cfg p reply = r at h heffect
  cases heffect with
  | filled => cases h
  | suspended stage hq =>
    obtain rfl := Progress.suspended.inj h
    rfl
  | raised => cases h

theorem Enrichment.Sound.conclude {p : Plane ρ} {reply : Reply} {stage : Stage}
    {worker : Worker ρ} (hw : worker.isLive = false) (hstage : stage.isEnded) :
    Enrichment.Sound { e with
      stage := stage, worker := worker
      progress := (e.commit.resume cfg.buffer p reply).2 } where
  live := fun h ↦ by
    rw [hw] at h
    cases h
  sampleIds := fun _ hc ↦ sampleIds_of_resume hc
  clears := fun _ ↦ hstage

theorem forall_calls_set {l : List (Enrichment ρ)} {P : Enrichment ρ → Prop}
    (h : ∀ (j : ℕ) x, l[j]? = some x → P x) (hf : P f) :
    ∀ (j : ℕ) x, (l.set i f)[j]? = some x → P x := by
  intro j x hx
  rcases getElem?_set_cases hx with ⟨-, rfl⟩ | ⟨-, hx⟩
  · exact hf
  · exact h j x hx

namespace Coordinator

theorem Sound.keep (h : Sound s) (hi : s.enrichments[i]? = some e) (hf : f.Sound)
    (hc : f.commit = e.commit) (hg : f.groupAlias = e.groupAlias)
    (hs : f.stage.holds = e.stage.holds) (ht : t.enrichments = s.enrichments.set i f)
    (hlocks : t.teacherLocks = s.teacherLocks) : Sound t where
  calls := ht ▸ forall_calls_set h.calls hf
  locks := by
    intro g j
    rw [hlocks, h.locks, ht]
    obtain ⟨hlt, _⟩ := List.getElem?_eq_some_iff.mp hi
    rcases eq_or_ne i j with rfl | hij
    · rw [List.getElem?_set_self hlt, hi]
      simp [hg, hs]
    · rw [List.getElem?_set_ne hij]
  groups := ht ▸ h.groups.set hi hc

theorem Sound.lock (h : Sound s) (hi : s.enrichments[i]? = some e) {holder : Option ℕ}
    (hother : ∀ j, s.teacherLocks e.groupAlias = some j → j = i) (hf : f.Sound)
    (hc : f.commit = e.commit) (hg : f.groupAlias = e.groupAlias)
    (hs : holder = if f.stage.holds then some i else none)
    (ht : t.enrichments = s.enrichments.set i f)
    (hlocks : t.teacherLocks = Function.update s.teacherLocks e.groupAlias holder) :
    Sound t where
  calls := ht ▸ forall_calls_set h.calls hf
  locks := by
    intro g j
    obtain ⟨hlt, _⟩ := List.getElem?_eq_some_iff.mp hi
    rw [hlocks, ht]
    rcases eq_or_ne g e.groupAlias with rfl | hne
    · rw [Function.update_self, hs]
      constructor
      · intro hj
        split_ifs at hj with hholds
        obtain rfl := Option.some.inj hj
        exact ⟨f, List.getElem?_set_self hlt, hg, hholds⟩
      · rintro ⟨x, hx, hxg, hxs⟩
        rcases getElem?_set_cases hx with ⟨rfl, rfl⟩ | ⟨hji, hx⟩
        · exact if_pos hxs
        · exact absurd (hother j ((h.locks _ _).mpr ⟨x, hx, hxg, hxs⟩)) hji
    · rw [Function.update_of_ne hne, h.locks]
      constructor
      · rintro ⟨x, hx, rfl, hxs⟩
        have hij : i ≠ j := by
          rintro rfl
          exact hne (by rw [Option.some.inj (hx.symm.trans hi)])
        exact ⟨x, by rwa [List.getElem?_set_ne hij], rfl, hxs⟩
      · rintro ⟨x, hx, rfl, hxs⟩
        rcases getElem?_set_cases hx with ⟨rfl, rfl⟩ | ⟨-, hx⟩
        · exact absurd hg hne
        · exact ⟨x, hx, rfl, hxs⟩
  groups := ht ▸ h.groups.set hi hc

theorem Sound.called (h : Sound s) (he : e.Sound) (hs : e.stage.holds = false)
    (hnew : ∀ x ∈ s.enrichments, x.commit.groupId ≠ e.commit.groupId)
    (ht : t.enrichments = s.enrichments ++ [e]) (hlocks : t.teacherLocks = s.teacherLocks) :
    Sound t where
  calls := by
    intro j x hx
    rw [ht] at hx
    rcases getElem?_append_singleton_cases hx with ⟨-, rfl⟩ | hx
    · exact he
    · exact h.calls j x hx
  locks := by
    intro g j
    rw [hlocks, h.locks, ht]
    constructor
    · rintro ⟨x, hx, hxg, hxs⟩
      obtain ⟨hlt, _⟩ := List.getElem?_eq_some_iff.mp hx
      exact ⟨x, by rwa [List.getElem?_append_left hlt], hxg, hxs⟩
    · rintro ⟨x, hx, hxg, hxs⟩
      rcases getElem?_append_singleton_cases hx with ⟨-, rfl⟩ | hx
      · rw [hs] at hxs
        cases hxs
      · exact ⟨x, hx, hxg, hxs⟩
  groups := by
    intro j k x y hx hy hxy
    rw [ht] at hx hy
    rcases getElem?_append_singleton_cases hx with ⟨rfl, rfl⟩ | hx' <;>
      rcases getElem?_append_singleton_cases hy with ⟨rfl, rfl⟩ | hy'
    · rfl
    · exact absurd hxy.symm (hnew y (List.mem_of_getElem? hy'))
    · exact absurd hxy (hnew x (List.mem_of_getElem? hx'))
    · exact h.groups _ _ _ _ hx' hy' hxy

theorem Sound.unique (h : Sound s) (hi : s.enrichments[i]? = some e) (hs : e.stage.holds)
    (hj : s.teacherLocks e.groupAlias = some j) : j = i :=
  Option.some.inj (hj.symm.trans ((h.locks _ _).mpr ⟨e, hi, rfl, hs⟩))

theorem Sound.leave (h : Sound s) (hi : s.enrichments[i]? = some e) (hs : e.stage.holds)
    {w : Worker ρ} (hw : w.isLive = false) (reply : Reply) :
    Sound (leave cfg s i { e with worker := w } reply) := by
  have hstage := Stage.isEnded_of_reply reply
  refine h.lock hi (fun j hj ↦ h.unique hi hs hj) (Enrichment.Sound.conclude hw hstage) rfl rfl ?_
    rfl rfl
  rw [Stage.holds_of_isEnded hstage]
  rfl

theorem Sound.conclude (h : Sound s) (hi : s.enrichments[i]? = some e)
    (hs : e.stage.holds = false) (hw : e.worker.isLive = false) (reply : Reply) :
    Sound (conclude cfg s i e reply) := by
  have hstage := Stage.isEnded_of_reply reply
  refine h.keep hi (Enrichment.Sound.conclude hw hstage) rfl rfl ?_ rfl rfl
  rw [hs, Stage.holds_of_isEnded hstage]

theorem Sound.worker (h : Sound s) (hi : s.enrichments[i]? = some e) {worker : Worker ρ}
    (hw : worker.isLive → e.worker.isLive)
    (ht : t.enrichments = s.enrichments.set i { e with worker := worker })
    (hlocks : t.teacherLocks = s.teacherLocks) : Sound t := by
  obtain ⟨hlive, hids, hclears⟩ := h.calls i e hi
  have hf : Enrichment.Sound { e with worker := worker } := ⟨fun hl ↦ hlive (hw hl), hids, hclears⟩
  exact h.keep hi hf rfl rfl rfl ht hlocks

end Coordinator

variable (cfg s) in
/-- One blocking call ends: the thread had been running, the call stays where
it is and no lock is touched. -/
theorem enrichSync_frame (stage : ThreadStage ρ) (reply : Reply) :
    ∃ worker, (enrichSync cfg s i e stage reply).enrichments =
        s.enrichments.set i { e with worker := worker } ∧
      (enrichSync cfg s i e stage reply).teacherLocks = s.teacherLocks ∧
      (enrichSync cfg s i e stage reply).plane = s.plane := by
  unfold enrichSync
  split <;> exact ⟨_, rfl, rfl, rfl⟩

theorem awaited_of_start {p q : Plane ρ} {groupId : GroupId} {record : PromptGroupRecord ρ}
    {v w : ℕ} {c c' : Commit ρ} (hc : Commit.start cfg.buffer p groupId record v w = .suspended c)
    (hq : c.resume cfg.buffer p .ok = (q, .suspended c')) :
    c'.groupId = groupId ∧ c'.stage = .enrich := by
  obtain ⟨rfl, -⟩ := Commit.start_eq_suspended hc
  simp only [Commit.resume, CoordinatorConfig.buffer] at hq
  obtain ⟨-, rfl⟩ := by simpa using hq
  exact ⟨rfl, rfl⟩

namespace Coordinator

theorem Sound.enrich (h : Sound s) {p : Plane ρ} {c : Commit ρ} (hc : c.stage = .enrich)
    (hnew : ∀ x ∈ s.enrichments, x.commit.groupId ≠ c.groupId) (agentRef : AgentRef) :
    Sound (enrich cfg { s with plane := p } c agentRef) := by
  have hcalled (g : String) :
      Enrichment.Sound ⟨c, g, .locking, .absent, .suspended c⟩ := by
    refine ⟨by simp [Worker.isLive], fun _ hx ↦ by rw [Progress.suspended.inj hx], ?_⟩
    rintro ⟨x, error, hx, hclear⟩
    rw [← Progress.suspended.inj hx, hc] at hclear
    cases hclear
  unfold Opd.enrich
  split
  · exact h.called (hcalled _) rfl hnew rfl rfl
  · have hs : Sound { s with
        plane := p, enrichments := s.enrichments ++ [⟨c, "", .locking, .absent, .suspended c⟩] } :=
      h.called (hcalled _) rfl hnew rfl rfl
    exact hs.conclude (by simp) rfl rfl _

end Coordinator

def Drains (s : Coordinator ρ) : Event ρ → Prop
  | .cancel i => ∀ e ∈ s.enrichments[i]?,
      (match e.stage with | .draining => !e.worker.isRunning | _ => true) = true
  | _ => True

instance (s : Coordinator ρ) : ∀ e, Decidable (Drains s e)
  | .cancel _ => inferInstanceAs (Decidable (∀ e ∈ (_ : Option _), _))
  | .environment _ | .call .. | .acquire _ | .pickUp _ | .padWrite _ _ | .thread _ _ | .wake _
  | .rollback _ _ => inferInstanceAs (Decidable True)

theorem cancel_sound (h : s.Sound) (hi : s.enrichments[i]? = some e)
    (hd : Drains s (.cancel i)) (ht : cancel cfg s i e = some t) : t.Sound := by
  have he := h.calls i e hi
  unfold cancel at ht
  split at ht
  next hstage =>
    obtain rfl := Option.some.inj ht
    have hlive : e.worker.isLive = false := by
      by_contra hl
      have := he.live (by simpa using hl)
      simp [hstage, Stage.holds] at this
    exact h.conclude hi (by rw [hstage]; rfl) hlive _
  next hstage =>
    obtain rfl := Option.some.inj ht
    have hf : Enrichment.Sound { e with stage := .draining } := by
      refine ⟨fun _ ↦ rfl, he.sampleIds, fun hr ↦ ?_⟩
      have := he.clears hr
      simp [hstage, Stage.isEnded] at this
    exact h.keep hi hf rfl rfl (by rw [hstage]; rfl) rfl rfl
  next hstage =>
    obtain rfl := Option.some.inj ht
    have hrun := hd e hi
    rw [hstage] at hrun
    refine h.leave hi (by rw [hstage]; rfl) ?_ _
    cases hw : e.worker with
    | running => simp [hw, Worker.isRunning] at hrun
    | submitted | absent | withdrawn | ended => rfl
  · cases ht

theorem step_sound {ev : Event ρ} (h : s.Sound) (hd : Drains s ev)
    (ht : step cfg s ev = some t) : t.Sound := by
  cases ev with
  | environment plane =>
    obtain rfl := Option.some.inj ht
    exact ⟨h.calls, h.locks, h.groups⟩
  | call groupId record agentRef v w =>
    simp only [step] at ht
    split_ifs at ht with hnew
    split at ht
    next c hc =>
      split at ht
      next plane c' hq =>
        obtain rfl := Option.some.inj ht
        obtain ⟨hg, hstage⟩ := awaited_of_start hc hq
        refine h.enrich hstage (fun x hx hxg ↦ hnew ⟨x, hx, hxg.trans hg⟩) agentRef
      · cases ht
    · cases ht
  | acquire i =>
    simp only [step] at ht
    split at ht
    next e hi =>
      split at ht
      next hstage hw hfree =>
        obtain rfl := Option.some.inj ht
        have he := h.calls i e hi
        have hf : Enrichment.Sound { e with stage := .shielded, worker := .submitted } := by
          refine ⟨fun _ ↦ rfl, he.sampleIds, fun hr ↦ ?_⟩
          have := he.clears hr
          simp [hstage, Stage.isEnded] at this
        exact h.lock hi (fun j hj ↦ by rw [hfree] at hj; cases hj) hf rfl rfl rfl rfl rfl
      · cases ht
    · cases ht
  | pickUp i =>
    simp only [step] at ht
    split at ht
    next e hi =>
      split at ht
      next hw =>
        obtain rfl := Option.some.inj ht
        exact h.worker hi (fun _ ↦ by rw [hw]; rfl) rfl rfl
      · cases ht
    · cases ht
  | padWrite i k =>
    simp only [step] at ht
    split at ht
    · split_ifs at ht
      obtain rfl := Option.some.inj ht
      exact ⟨h.calls, h.locks, h.groups⟩
    · cases ht
  | thread i reply =>
    simp only [step] at ht
    split at ht
    next e hi =>
      split at ht
      next stage hw =>
        obtain rfl := Option.some.inj ht
        obtain ⟨worker, hset, hlocks, -⟩ := enrichSync_frame cfg s stage reply
        exact h.worker hi (fun _ ↦ by rw [hw]; rfl) hset hlocks
      · cases ht
    · cases ht
  | wake i =>
    simp only [step] at ht
    split at ht
    next e hi =>
      have hleave (hs : e.stage.holds) (hw : e.worker.isLive = false) (reply : Reply) :
          (s.leave cfg i e reply).Sound := h.leave (w := e.worker) hi hs hw reply
      split at ht
      next hstage hw =>
        exact Option.some.inj ht ▸ hleave (by rw [hstage]; rfl) (by rw [hw]; rfl) _
      next hstage hw =>
        exact Option.some.inj ht ▸ hleave (by rw [hstage]; rfl) (by rw [hw]; rfl) _
      next hstage hw =>
        exact Option.some.inj ht ▸ hleave (by rw [hstage]; rfl) (by rw [hw]; rfl) _
      · cases ht
    · cases ht
  | cancel i =>
    simp only [step] at ht
    split at ht
    next e hi => exact cancel_sound h hi hd ht
    · cases ht
  | rollback i reply =>
    simp only [step] at ht
    split at ht
    next e hi =>
      split at ht
      next c hp =>
        split at ht
        next error hclear =>
          obtain rfl := Option.some.inj ht
          obtain ⟨hlive, hids, hclears⟩ := h.calls i e hi
          have hf : Enrichment.Sound { e with
              progress := (c.resume cfg.buffer s.plane reply).2 } :=
            ⟨hlive, fun x hx ↦ (sampleIds_of_resume hx).trans (hids c hp),
              fun _ ↦ hclears ⟨c, error, hp, hclear⟩⟩
          exact h.keep hi hf rfl rfl rfl rfl rfl
        · cases ht
      · cases ht
    · cases ht

def Enrichment.rowIds (e : Enrichment ρ) : List SampleId := e.commit.sampleIds

structure OutlivesNothing (s : Coordinator ρ) : Prop where
  /-- One inference at a time on each physical group. -/
  one : ∀ (i j : ℕ) (e f : Enrichment ρ), s.enrichments[i]? = some e →
    s.enrichments[j]? = some f → e.worker.isInferring → f.worker.isInferring →
    e.groupAlias = f.groupAlias → i = j
  /-- No call has returned or raised while its thread runs. -/
  ended : ∀ e ∈ s.enrichments, e.stage.isEnded → e.worker.isRunning = false
  /-- No thread uses the rows a rollback is clearing. -/
  rollback : ∀ e ∈ s.enrichments, ∀ f ∈ s.enrichments, ∀ c, e.progress = .suspended c →
    e.RollsBack → f.worker.isRunning → c.sampleIds.Disjoint f.rowIds

theorem Coordinator.Sound.outlivesNothing (h : s.Sound) : OutlivesNothing s := by
  have hended : ∀ e ∈ s.enrichments, e.stage.isEnded → e.worker.isRunning = false := by
    intro e he hstage
    obtain ⟨i, hi⟩ := List.mem_iff_getElem?.mp he
    by_contra hrun
    have hholds := (h.calls i e hi).live (Worker.isLive_of_isRunning (by simpa using hrun))
    rw [Stage.holds_of_isEnded hstage] at hholds
    cases hholds
  refine ⟨?_, hended, ?_⟩
  · intro i j e f hi hj he hf hg
    have hholds {k : ℕ} {x : Enrichment ρ} (hk : s.enrichments[k]? = some x)
        (hx : x.worker.isInferring) : s.teacherLocks x.groupAlias = some k :=
      (h.locks _ _).mpr ⟨x, hk, rfl,
        (h.calls k x hk).live (Worker.isLive_of_isRunning (Worker.isRunning_of_isInferring hx))⟩
    have hle := hholds hi he
    rw [hg, hholds hj hf] at hle
    exact (Option.some.inj hle).symm
  · intro e he f hf c hc hr hrun k hk hkf
    obtain ⟨i, hi⟩ := List.mem_iff_getElem?.mp he
    obtain ⟨j, hj⟩ := List.mem_iff_getElem?.mp hf
    rw [(h.calls i e hi).sampleIds c hc] at hk
    have hgroup : e.commit.groupId = f.commit.groupId :=
      ((PromptGroupRecord.mem_sampleIds.mp hk).1).symm.trans
        (PromptGroupRecord.mem_sampleIds.mp hkf).1
    obtain rfl := h.groups i j e f hi hj hgroup
    obtain rfl := Option.some.inj (hi.symm.trans hj)
    rw [hended e he ((h.calls i e hi).clears hr)] at hrun
    cases hrun

theorem init_sound (h : Initial s) : s.Sound := by
  obtain ⟨-, hlocks, henr⟩ := h
  refine ⟨by simp [henr], ?_, by intro i j e f hi; simp [henr] at hi⟩
  intro g i
  simp [hlocks, henr]

/-- The runs in which `clear_samples` of the temporary rows never raises. -/
def ClearsSucceed (s : Coordinator ρ) : Event ρ → Prop
  | .thread i (.raise _) => ∀ e ∈ s.enrichments[i]?,
      (match e.worker with | .running (.clear _ _) => false | _ => true) = true
  | _ => True

instance (s : Coordinator ρ) : ∀ ev, Decidable (ClearsSucceed s ev)
  | .thread _ (.raise _) => inferInstanceAs (Decidable (∀ e ∈ (_ : Option _), _))
  | .thread _ .ok | .environment _ | .call .. | .acquire _ | .pickUp _ | .padWrite _ _ | .wake _
  | .cancel _ | .rollback _ _ => inferInstanceAs (Decidable True)

/-- The temporary ids of the calls are drawn one call at a time, and every
temporary row in the store belongs to a thread that runs. -/
structure PadsSound (s : Coordinator ρ) : Prop where
  drawn : ∀ (i : ℕ) (e : Enrichment ρ), s.enrichments[i]? = some e →
    ∀ k ∈ e.worker.temporarySampleIds, k.uuid < s.uuids
  distinct : ∀ (i j : ℕ) (e f : Enrichment ρ), s.enrichments[i]? = some e →
    s.enrichments[j]? = some f → ∀ k ∈ e.worker.temporarySampleIds,
      k ∈ f.worker.temporarySampleIds → i = j
  owned : ∀ k, s.pads.Holds k → ∃ (i : ℕ) (e : Enrichment ρ), s.enrichments[i]? = some e ∧
    e.worker.isRunning ∧ k ∈ e.worker.temporarySampleIds

namespace PadsSound

/-- A call goes on with the ids it has, and every row of it is still there
only if its thread still runs. -/
theorem keep (h : PadsSound s) (hi : s.enrichments[i]? = some e)
    (ht : t.enrichments = s.enrichments.set i f) (huuids : t.uuids = s.uuids)
    (hids : ∀ k ∈ f.worker.temporarySampleIds, k ∈ e.worker.temporarySampleIds)
    (hpads : ∀ k, t.pads.Holds k → s.pads.Holds k ∨
      f.worker.isRunning ∧ k ∈ f.worker.temporarySampleIds)
    (hends : ∀ k ∈ e.worker.temporarySampleIds, e.worker.isRunning → t.pads.Holds k →
      f.worker.isRunning ∧ k ∈ f.worker.temporarySampleIds) : PadsSound t where
  drawn := by
    intro j x hx k hk
    rw [ht] at hx
    rw [huuids]
    rcases getElem?_set_cases hx with ⟨-, rfl⟩ | ⟨-, hx'⟩
    · exact h.drawn i e hi k (hids k hk)
    · exact h.drawn j x hx' k hk
  distinct := by
    intro j l x y hx hy k hkx hky
    rw [ht] at hx hy
    rcases getElem?_set_cases hx with ⟨rfl, rfl⟩ | ⟨-, hx'⟩ <;>
      rcases getElem?_set_cases hy with ⟨rfl, rfl⟩ | ⟨-, hy'⟩
    · rfl
    · exact h.distinct _ _ _ _ hi hy' k (hids k hkx) hky
    · exact h.distinct _ _ _ _ hx' hi k hkx (hids k hky)
    · exact h.distinct _ _ _ _ hx' hy' k hkx hky
  owned := by
    intro k hk
    obtain ⟨hlt, _⟩ := List.getElem?_eq_some_iff.mp hi
    have hself : f.worker.isRunning ∧ k ∈ f.worker.temporarySampleIds →
        ∃ (j : ℕ) (x : Enrichment ρ), t.enrichments[j]? = some x ∧ x.worker.isRunning ∧
          k ∈ x.worker.temporarySampleIds :=
      fun hf ↦ ⟨i, f, by rw [ht, List.getElem?_set_self hlt], hf⟩
    rcases hpads k hk with hs | hf
    · obtain ⟨j, x, hx, hrun, hkx⟩ := h.owned k hs
      rcases eq_or_ne i j with rfl | hij
      · obtain rfl := Option.some.inj (hi.symm.trans hx)
        exact hself (hends k hkx hrun hk)
      · exact ⟨j, x, by rwa [ht, List.getElem?_set_ne hij], hrun, hkx⟩
    · exact hself hf

theorem same (h : PadsSound s) (hi : s.enrichments[i]? = some e)
    (ht : t.enrichments = s.enrichments.set i f) (huuids : t.uuids = s.uuids)
    (hpads : t.pads = s.pads)
    (hids : f.worker.temporarySampleIds = e.worker.temporarySampleIds)
    (hrun : e.worker.isRunning → f.worker.isRunning) : PadsSound t :=
  h.keep hi ht huuids (fun _ hk ↦ hids ▸ hk) (fun _ hk ↦ .inl (hpads ▸ hk))
    fun _ hk hr _ ↦ ⟨hrun hr, hids ▸ hk⟩

theorem called (h : PadsSound s) (he : e.worker.temporarySampleIds = [])
    (ht : t.enrichments = s.enrichments ++ [e]) (huuids : t.uuids = s.uuids)
    (hpads : t.pads = s.pads) : PadsSound t where
  drawn := by
    intro j x hx k hk
    rw [ht] at hx
    rw [huuids]
    rcases getElem?_append_singleton_cases hx with ⟨-, rfl⟩ | hx'
    · rw [he] at hk
      cases hk
    · exact h.drawn j x hx' k hk
  distinct := by
    intro j l x y hx hy k hkx hky
    rw [ht] at hx hy
    rcases getElem?_append_singleton_cases hx with ⟨-, rfl⟩ | hx'
    · rw [he] at hkx
      cases hkx
    · rcases getElem?_append_singleton_cases hy with ⟨-, rfl⟩ | hy'
      · rw [he] at hky
        cases hky
      · exact h.distinct _ _ _ _ hx' hy' k hkx hky
  owned := by
    intro k hk
    obtain ⟨j, x, hx, hrun, hkx⟩ := h.owned k (hpads ▸ hk)
    obtain ⟨hlt, _⟩ := List.getElem?_eq_some_iff.mp hx
    exact ⟨j, x, by rwa [ht, List.getElem?_append_left hlt], hrun, hkx⟩

theorem idle (h : PadsSound s) (hi : s.enrichments[i]? = some e)
    (ht : t.enrichments = s.enrichments.set i f) (huuids : t.uuids = s.uuids)
    (hpads : t.pads = s.pads) (he : e.worker.temporarySampleIds = [])
    (hf : f.worker.temporarySampleIds = []) : PadsSound t := by
  refine h.keep hi ht huuids (by simp [hf]) (fun _ hk ↦ .inl (hpads ▸ hk)) ?_
  intro k hk
  rw [he] at hk
  cases hk

theorem draw (h : PadsSound s) (hi : s.enrichments[i]? = some e)
    (ht : t.enrichments = s.enrichments.set i f) (huuids : t.uuids = s.uuids + 1)
    (hpads : t.pads = s.pads) (he : e.worker.temporarySampleIds = [])
    (hf : ∀ k ∈ f.worker.temporarySampleIds, k.uuid = s.uuids) : PadsSound t where
  drawn := by
    intro j x hx k hk
    rw [ht] at hx
    rw [huuids]
    rcases getElem?_set_cases hx with ⟨-, rfl⟩ | ⟨-, hx'⟩
    · rw [hf k hk]
      omega
    · exact (h.drawn j x hx' k hk).trans (Nat.lt_succ_self _)
  distinct := by
    intro j l x y hx hy k hkx hky
    rw [ht] at hx hy
    rcases getElem?_set_cases hx with ⟨rfl, rfl⟩ | ⟨-, hx'⟩ <;>
      rcases getElem?_set_cases hy with ⟨rfl, rfl⟩ | ⟨-, hy'⟩
    · rfl
    · exact absurd (h.drawn _ _ hy' k hky) (by rw [hf k hkx]; omega)
    · exact absurd (h.drawn _ _ hx' k hkx) (by rw [hf k hky]; omega)
    · exact h.distinct _ _ _ _ hx' hy' k hkx hky
  owned := by
    intro k hk
    obtain ⟨j, x, hx, hrun, hkx⟩ := h.owned k (hpads ▸ hk)
    have hij : i ≠ j := by
      rintro rfl
      obtain rfl := Option.some.inj (hi.symm.trans hx)
      rw [he] at hkx
      cases hkx
    exact ⟨j, x, by rwa [ht, List.getElem?_set_ne hij], hrun, hkx⟩

end PadsSound

theorem uuid_of_mem_padIds {m : KVBatchMeta} {uuid padCount : ℕ} {k : PadId}
    (h : k ∈ padIds m uuid padCount) : k.uuid = uuid := by
  obtain ⟨last, -, h⟩ := List.mem_flatMap.mp h
  obtain ⟨index, -, rfl⟩ := List.mem_map.mp h
  rfl

theorem enrichSync_pads (h : PadsSound s) (hi : s.enrichments[i]? = some e)
    {stage : ThreadStage ρ} (hw : e.worker = .running stage) {reply : Reply}
    (hc : ClearsSucceed s (.thread i reply)) : PadsSound (enrichSync cfg s i e stage reply) := by
  have hids : e.worker.temporarySampleIds = stage.temporarySampleIds := by rw [hw]; rfl
  have hrun : e.worker.isRunning := by rw [hw]; rfl
  unfold enrichSync
  split
  · -- The checks at the entry of `_enrich_sync`.
    refine h.idle hi rfl rfl rfl hids ?_
    dsimp only
    split_ifs <;> rfl
  · refine h.draw hi rfl rfl rfl hids ?_
    intro k hk
    dsimp only at hk
    split at hk
    · exact uuid_of_mem_padIds hk
    · cases hk
  · exact h.idle hi rfl rfl rfl hids rfl
  next ids source =>
    have hsame : (Worker.running (.infer ids : ThreadStage ρ)).temporarySampleIds = ids := rfl
    refine h.keep hi rfl rfl (fun k hk ↦ hids ▸ hk) ?_ ?_
    · intro k hk
      rcases (KeyedStore.holds_put _ _ _).mp hk with hput | hk
      · rw [List.map_map] at hput
        exact .inr ⟨rfl, by simpa [hsame] using hput⟩
      · exact .inl hk
    · intro k hk _ _
      rw [hids] at hk
      exact ⟨rfl, hk⟩
  · exact h.idle hi rfl rfl rfl hids rfl
  · exact h.idle hi rfl rfl rfl hids rfl
  · exact h.same hi rfl rfl rfl hids.symm fun _ ↦ rfl
  · exact h.same hi rfl rfl rfl hids.symm fun _ ↦ rfl
  · exact h.same hi rfl rfl rfl hids.symm fun _ ↦ rfl
  next ids error =>
    refine h.keep hi rfl rfl (fun k hk ↦ hids ▸ hk) ?_ ?_
    · exact fun k hk ↦ .inl ((KeyedStore.holds_clear _ _ _).mp hk).2
    · intro k hk _ hheld
      rw [hids] at hk
      exact absurd hk ((KeyedStore.holds_clear _ _ _).mp hheld).1
  next ids error cleanupError =>
    have := hc e hi
    rw [hw] at this
    cases this

theorem conclude_pads (h : PadsSound s) (hi : s.enrichments[i]? = some e) {w : Worker ρ}
    (hw : w.temporarySampleIds = e.worker.temporarySampleIds)
    (hrun : e.worker.isRunning → w.isRunning) (reply : Reply) :
    PadsSound (s.conclude cfg i { e with worker := w } reply) :=
  h.same hi rfl rfl rfl hw hrun

theorem leave_pads (h : PadsSound s) (hi : s.enrichments[i]? = some e) {w : Worker ρ}
    (hw : w.temporarySampleIds = e.worker.temporarySampleIds)
    (hrun : e.worker.isRunning → w.isRunning) (reply : Reply) :
    PadsSound (s.leave cfg i { e with worker := w } reply) :=
  h.same hi rfl rfl rfl hw hrun

theorem cancel_pads (h : PadsSound s) (hi : s.enrichments[i]? = some e)
    (ht : cancel cfg s i e = some t) : PadsSound t := by
  unfold cancel at ht
  split at ht
  · obtain rfl := Option.some.inj ht
    exact conclude_pads (w := e.worker) h hi rfl id _
  · obtain rfl := Option.some.inj ht
    exact h.same hi rfl rfl rfl rfl id
  · obtain rfl := Option.some.inj ht
    refine leave_pads h hi ?_ ?_ _
    · cases e.worker <;> rfl
    · cases e.worker <;> simp [Worker.isRunning]
  · cases ht

theorem step_pads {ev : Event ρ} (h : PadsSound s) (hc : ClearsSucceed s ev)
    (ht : step cfg s ev = some t) : PadsSound t := by
  cases ev with
  | environment plane =>
    obtain rfl := Option.some.inj ht
    exact ⟨h.drawn, h.distinct, h.owned⟩
  | call groupId record agentRef v w =>
    simp only [step] at ht
    split_ifs at ht
    split at ht
    · split at ht
      next plane c hq =>
        obtain rfl := Option.some.inj ht
        unfold enrich
        split
        · exact h.called rfl rfl rfl rfl
        · have hs : PadsSound { s with
              plane := plane
              enrichments := s.enrichments ++ [⟨c, "", .locking, .absent, .suspended c⟩] } :=
            h.called rfl rfl rfl rfl
          exact hs.same List.getElem?_concat_length rfl rfl rfl rfl id
      · cases ht
    · cases ht
  | acquire i =>
    simp only [step] at ht
    split at ht
    next e hi =>
      split at ht
      next hstage hw hfree =>
        obtain rfl := Option.some.inj ht
        exact h.idle hi rfl rfl rfl (by rw [hw]; rfl) rfl
      · cases ht
    · cases ht
  | pickUp i =>
    simp only [step] at ht
    split at ht
    next e hi =>
      split at ht
      next hw =>
        obtain rfl := Option.some.inj ht
        exact h.idle hi rfl rfl rfl (by rw [hw]; rfl) rfl
      · cases ht
    · cases ht
  | padWrite i k =>
    simp only [step] at ht
    split at ht
    next hi =>
      split_ifs at ht with hk
      obtain rfl := Option.some.inj ht
      refine ⟨h.drawn, h.distinct, fun l hl ↦ ?_⟩
      rcases (KeyedStore.holds_write _ _ _ _).mp hl with rfl | hl
      · exact ⟨i, _, hi, rfl, hk⟩
      · exact h.owned l hl
    · cases ht
  | thread i reply =>
    simp only [step] at ht
    split at ht
    next e hi =>
      split at ht
      next stage hw =>
        obtain rfl := Option.some.inj ht
        exact enrichSync_pads h hi hw hc
      · cases ht
    · cases ht
  | wake i =>
    simp only [step] at ht
    split at ht
    next e hi =>
      have hleave (reply : Reply) : PadsSound (s.leave cfg i e reply) :=
        leave_pads (w := e.worker) h hi rfl id reply
      split at ht
      · exact Option.some.inj ht ▸ hleave _
      · exact Option.some.inj ht ▸ hleave _
      · exact Option.some.inj ht ▸ hleave _
      · cases ht
    · cases ht
  | cancel i =>
    simp only [step] at ht
    split at ht
    next e hi => exact cancel_pads h hi ht
    · cases ht
  | rollback i reply =>
    simp only [step] at ht
    split at ht
    next e hi =>
      split at ht
      next c hp =>
        split at ht
        · obtain rfl := Option.some.inj ht
          exact h.same hi rfl rfl rfl rfl id
        · cases ht
      · cases ht
    · cases ht

/-- No temporary row of a thread that has ended is left, and none at all
without a thread that runs. -/
structure PadsCleared (s : Coordinator ρ) : Prop where
  ended : ∀ e ∈ s.enrichments, ∀ ids result, e.worker = .ended ids result →
    ∀ k ∈ ids, ¬ s.pads.Holds k
  owned : ∀ k, s.pads.Holds k → ∃ e ∈ s.enrichments, e.worker.isRunning ∧
    k ∈ e.worker.temporarySampleIds

theorem PadsSound.cleared (h : PadsSound s) : PadsCleared s where
  ended := by
    intro e he ids result hw k hk hheld
    obtain ⟨i, hi⟩ := List.mem_iff_getElem?.mp he
    obtain ⟨j, f, hj, hrun, hkf⟩ := h.owned k hheld
    obtain rfl := h.distinct i j e f hi hj k (by rw [hw]; exact hk) hkf
    obtain rfl := Option.some.inj (hi.symm.trans hj)
    rw [hw] at hrun
    cases hrun
  owned := by
    intro k hk
    obtain ⟨j, f, hj, hf⟩ := h.owned k hk
    exact ⟨f, List.mem_of_getElem? hj, hf⟩

theorem init_pads (h : Initial s) : PadsSound s := by
  obtain ⟨hpads, -, henr⟩ := h
  refine ⟨by simp [henr], by intro i j e f hi; simp [henr] at hi, ?_⟩
  intro k hk
  rw [hpads] at hk
  exact absurd hk (KeyedStore.not_holds_empty k)

/-- Along every run in which no draining call is cancelled over a thread that
runs, enrichment stays within its call. The temporary rows are cleared along
every run in which clearing them works. -/
theorem enrichment_within_call (cfg : CoordinatorConfig) :
    (∀ s : Coordinator ρ, ReachableBy (step cfg) Initial Drains s → OutlivesNothing s) ∧
    ∀ s : Coordinator ρ, ReachableBy (step cfg) Initial ClearsSucceed s → PadsCleared s := by
  constructor
  · intro s h
    have hs : s.Sound := h.invariant (fun _ ↦ init_sound) fun _ _ _ hs hd ht ↦ step_sound hs hd ht
    exact hs.outlivesNothing
  · intro s h
    have hs : PadsSound s := h.invariant (fun _ ↦ init_pads) fun _ _ _ hs hc ht ↦ step_pads hs hc ht
    exact hs.cleared

section Runs

def sharedTeacher : CoordinatorConfig where
  partitionId := "train"
  requireRoutedExperts := false
  teacherModelByAgentName := [("math", "/ckpt/teacher"), ("code", "/ckpt/teacher")]
  defaultTeacherAlias := none
  strictAgentNameMatch := true
  aliasToGroupAlias := [("math", "math"), ("code", "math")]
  teacherWorkerGroups := [("math", 2)]

def reserved : TQReplayBuffer :=
  (TQReplayBuffer.empty.reserve 0 none ⟨0, 0⟩).reserve 0 none ⟨1, 1⟩

def started : Coordinator Unit :=
  ⟨⟨reserved, .empty⟩, .empty, fun _ ↦ none, [], 0⟩

def oneRow : PromptGroupRecord Unit := ⟨[⟨(), 3, false⟩]⟩

/-- Two groups call the teacher, and the first infers with a temporary row. -/
def infers : List (Event Unit) :=
  [.call ⟨0, 0⟩ oneRow (.named "math") 0 0, .call ⟨1, 1⟩ oneRow (.named "code") 0 0,
    .acquire 0, .pickUp 0, .thread 0 .ok, .thread 0 .ok, .thread 0 .ok]

/-- A call cancelled once during its inference waits for the thread and rolls
back after it; an inference that fails leaves no temporary row. -/
theorem enrichment_within_call_cancelled :
    (∃ s : Coordinator Unit, OutlivesNothing s ∧
      s.enrichments.map (fun e ↦ (e.stage.isEnded, e.worker.isRunning)) =
        [(true, false), (false, true)] ∧
      s.teacherLocks "math" = some 1 ∧ ¬ s.plane.dp.Holds ⟨⟨0, 0⟩, 0⟩) ∧
    ∃ s : Coordinator Unit, PadsCleared s ∧
      s.enrichments.map (fun e ↦ e.worker.temporarySampleIds) = [[⟨⟨⟨0, 0⟩, 0⟩, 0, 0⟩], []] ∧
      ¬ s.pads.Holds ⟨⟨⟨0, 0⟩, 0⟩, 0, 0⟩ :=
  ⟨⟨_, (enrichment_within_call sharedTeacher).1 _ (ReachableBy.run
        (show Initial started from ⟨rfl, rfl, rfl⟩)
        (infers ++ [.cancel 0, .thread 0 .ok, .thread 0 .ok, .wake 0, .rollback 0 .ok,
          .acquire 1, .pickUp 1]) (by decide)),
      by decide, by decide, by decide⟩,
    ⟨_, (enrichment_within_call sharedTeacher).2 _ (ReachableBy.run
        (show Initial started from ⟨rfl, rfl, rfl⟩)
        (infers ++ [.thread 0 (.raise .runtimeError), .thread 0 .ok]) (by decide)),
      by decide, by decide⟩⟩

/-- A second cancellation ends the drain: the lock is free and the rollback
begins while the first thread infers, and the other call infers beside it. -/
theorem second_cancel_abandons_thread :
    ∃ s : Coordinator Unit, exec (step sharedTeacher) started
        (infers ++ [.cancel 0, .cancel 0, .acquire 1, .pickUp 1, .thread 1 .ok, .thread 1 .ok,
          .thread 1 .ok]) = some s ∧
      s.enrichments.map (fun e ↦ (e.stage.isEnded, e.worker.isInferring)) =
        [(true, true), (false, true)] ∧
      (∃ e ∈ s.enrichments[0]?, ∃ c error, e.progress = .suspended c ∧
        c.stage = .clear error ∧ ¬ c.sampleIds.Disjoint e.rowIds) ∧
      ¬ OutlivesNothing s := by
  refine ⟨_, rfl, by decide, ⟨_, rfl, _, _, rfl, rfl, ?_⟩, fun h ↦ ?_⟩
  · exact fun h ↦ h (a := ⟨⟨0, 0⟩, 0⟩) (by decide) (by decide)
  · exact absurd (h.ended _ (List.mem_cons_self ..) rfl) (by decide)

end Runs

end NemoRL.Opd
