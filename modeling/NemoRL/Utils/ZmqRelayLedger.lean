import Mathlib
import NemoRL.Foundations.Positions
import NemoRL.Utils.ZmqRelay

namespace NemoRL.Utils.ZmqRelay

open Foundations Foundations.Positions

variable {β : Type}

def submitted (r : Relay β) : List (Work β) := r.jobs.map Job.work

/-- The payloads whose local apply is among the works, with their roots. -/
def roots (ws : List (Work β)) : List (String × Payload β) :=
  ws.filterMap fun w ↦ if w.child.isNone then some (w.relayRoot, w.payload) else none

def accepted (r : Relay β) : List (String × Payload β) := roots (submitted r)

def rootsOf (ws : List (Work β)) (transferId : String) : List (String × Payload β) :=
  (roots ws).filter (·.2.transferId = transferId)

/-- The payload given to the apply function by a job, if it has started. -/
def startedPayload (j : Job β) : Option (Payload β) :=
  if j.work.child.isNone ∧ j.phase ≠ .queued then some j.work.payload else none

section Works

variable {cfg : Config} {own root : String} {p : Payload β} {r : Relay β}

theorem roots_append (ws ws' : List (Work β)) : roots (ws ++ ws') = roots ws ++ roots ws' :=
  List.filterMap_append

theorem roots_works (cfg : Config) (own root : String) (p : Payload β) :
    roots (works cfg own root p) = [(root, p)] := by
  simp [roots, works, List.filterMap_map]

theorem payload_of_mem_works {w : Work β} (h : w ∈ works cfg own root p) :
    w.payload = p ∧ w.relayRoot = root := by
  rcases List.mem_cons.mp h with rfl | h
  · exact ⟨rfl, rfl⟩
  · obtain ⟨c, -, rfl⟩ := List.mem_map.mp h
    exact ⟨rfl, rfl⟩

theorem submitted_stage : submitted (stage cfg own root p r) = submitted r ++ works cfg own root p := by
  simp [submitted, stage, Function.comp_def]

theorem accepted_stage : accepted (stage cfg own root p r) = accepted r ++ [(root, p)] := by
  rw [accepted, submitted_stage, roots_append, roots_works]
  rfl

theorem submitted_setPhase (r : Relay β) (j : ℕ) (phase : Phase) :
    submitted (setPhase r j phase) = submitted r := by
  refine List.ext_getElem? fun i ↦ ?_
  simp only [submitted, setPhase, List.getElem?_map, List.getElem?_modify]
  split_ifs <;> cases r.jobs[i]? <;> rfl

end Works

/-- A transfer's table and futures, seen from the works submitted. -/
structure Tracks (ws : List (Work β)) (transferId : String) (t : RelayTransfer) : Prop where
  checksums : t.checksums = (rootsOf ws transferId).map fun a ↦
    ((a.2.producerId, a.2.payloadId), a.2.checksum)
  futures : ∀ (j : ℕ) (w : Work β), ws[j]? = some w → w.payload.transferId = transferId →
    j ∈ t.futures

/-- A sealed transfer of `n` payloads all of whose jobs have succeeded. -/
structure Settled (jobs : List (Job β)) (results : KeyedStore String Completion)
    (transferId : String) (n : ℕ) : Prop where
  sealed : results.Holds transferId
  payloads : (rootsOf (jobs.map Job.work) transferId).length = n
  done : ∀ j ∈ jobs, j.work.payload.transferId = transferId → j.phase = .done true

def FlushSound (jobs : List (Job β)) (results : KeyedStore String Completion) (f : FlushCall) :
    Prop :=
  match f.phase with
  | .collecting t => results.Holds f.transferId ∧ Tracks (jobs.map Job.work) f.transferId t
  | .returned n => Settled jobs results f.transferId n
  | _ => True

/-- The bookkeeping of one relay. -/
structure Relay.Sound (cfg : Config) (own : String) (r : Relay β) : Prop where
  works : submitted r = (accepted r).flatMap fun a ↦ works cfg own a.1 a.2
  distinct : ((accepted r).map fun a ↦ a.2.key).Nodup
  handed : r.handed.Perm (r.jobs.filterMap startedPayload)
  unsealed : ∀ transferId t, r.transfers transferId = some t →
    ¬ r.flushResults.Holds transferId ∧ Tracks (submitted r) transferId t
  fresh : ∀ transferId, r.transfers transferId = none → ¬ r.flushResults.Holds transferId →
    ∀ w ∈ submitted r, w.payload.transferId ≠ transferId
  results : ∀ transferId n, r.flushResults transferId = some (.result n) →
    Settled r.jobs r.flushResults transferId n
  flushes : ∀ f ∈ r.flushes, FlushSound r.jobs r.flushResults f

inductive Moves (cfg : Config) (own : String) (r : Relay β) : Relay β → Prop
  | stage (root : String) (p : Payload β) : ¬ r.flushResults.Holds p.transferId →
      (staged r p.transferId).checksums.find? (·.1 = (p.producerId, p.payloadId)) = none →
      Moves cfg own r (stage cfg own root p r)
  | apply (j : ℕ) (job : Job β) : r.jobs[j]? = some job → job.work.child = none →
      job.phase = .queued →
      Moves cfg own r { setPhase r j .running with handed := r.handed ++ [job.work.payload] }
  | advance (j : ℕ) (job : Job β) (phase : Phase) : r.jobs[j]? = some job →
      job.phase = .running ∨ job.phase = .queued ∧ job.work.child ≠ none → phase ≠ .queued →
      Moves cfg own r (setPhase r j phase)
  | flush (e : FlushEvent) (r' : Relay β) : flushStep r e = some r' → Moves cfg own r r'

section Transfers

variable {cfg : Config} {own root : String} {p : Payload β} {r : Relay β} {ws ws' : List (Work β)}
  {transferId : String} {t : RelayTransfer} {n : ℕ}

theorem rootsOf_eq_nil (h : ∀ w ∈ ws, w.payload.transferId ≠ transferId) :
    rootsOf ws transferId = [] := by
  rw [rootsOf, List.filter_eq_nil_iff]
  intro a ha
  obtain ⟨w, hw, he⟩ := List.mem_filterMap.mp ha
  split_ifs at he
  obtain rfl := Option.some.inj he
  simpa using h w hw

theorem rootsOf_append_of_ne (h : ∀ w ∈ ws', w.payload.transferId ≠ transferId) :
    rootsOf (ws ++ ws') transferId = rootsOf ws transferId := by
  have hnil := rootsOf_eq_nil h
  rw [rootsOf] at hnil ⊢
  rw [roots_append, List.filter_append, hnil, List.append_nil]
  rfl

theorem Tracks.append (h : Tracks ws transferId t)
    (hne : ∀ w ∈ ws', w.payload.transferId ≠ transferId) : Tracks (ws ++ ws') transferId t := by
  refine ⟨?_, fun j w hj hw ↦ ?_⟩
  · rw [rootsOf_append_of_ne hne]
    exact h.checksums
  · rcases Nat.lt_or_ge j ws.length with hlt | hge
    · rw [List.getElem?_append_left hlt] at hj
      exact h.futures j w hj hw
    · rw [List.getElem?_append_right hge] at hj
      exact absurd hw (hne w (List.mem_of_getElem? hj))

theorem Relay.Sound.tracks (h : r.Sound cfg own) (hs : ¬ r.flushResults.Holds transferId) :
    Tracks (submitted r) transferId (staged r transferId) := by
  cases ht : r.transfers transferId with
  | some t =>
    rw [staged, ht]
    exact (h.unsealed transferId t ht).2
  | none =>
    have hne := h.fresh transferId ht hs
    rw [staged, ht]
    refine ⟨?_, fun j w hj hw ↦ absurd hw (hne w (List.mem_of_getElem? hj))⟩
    rw [rootsOf_eq_nil hne]
    rfl

theorem Relay.Sound.key_new (h : r.Sound cfg own) (hs : ¬ r.flushResults.Holds p.transferId)
    (hf : (staged r p.transferId).checksums.find? (·.1 = (p.producerId, p.payloadId)) = none) :
    ∀ a ∈ accepted r, a.2.key ≠ p.key := by
  intro a ha he
  obtain ⟨ht, hp, hi⟩ : a.2.transferId = p.transferId ∧ a.2.producerId = p.producerId ∧
      a.2.payloadId = p.payloadId := by simpa [Payload.key] using he
  have hm : a ∈ rootsOf (submitted r) p.transferId :=
    List.mem_filter.mpr ⟨ha, by simpa using ht⟩
  rw [(h.tracks hs).checksums, List.find?_eq_none] at hf
  apply hf _ (List.mem_map_of_mem hm)
  simp [hp, hi]

theorem Settled.append {jobs jobs' : List (Job β)} {results : KeyedStore String Completion}
    (h : Settled jobs results transferId n)
    (hne : ∀ j ∈ jobs', j.work.payload.transferId ≠ transferId) :
    Settled (jobs ++ jobs') results transferId n := by
  refine ⟨h.sealed, ?_, fun j hj hw ↦ ?_⟩
  · rw [List.map_append, rootsOf_append_of_ne (by simpa using hne)]
    exact h.payloads
  · rcases List.mem_append.mp hj with hj | hj
    · exact h.done j hj hw
    · exact absurd hw (hne j hj)

/-- Only jobs that have not succeeded change, so settled transfers stay so. -/
theorem Settled.setPhase (h : Settled r.jobs r.flushResults transferId n) {j : ℕ} {job : Job β}
    (hj : r.jobs[j]? = some job) (hp : job.phase ≠ .done true) (phase : Phase) :
    Settled (setPhase r j phase).jobs r.flushResults transferId n := by
  refine ⟨h.sealed, ?_, fun job' hm hw ↦ ?_⟩
  · have hs := submitted_setPhase r j phase
    rw [submitted, submitted] at hs
    rw [hs]
    exact h.payloads
  · rcases mem_modify hm with hm | ⟨job₀, hj₀, rfl⟩
    · exact h.done job' hm hw
    · obtain rfl := Option.some.inj (hj.symm.trans hj₀)
      exact absurd (h.done job (List.mem_of_getElem? hj) hw) hp

end Transfers

section Moves

variable {cfg : Config} {own root : String} {p : Payload β} {r r' : Relay β} {transferId : String}
  {n : ℕ}

theorem stage_ne (hs : ¬ r.flushResults.Holds p.transferId) (ht : r.flushResults.Holds transferId) :
    ∀ j ∈ (works cfg own root p).map fun w ↦ (⟨w, .queued⟩ : Job β),
      j.work.payload.transferId ≠ transferId := by
  intro j hj
  obtain ⟨w, hw, rfl⟩ := List.mem_map.mp hj
  rw [(payload_of_mem_works hw).1]
  rintro rfl
  exact hs ht

theorem FlushSound.stage {f : FlushCall} (h : FlushSound r.jobs r.flushResults f)
    (hs : ¬ r.flushResults.Holds p.transferId) :
    FlushSound (stage cfg own root p r).jobs r.flushResults f := by
  unfold FlushSound at h ⊢
  split at h
  · refine ⟨h.1, ?_⟩
    rw [ZmqRelay.stage, List.map_append]
    refine h.2.append fun w hw ↦ ?_
    obtain ⟨j, hj, rfl⟩ := List.mem_map.mp hw
    exact stage_ne hs h.1 j hj
  · exact h.append (stage_ne hs h.sealed)
  · trivial

theorem stage_sound (h : r.Sound cfg own) (hs : ¬ r.flushResults.Holds p.transferId)
    (hf : (staged r p.transferId).checksums.find? (·.1 = (p.producerId, p.payloadId)) = none) :
    (stage cfg own root p r).Sound cfg own where
  works := by
    rw [accepted_stage, submitted_stage, List.flatMap_append, ← h.works]
    simp
  distinct := by
    rw [accepted_stage, List.map_append, List.map_singleton, List.nodup_append_comm,
      List.singleton_append, List.nodup_cons]
    refine ⟨fun hm ↦ ?_, h.distinct⟩
    obtain ⟨a, ha, he⟩ := List.mem_map.mp hm
    exact h.key_new hs hf a ha he
  handed := by
    have hnew : ((works cfg own root p).map fun w ↦ (⟨w, .queued⟩ : Job β)).filterMap
        startedPayload = [] := by
      rw [List.filterMap_map, List.filterMap_eq_nil_iff]
      intro w _
      simp [startedPayload]
    rw [stage, List.filterMap_append, hnew, List.append_nil]
    exact h.handed
  unsealed := fun τ t ht ↦ by
    by_cases hτ : τ = p.transferId
    · subst hτ
      obtain rfl : _ = t := Option.some.inj ((if_pos rfl).symm.trans ht)
      refine ⟨hs, ?_, fun j w hj hw ↦ ?_⟩
      · rw [submitted_stage, rootsOf, roots_append, roots_works, List.filter_append,
          (h.tracks hs).checksums, List.map_append]
        simp [rootsOf]
      · rw [submitted_stage] at hj
        rcases Nat.lt_or_ge j (submitted r).length with hlt | hge
        · rw [List.getElem?_append_left hlt] at hj
          exact List.mem_append_left _ ((h.tracks hs).futures j w hj hw)
        · rw [List.getElem?_append_right hge] at hj
          have hlt := (List.getElem?_eq_some_iff.mp hj).1
          refine List.mem_append_right _ (List.mem_range'_1.mpr ?_)
          rw [submitted, List.length_map] at hge hlt
          omega
    · have ht' : r.transfers τ = some t := (if_neg hτ).symm.trans ht
      refine ⟨(h.unsealed τ t ht').1, ?_⟩
      rw [submitted_stage]
      refine (h.unsealed τ t ht').2.append fun w hw ↦ ?_
      rw [(payload_of_mem_works hw).1]
      exact Ne.symm hτ
  fresh := fun τ ht hτ w hw ↦ by
    by_cases he : τ = p.transferId
    · subst he
      cases (if_pos rfl).symm.trans ht
    · rw [submitted_stage] at hw
      rcases List.mem_append.mp hw with hw | hw
      · exact h.fresh τ ((if_neg he).symm.trans ht) hτ w hw
      · rw [(payload_of_mem_works hw).1]
        exact Ne.symm he
  results := fun τ n hn ↦ by
    have hset := h.results τ n hn
    exact hset.append (stage_ne hs hset.sealed)
  flushes := fun f hf' ↦ (h.flushes f hf').stage hs

/-- A phase may change when the apply function has been given the payload, or
is now, or has nothing to do with the job. -/
theorem setPhase_sound (h : r.Sound cfg own) {j : ℕ} {job : Job β} (hj : r.jobs[j]? = some job)
    (hp : job.phase ≠ .done true) (phase : Phase) {handed : List (Payload β)}
    (hh : handed.Perm ((setPhase r j phase).jobs.filterMap startedPayload)) :
    Relay.Sound cfg own { setPhase r j phase with handed := handed } := by
  have hs : submitted { setPhase r j phase with handed := handed } = submitted r :=
    submitted_setPhase r j phase
  refine ⟨?_, ?_, hh, fun τ t ht ↦ ?_, fun τ ht hτ ↦ ?_, fun τ n hn ↦ ?_, fun f hf ↦ ?_⟩
  · rw [accepted, hs]
    exact h.works
  · rw [accepted, hs]
    exact h.distinct
  · rw [hs]
    exact h.unsealed τ t ht
  · rw [hs]
    exact h.fresh τ ht hτ
  · exact (h.results τ n hn).setPhase hj hp phase
  · have hfs := h.flushes f hf
    unfold FlushSound at hfs ⊢
    split at hfs
    · refine ⟨hfs.1, ?_⟩
      rw [show (setPhase r j phase).jobs.map Job.work = r.jobs.map Job.work from hs]
      exact hfs.2
    · exact hfs.setPhase hj hp phase
    · trivial

theorem apply_sound (h : r.Sound cfg own) {j : ℕ} {job : Job β} (hj : r.jobs[j]? = some job)
    (hc : job.work.child = none) (hq : job.phase = .queued) :
    Relay.Sound cfg own
      { setPhase r j .running with handed := r.handed ++ [job.work.payload] } := by
  have hperm := filterMap_set_perm startedPayload hj { job with phase := .running }
  simp only [startedPayload, hc, hq, ne_eq, not_true_eq_false, and_false, if_false,
    Option.toList_none, List.append_nil, Option.isNone_none, reduceCtorEq, not_false_eq_true,
    and_self, if_true, Option.toList_some] at hperm
  refine setPhase_sound h hj (by simp [hq]) .running ?_
  rw [setPhase, modify_eq_set hj]
  exact (h.handed.append_right _).trans hperm.symm

theorem advance_sound (h : r.Sound cfg own) {j : ℕ} {job : Job β} (hj : r.jobs[j]? = some job)
    (hp : job.phase = .running ∨ job.phase = .queued ∧ job.work.child ≠ none) {phase : Phase}
    (hphase : phase ≠ .queued) : (setPhase r j phase).Sound cfg own := by
  have hsame : startedPayload { job with phase := phase } = startedPayload job := by
    rcases hp with hp | ⟨hp, hc⟩
    · simp [startedPayload, hp, hphase]
    · simp [startedPayload, hp, Option.isNone_iff_eq_none, hc]
  have hperm := filterMap_set_perm startedPayload hj { job with phase := phase }
  rw [hsame, List.perm_append_right_iff] at hperm
  refine setPhase_sound h hj ?_ phase ?_
  · rcases hp with hp | ⟨hp, -⟩ <;> simp [hp]
  · rw [setPhase, modify_eq_set hj]
    exact h.handed.trans hperm.symm

/-- Flushes of a transfer stay as they are when others are sealed or get results. -/
theorem FlushSound.mono {jobs : List (Job β)} {results results' : KeyedStore String Completion}
    {f : FlushCall} (h : FlushSound jobs results f)
    (hr : ∀ τ, results.Holds τ → results'.Holds τ) : FlushSound jobs results' f := by
  unfold FlushSound at h ⊢
  split at h
  · exact ⟨hr _ h.1, h.2⟩
  · exact ⟨hr _ h.sealed, h.payloads, h.done⟩
  · trivial

theorem sealTransfer_sound (h : r.Sound cfg own) (τ : String) :
    (sealTransfer r τ).1.Sound cfg own ∧ ∀ f : FlushCall, f.transferId = τ →
      FlushSound r.jobs (sealTransfer r τ).1.flushResults
        { f with phase := (sealTransfer r τ).2 } := by
  unfold sealTransfer
  split_ifs with hs
  · exact ⟨h, fun f _ ↦ trivial⟩
  · have hmono (σ : String) (hσ : r.flushResults.Holds σ) :
        (r.flushResults.write τ .pending).Holds σ := by
      rw [KeyedStore.holds_write]
      exact .inr hσ
    refine ⟨⟨h.works, h.distinct, h.handed, fun σ t ht ↦ ?_, fun σ ht hσ ↦ ?_, fun σ n hn ↦ ?_,
      fun f hf ↦ (h.flushes f hf).mono hmono⟩, ?_⟩
    · simp only [KeyedStore.clear, List.mem_singleton] at ht
      split_ifs at ht with he
      obtain ⟨hσ, htr⟩ := h.unsealed σ t ht
      refine ⟨?_, htr⟩
      rw [KeyedStore.holds_write]
      exact not_or.mpr ⟨he, hσ⟩
    · rw [KeyedStore.holds_write, not_or] at hσ
      simp only [KeyedStore.clear, List.mem_singleton, hσ.1, if_false] at ht
      exact h.fresh σ ht hσ.2
    · simp only [KeyedStore.write] at hn
      split_ifs at hn
      · cases hn
      · obtain ⟨hσ, hp, hd⟩ := h.results σ n hn
        exact ⟨hmono σ hσ, hp, hd⟩
    · rintro f rfl
      refine ⟨?_, h.tracks hs⟩
      rw [KeyedStore.holds_write]
      exact .inl rfl

theorem withFlushes_sound (h : r.Sound cfg own) {fs : List FlushCall}
    (hf : ∀ f ∈ fs, FlushSound r.jobs r.flushResults f) :
    Relay.Sound cfg own { r with flushes := fs } :=
  ⟨h.works, h.distinct, h.handed, h.unsealed, h.fresh, h.results, hf⟩

theorem setFlush_sound (h : r.Sound cfg own) {i : ℕ} {phase : FlushPhase}
    (hf : ∀ f, r.flushes[i]? = some f →
      FlushSound r.jobs r.flushResults { f with phase := phase }) :
    (setFlush r i phase).Sound cfg own := by
  refine withFlushes_sound h fun f hm ↦ ?_
  rcases mem_modify hm with hm | ⟨f₀, hf₀, rfl⟩
  · exact h.flushes f hm
  · exact hf f₀ hf₀

theorem write_sound (h : r.Sound cfg own) {τ : String} {c : Completion}
    (hs : r.flushResults.Holds τ)
    (hc : ∀ n, c = .result n → Settled r.jobs r.flushResults τ n) :
    Relay.Sound cfg own { r with flushResults := r.flushResults.write τ c } := by
  have hiff (σ : String) : (r.flushResults.write τ c).Holds σ ↔ r.flushResults.Holds σ := by
    rw [KeyedStore.holds_write, or_iff_right_iff_imp]
    rintro rfl
    exact hs
  refine ⟨h.works, h.distinct, h.handed, fun σ t ht ↦ ?_, fun σ ht hσ ↦ ?_, fun σ n hn ↦ ?_,
    fun f hf ↦ (h.flushes f hf).mono fun σ hσ ↦ (hiff σ).mpr hσ⟩
  · rw [hiff]
    exact h.unsealed σ t ht
  · rw [hiff] at hσ
    exact h.fresh σ ht hσ
  · have hset : Settled r.jobs r.flushResults σ n := by
      simp only [KeyedStore.write] at hn
      split_ifs at hn with he
      · subst he
        exact hc n (Option.some.inj hn)
      · exact h.results σ n hn
    exact ⟨(hiff σ).mpr hset.sealed, hset.payloads, hset.done⟩

theorem succeeded_iff {j : ℕ} :
    succeeded r j = true ↔ ∃ job, r.jobs[j]? = some job ∧ job.phase = .done true := by
  simp [succeeded]

theorem Tracks.settled {τ : String} {t : RelayTransfer} (ht : Tracks (submitted r) τ t)
    (hs : r.flushResults.Holds τ) (hall : t.futures.all (succeeded r)) :
    Settled r.jobs r.flushResults τ t.checksums.length where
  sealed := hs
  payloads := by
    rw [ht.checksums, List.length_map]
    rfl
  done := fun job hm hτ ↦ by
    obtain ⟨j, hj⟩ := List.mem_iff_getElem?.mp hm
    have hw : (submitted r)[j]? = some job.work := by rw [submitted, List.getElem?_map, hj]; rfl
    obtain ⟨job', hj', hd⟩ := succeeded_iff.mp (List.all_eq_true.mp hall j (ht.futures j _ hw hτ))
    obtain rfl := Option.some.inj (hj.symm.trans hj')
    exact hd

theorem finishFlush_sound (h : r.Sound cfg own) {i : ℕ} {f : FlushCall} {t : RelayTransfer}
    (hi : r.flushes[i]? = some f) (hf : f.phase = .collecting t) :
    (finishFlush r i f.transferId t).Sound cfg own := by
  have hfs := h.flushes f (List.mem_of_getElem? hi)
  unfold FlushSound at hfs
  rw [hf] at hfs
  obtain ⟨hs, ht⟩ := hfs
  unfold finishFlush
  split_ifs with hall
  · have hset := ht.settled hs hall
    have hw := write_sound h hs (c := .result t.checksums.length)
      fun n hn ↦ by cases hn; exact hset
    refine setFlush_sound hw fun g hg ↦ ?_
    obtain rfl := Option.some.inj (hi.symm.trans hg)
    refine ⟨?_, hset.payloads, hset.done⟩
    rw [KeyedStore.holds_write]
    exact .inl rfl
  · exact setFlush_sound (write_sound h hs (by simp)) fun g _ ↦ trivial

theorem flushStep_sound (h : r.Sound cfg own) {e : FlushEvent} (he : flushStep r e = some r') :
    r'.Sound cfg own := by
  cases e with
  | call τ expected =>
    obtain rfl := Option.some.inj he
    by_cases hc : r.flushResults.Holds τ ∨ ready r ⟨τ, expected, .waiting⟩
    · simp only [if_pos hc]
      obtain ⟨hseal, hnew⟩ := sealTransfer_sound h τ
      have hfs : (sealTransfer r τ).1.flushes = r.flushes ∧
          (sealTransfer r τ).1.jobs = r.jobs := by
        unfold sealTransfer
        split_ifs <;> exact ⟨rfl, rfl⟩
      refine withFlushes_sound hseal fun f hf ↦ ?_
      rcases List.mem_append.mp hf with hf | hf
      · exact hseal.flushes f hf
      · obtain rfl := List.mem_singleton.mp hf
        rw [hfs.2]
        exact hnew ⟨τ, expected, .waiting⟩ rfl
    · simp only [if_neg hc]
      refine withFlushes_sound h fun f hf ↦ ?_
      rcases List.mem_append.mp hf with hf | hf
      · exact h.flushes f hf
      · obtain rfl := List.mem_singleton.mp hf
        trivial
  | wake i =>
    obtain ⟨f, hi, he⟩ := Option.bind_eq_some_iff.mp he
    split_ifs at he
    obtain rfl := Option.some.inj he
    obtain ⟨hseal, hnew⟩ := sealTransfer_sound h f.transferId
    have hfs : (sealTransfer r f.transferId).1.flushes = r.flushes ∧
        (sealTransfer r f.transferId).1.jobs = r.jobs := by
      unfold sealTransfer
      split_ifs <;> exact ⟨rfl, rfl⟩
    refine setFlush_sound hseal fun g hg ↦ ?_
    rw [hfs.1] at hg
    obtain rfl := Option.some.inj (hi.symm.trans hg)
    rw [hfs.2]
    exact hnew f rfl
  | timeout i =>
    obtain ⟨f, -, he⟩ := Option.bind_eq_some_iff.mp he
    split_ifs at he
    obtain rfl := Option.some.inj he
    exact setFlush_sound h fun _ _ ↦ trivial
  | finish i =>
    obtain ⟨f, hi, he⟩ := Option.bind_eq_some_iff.mp he
    split at he
    next t hf =>
      split_ifs at he
      obtain rfl := Option.some.inj he
      exact finishFlush_sound h hi hf
    next =>
      split at he
      next n hn =>
        obtain rfl := Option.some.inj he
        refine setFlush_sound h fun g hg ↦ ?_
        obtain rfl := Option.some.inj (hi.symm.trans hg)
        exact h.results _ n hn
      next =>
        obtain rfl := Option.some.inj he
        exact setFlush_sound h fun _ _ ↦ trivial
      · cases he
    · cases he

theorem Moves.sound (h : r.Sound cfg own) (hm : Moves cfg own r r') : r'.Sound cfg own := by
  cases hm with
  | stage root p hs hf => exact stage_sound h hs hf
  | apply j job hj hc hq => exact apply_sound h hj hc hq
  | advance j job phase hj hp hphase => exact advance_sound h hj hp hphase
  | flush e _ he => exact flushStep_sound h he

theorem flushStep_frame {e : FlushEvent} (he : flushStep r e = some r') :
    r'.jobs = r.jobs ∧ r'.handed = r.handed ∧
      ∀ τ, r.flushResults.Holds τ → r'.flushResults.Holds τ := by
  have hseal (σ : String) : (sealTransfer r σ).1.jobs = r.jobs ∧
      (sealTransfer r σ).1.handed = r.handed ∧
      ∀ τ, r.flushResults.Holds τ → (sealTransfer r σ).1.flushResults.Holds τ := by
    unfold sealTransfer
    split_ifs
    · exact ⟨rfl, rfl, fun _ h ↦ h⟩
    · refine ⟨rfl, rfl, fun τ h ↦ ?_⟩
      rw [KeyedStore.holds_write]
      exact .inr h
  cases e with
  | call σ expected =>
    obtain rfl := Option.some.inj he
    by_cases hc : r.flushResults.Holds σ ∨ ready r ⟨σ, expected, .waiting⟩
    · simp only [if_pos hc]
      exact hseal σ
    · simp only [if_neg hc]
      exact ⟨trivial, trivial, fun _ h ↦ h⟩
  | wake i =>
    obtain ⟨f, -, he⟩ := Option.bind_eq_some_iff.mp he
    split_ifs at he
    obtain rfl := Option.some.inj he
    exact hseal f.transferId
  | timeout i =>
    obtain ⟨f, -, he⟩ := Option.bind_eq_some_iff.mp he
    split_ifs at he
    obtain rfl := Option.some.inj he
    exact ⟨rfl, rfl, fun _ h ↦ h⟩
  | finish i =>
    obtain ⟨f, -, he⟩ := Option.bind_eq_some_iff.mp he
    split at he
    next t _ =>
      split_ifs at he
      obtain rfl := Option.some.inj he
      have hw (c : Completion) (τ : String) (h : r.flushResults.Holds τ) :
          (r.flushResults.write f.transferId c).Holds τ := by
        rw [KeyedStore.holds_write]
        exact .inr h
      unfold finishFlush
      split_ifs
      · exact ⟨rfl, rfl, hw _⟩
      · exact ⟨rfl, rfl, hw _⟩
    next =>
      split at he
      next =>
        obtain rfl := Option.some.inj he
        exact ⟨rfl, rfl, fun _ h ↦ h⟩
      next =>
        obtain rfl := Option.some.inj he
        exact ⟨rfl, rfl, fun _ h ↦ h⟩
      · cases he
    · cases he

theorem Moves.settled {τ : String} (hm : Moves cfg own r r')
    (h : Settled r.jobs r.flushResults τ n) : Settled r'.jobs r'.flushResults τ n ∧
      r'.handed.filter (·.transferId = τ) = r.handed.filter (·.transferId = τ) := by
  cases hm with
  | stage root p hs hf => exact ⟨h.append (stage_ne hs h.sealed), rfl⟩
  | apply j job hj hc hq =>
    refine ⟨h.setPhase hj (by simp [hq]) .running, ?_⟩
    have hne : job.work.payload.transferId ≠ τ := fun he ↦ by
      cases hq.symm.trans (h.done job (List.mem_of_getElem? hj) he)
    simp [List.filter_append, hne]
  | advance j job phase hj hp hphase =>
    refine ⟨h.setPhase hj ?_ phase, rfl⟩
    rcases hp with hp | ⟨hp, -⟩ <;> simp [hp]
  | flush e _ he =>
    obtain ⟨hj, hh, hr⟩ := flushStep_frame he
    rw [hj, hh]
    exact ⟨⟨hr τ h.sealed, h.payloads, h.done⟩, rfl⟩

end Moves

end NemoRL.Utils.ZmqRelay
