import Mathlib
import NemoRL.Foundations.Positions
import NemoRL.Generation.SparseRefit

namespace NemoRL.Generation.SparseRefit

open Foundations.Positions Foundations.Transition

variable {κ χ β : Type}

section Phases

variable {jobs : List (Job κ χ β)} {payloads : List (Recorded κ χ β)} {p : Phase} {f j : ℕ}

theorem phaseAt_eq (h : jobs[f]? = some ⟨payloads, p⟩) : phaseAt jobs f = p := by
  simp [phaseAt, h]

theorem phaseAt_of_lt (h : f < jobs.length) : phaseAt jobs f = jobs[f].phase := by
  simp [phaseAt, List.getElem?_eq_getElem h]

theorem phaseAt_append (jobs : List (Job κ χ β)) (payloads : List (Recorded κ χ β)) (f : ℕ) :
    phaseAt (jobs ++ [⟨payloads, .queued⟩]) f = phaseAt jobs f := by
  unfold phaseAt
  rcases Nat.lt_trichotomy f jobs.length with h | h | h
  · rw [List.getElem?_append_left h]
  · simp [h]
  · rw [List.getElem?_eq_none (by simp; omega), List.getElem?_eq_none (by omega)]

theorem phaseAt_set (h : j < jobs.length) (payloads : List (Recorded κ χ β)) (p : Phase) (f : ℕ) :
    phaseAt (jobs.set j ⟨payloads, p⟩) f = if f = j then p else phaseAt jobs f := by
  unfold phaseAt
  by_cases hf : f = j
  · subst hf
    simp [List.getElem?_set_self h]
  · rw [List.getElem?_set_ne (Ne.symm hf), if_neg hf]

theorem collect_done {fs : List ℕ} {n : ℕ}
    (h : collectRefitApplyResults jobs fs = some (some n)) :
    ∀ f ∈ fs, phaseAt jobs f = .done true := by
  induction fs generalizing n with
  | nil => simp
  | cons f fs ih =>
    unfold collectRefitApplyResults at h
    split at h
    next payloads hf =>
      obtain ⟨r, hr, hn⟩ := Option.map_eq_some_iff.mp h
      obtain ⟨m, rfl, -⟩ := Option.map_eq_some_iff.mp hn
      intro g hg
      rcases List.mem_cons.mp hg with rfl | hg
      · exact phaseAt_eq hf
      · exact ih hr g hg
    all_goals simp at h

end Phases

def batches (s : Receiver κ χ β) : List (List (Recorded κ χ β)) := s.jobs.map Job.payloads

/-- Each of the first `n` jobs, which hold what was recorded before the flush
began, has succeeded or is one the flush still waits for. -/
structure Drains (s : Receiver κ χ β) (f : Flush) (n : ℕ) : Prop where
  le : n ≤ s.jobs.length
  recorded : ((batches s).take n).flatten = s.recorded.take f.recorded
  windows : ∀ r ∈ s.recorded.take f.recorded, r.window < s.flushes.length
  awaited : ∀ j < n, f.phase = .raised ∨ phaseAt s.jobs j = .done true ∨
    f.phase = .collecting ∧ j ∈ f.futures

section Jobs

variable {s : Receiver κ χ β} {f : Flush} {n i : ℕ}

theorem batches_set {j : ℕ} {payloads : List (Recorded κ χ β)} {p : Phase}
    (hj : s.jobs[j]? = some ⟨payloads, p⟩) (q : Phase) :
    (s.jobs.set j ⟨payloads, q⟩).map Job.payloads = batches s :=
  map_set_of_eq Job.payloads hj _ rfl

theorem Drains.advance (hn : Drains s f n) {j : ℕ} {payloads : List (Recorded κ χ β)} {p q : Phase}
    (hj : s.jobs[j]? = some ⟨payloads, p⟩) (hp : p ≠ .done true)
    (handed : List (List (Recorded κ χ β))) :
    Drains { s with jobs := s.jobs.set j ⟨payloads, q⟩, handed := handed } f n := by
  refine ⟨?_, ?_, hn.windows, fun i hi ↦ ?_⟩
  · simpa using hn.le
  · rw [batches, batches_set hj]
    exact hn.recorded
  · rcases hn.awaited i hi with hr | hr | hr
    · exact .inl hr
    · refine .inr (.inl ?_)
      rw [phaseAt_set (List.getElem?_eq_some_iff.mp hj).1, if_neg, hr]
      rintro rfl
      exact hp ((phaseAt_eq hj).symm.trans hr)
    · exact .inr (.inr hr)

theorem mem_setPhase {p : FlushPhase} (hf : f ∈ (setPhase s i p).flushes) :
    f ∈ s.flushes ∨ ∃ g, s.flushes[i]? = some g ∧ f = { g with phase := p } := by
  obtain ⟨j, hj⟩ := List.mem_iff_getElem?.mp hf
  rw [setPhase, List.getElem?_modify] at hj
  obtain ⟨g, hg, rfl⟩ := Option.map_eq_some_iff.mp hj
  split_ifs with hij
  · exact .inr ⟨g, hij ▸ hg, rfl⟩
  · exact .inl (List.mem_of_getElem? hg)

end Jobs

variable [DecidableEq κ]

structure Sound (s : Receiver κ χ β) : Prop where
  recorded : (batches s).flatten ++ s.pendingPayloads = s.recorded
  handed : s.handed <+: batches s
  started : ∀ j, phaseAt s.jobs j = .queued ↔ s.handed.length ≤ j
  seen : ∀ r ∈ s.recorded, r.window = s.flushes.length →
    s.seenPayloads.lookup r.call.payloadKey = some r.call.checksum
  windows : ∀ r ∈ s.recorded, r.window ≤ s.flushes.length
  distinct : (s.recorded.map fun r ↦ (r.window, r.call.payloadKey)).Nodup
  flushes : ∀ f ∈ s.flushes, f.recorded ≤ s.recorded.length ∧ ∃ n, Drains s f n

section Bookkeeping

variable {cfg : Tuning} {s : Receiver κ χ β} {c : Call κ χ β} {f : Flush} {n i : ℕ}

theorem submit_sound (h : Sound s) : Sound (submitPendingSparsePayloads s) := by
  have hb : batches (submitPendingSparsePayloads s) = batches s ++ [s.pendingPayloads] := by
    simp [batches, submitPendingSparsePayloads]
  have hp (j : ℕ) : phaseAt (submitPendingSparsePayloads s).jobs j = phaseAt s.jobs j :=
    phaseAt_append s.jobs s.pendingPayloads j
  refine ⟨?_, ?_, ?_, h.seen, h.windows, h.distinct, fun f hf ↦ ⟨(h.flushes f hf).1, ?_⟩⟩
  · rw [hb]
    simpa [submitPendingSparsePayloads] using h.recorded
  · rw [hb]
    exact h.handed.trans (List.prefix_append _ _)
  · intro j
    rw [hp]
    exact h.started j
  · obtain ⟨n, hn⟩ := (h.flushes f hf).2
    refine ⟨n, ?_, ?_, hn.windows, fun j hj ↦ ?_⟩
    · have := hn.le
      simp only [submitPendingSparsePayloads, List.length_append]
      omega
    · rw [hb, List.take_append_of_le_length (by simpa [batches] using hn.le)]
      exact hn.recorded
    · rw [hp]
      exact hn.awaited j hj

theorem record_sound (h : Sound s) (hc : s.seenPayloads.lookup c.payloadKey = none) :
    Sound (record cfg s c) := by
  have hq : Sound { s with
      seenPayloads := s.seenPayloads.insert c.payloadKey c.checksum
      verificationCandidates := s.verificationCandidates + c.verificationCandidates
      pendingPayloads := s.pendingPayloads ++ [⟨c, s.flushes.length⟩]
      recorded := s.recorded ++ [⟨c, s.flushes.length⟩] } := by
    -- No payload recorded since the last flush began has the new key.
    have hnew : ∀ r ∈ s.recorded, r.window = s.flushes.length → r.call.payloadKey ≠ c.payloadKey := by
      intro r hr hw hk
      have hl := h.seen r hr hw
      rw [hk, hc] at hl
      cases hl
    refine ⟨?_, h.handed, h.started, ?_, ?_, ?_, ?_⟩
    · rw [← h.recorded]
      simp [batches]
    · intro r hr hw
      rcases List.mem_append.mp hr with hr | hr
      · rw [AList.lookup_insert_ne (hnew r hr hw)]
        exact h.seen r hr hw
      · obtain rfl := List.mem_singleton.mp hr
        exact AList.lookup_insert _
    · intro r hr
      rcases List.mem_append.mp hr with hr | hr
      · exact h.windows r hr
      · obtain rfl := List.mem_singleton.mp hr
        exact le_rfl
    · rw [List.map_append, List.map_singleton, List.nodup_append_comm, List.singleton_append,
        List.nodup_cons]
      refine ⟨fun hm ↦ ?_, h.distinct⟩
      obtain ⟨r, hr, he⟩ := List.mem_map.mp hm
      obtain ⟨hw, hk⟩ := Prod.mk.inj he
      exact hnew r hr hw hk
    · intro f hf
      obtain ⟨hl, n, hn⟩ := h.flushes f hf
      have ht (r : Recorded κ χ β) :
          (s.recorded ++ [r]).take f.recorded = s.recorded.take f.recorded :=
        List.take_append_of_le_length hl
      refine ⟨by simp only [List.length_append]; omega, n, hn.le, ?_, ?_, hn.awaited⟩
      · exact hn.recorded.trans (ht _).symm
      · rw [ht]
        exact hn.windows
  unfold record
  simp only
  split_ifs
  · exact submit_sound hq
  · exact hq

theorem Sound.frame {t : Receiver κ χ β} (h : Sound s) (hj : t.jobs = s.jobs)
    (hp : t.pendingPayloads = s.pendingPayloads) (hs : t.seenPayloads = s.seenPayloads)
    (hf : t.flushes = s.flushes) (hr : t.recorded = s.recorded) (hh : t.handed = s.handed) :
    Sound t := by
  obtain ⟨_, _, _, _, _, _, _, _, _, _⟩ := t
  subst hj hp hs hf hr hh
  exact ⟨h.recorded, h.handed, h.started, h.seen, h.windows, h.distinct, fun f hf ↦
    have ⟨hl, n, hn⟩ := h.flushes f hf
    ⟨hl, n, hn.le, hn.recorded, hn.windows, hn.awaited⟩⟩

theorem proceed_sound (h : Sound s) (hc : s.seenPayloads.lookup c.payloadKey = none)
    {t : Receiver κ χ β} (ht : proceed cfg s c = some t) : Sound t := by
  unfold proceed at ht
  obtain ⟨r, -, ht⟩ := Option.bind_eq_some_iff.mp ht
  have hd : Sound { s with applyFutures := s.applyFutures.dropWhile (isDone s.jobs) } :=
    h.frame rfl rfl rfl rfl rfl rfl
  cases r with
  | none =>
    obtain rfl := Option.some.inj ht
    exact hd.frame rfl rfl rfl rfl rfl rfl
  | some n =>
    obtain rfl := Option.some.inj ht
    exact (record_sound hd hc).frame rfl rfl rfl rfl rfl rfl

theorem started_length (h : Sound s) {j : ℕ} (hq : phaseAt s.jobs j = .queued)
    (hd : (List.range j).all (isDone s.jobs)) : s.handed.length = j := by
  refine Nat.le_antisymm ((h.started j).mp hq) (Nat.le_of_not_lt fun hlt ↦ ?_)
  have hdone := List.all_eq_true.mp hd s.handed.length (List.mem_range.mpr hlt)
  rw [isDone, (h.started s.handed.length).mpr le_rfl] at hdone
  cases hdone

theorem start_sound (h : Sound s) {j : ℕ} {payloads : List (Recorded κ χ β)}
    (hj : s.jobs[j]? = some ⟨payloads, .queued⟩) (hd : (List.range j).all (isDone s.jobs)) :
    Sound { s with
      jobs := s.jobs.set j ⟨payloads, .applying⟩
      handed := s.handed ++ [payloads] } := by
  have hlen := started_length h (phaseAt_eq hj) hd
  have hlt : j < s.jobs.length := (List.getElem?_eq_some_iff.mp hj).1
  refine ⟨?_, ?_, fun i ↦ ?_, h.seen, h.windows, h.distinct, fun f hf ↦ ?_⟩
  · rw [batches, batches_set hj]
    exact h.recorded
  · have hnext : (batches s)[s.handed.length]? = some payloads := by
      rw [hlen, batches, List.getElem?_map, hj]
      rfl
    obtain ⟨rest, hrest⟩ := h.handed
    rw [← hrest, List.getElem?_append_right le_rfl, Nat.sub_self] at hnext
    obtain ⟨a, rest, rfl⟩ := List.exists_cons_of_ne_nil (l := rest) (by rintro rfl; simp at hnext)
    obtain rfl : a = payloads := by simpa using hnext
    rw [batches, batches_set hj, ← hrest]
    exact ⟨rest, by simp⟩
  · rw [phaseAt_set hlt, List.length_append, List.length_singleton, hlen]
    split_ifs with hi
    · simp [hi]
    · rw [h.started i, hlen]
      omega
  · obtain ⟨hl, n, hn⟩ := h.flushes f hf
    exact ⟨hl, n, hn.advance hj (by simp) _⟩

theorem finish_sound (h : Sound s) {j : ℕ} {payloads : List (Recorded κ χ β)}
    (hj : s.jobs[j]? = some ⟨payloads, .applying⟩) (ok : Bool) :
    Sound { s with jobs := s.jobs.set j ⟨payloads, .done ok⟩ } := by
  refine ⟨?_, ?_, fun i ↦ ?_, h.seen, h.windows, h.distinct, fun f hf ↦ ?_⟩
  · rw [batches, batches_set hj]
    exact h.recorded
  · rw [batches, batches_set hj]
    exact h.handed
  · rw [phaseAt_set (List.getElem?_eq_some_iff.mp hj).1]
    split_ifs with hi
    · have hs := h.started j
      rw [phaseAt_eq hj] at hs
      simpa [hi] using hs
    · exact h.started i
  · obtain ⟨hl, n, hn⟩ := h.flushes f hf
    exact ⟨hl, n, hn.advance hj (by simp) _⟩

theorem setPhase_sound (h : Sound s) (hf : s.flushes[i]? = some f) (p : FlushPhase)
    (hp : p = .raised ∨ f.phase ≠ .raised ∧
      (f.phase = .collecting → ∀ j ∈ f.futures, phaseAt s.jobs j = .done true)) :
    Sound (setPhase s i p) := by
  have hlen : (setPhase s i p).flushes.length = s.flushes.length := List.length_modify _ _ _
  refine ⟨h.recorded, h.handed, h.started, ?_, ?_, h.distinct, fun g hg ↦ ?_⟩
  · rw [hlen]
    exact h.seen
  · rw [hlen]
    exact h.windows
  · rcases mem_setPhase hg with hg | ⟨f', hf', rfl⟩
    · obtain ⟨hl, n, hn⟩ := h.flushes g hg
      exact ⟨hl, n, hn.le, hn.recorded, hlen ▸ hn.windows, hn.awaited⟩
    · obtain rfl := Option.some.inj (hf.symm.trans hf')
      obtain ⟨hl, n, hn⟩ := h.flushes f (List.mem_of_getElem? hf)
      refine ⟨hl, n, hn.le, hn.recorded, hlen ▸ hn.windows, fun j hj ↦ ?_⟩
      rcases hp with rfl | ⟨hr, hc⟩
      · exact .inl rfl
      · refine .inr (.inl ?_)
        rcases hn.awaited j hj with hd | hd | ⟨hd, hm⟩
        · exact absurd hd hr
        · exact hd
        · exact hc hd j hm

theorem beginFlush_sound (h : Sound s)
    (hd : ∀ j < s.jobs.length, j ∉ s.applyFutures → phaseAt s.jobs j = .done true) :
    Sound (beginFlush cfg s) := by
  -- Once the pending payloads are submitted, the jobs hold all that was recorded.
  have hsub : ∀ t : Receiver κ χ β, Sound t → t.pendingPayloads = [] →
      (∀ j < t.jobs.length, j ∉ t.applyFutures → phaseAt t.jobs j = .done true) →
      ∀ f : Flush, f.futures = t.applyFutures → f.phase = .collecting →
        f.recorded = t.recorded.length →
        Sound { t with applyFutures := [], flushes := t.flushes ++ [f] } := by
    intro t ht hp hd f hf hc hr
    refine ⟨ht.recorded, ht.handed, ht.started, ?_, ?_, ht.distinct, fun g hg ↦ ?_⟩
    · intro r hr hw
      have := ht.windows r hr
      simp only [List.length_append, List.length_singleton] at hw
      omega
    · intro r hr
      exact (ht.windows r hr).trans (by simp)
    · rcases List.mem_append.mp hg with hg | hg
      · obtain ⟨hl, n, hn⟩ := ht.flushes g hg
        exact ⟨hl, n, hn.le, hn.recorded,
          fun r hr ↦ (hn.windows r hr).trans_le (by simp), hn.awaited⟩
      · obtain rfl := List.mem_singleton.mp hg
        refine ⟨hr.le, t.jobs.length, le_rfl, ?_, ?_, fun j hj ↦ ?_⟩
        · have hall := ht.recorded
          rw [hp, List.append_nil] at hall
          rw [hr, List.take_length, List.take_of_length_le (by simp [batches])]
          exact hall
        · intro r hr
          have := ht.windows r (List.mem_of_mem_take hr)
          simp only [List.length_append, List.length_singleton]
          omega
        · by_cases hm : j ∈ t.applyFutures
          · exact .inr (.inr ⟨hc, hf ▸ hm⟩)
          · exact .inr (.inl (hd j hj hm))
  unfold beginFlush
  simp only
  split_ifs with hp
  · refine hsub _ (submit_sound h) rfl (fun j hj hm ↦ ?_) _ rfl rfl rfl
    simp only [submitPendingSparsePayloads, List.mem_append, List.mem_singleton, not_or,
      List.length_append, List.length_singleton] at hj hm ⊢
    rw [phaseAt_append]
    exact hd j (by omega) hm.1
  · exact hsub s h (not_not.mp hp) hd _ rfl rfl rfl

theorem clear_sound (h : Sound s) (hf : f ∈ s.flushes) (hr : f.recorded = s.recorded.length) :
    Sound { s with seenPayloads := ∅, verificationCandidates := 0 } := by
  refine ⟨h.recorded, h.handed, h.started, fun r hm hw ↦ ?_, h.windows, h.distinct, fun g hg ↦ ?_⟩
  · obtain ⟨-, n, hn⟩ := h.flushes f hf
    have hlt := hn.windows r (by rwa [hr, List.take_length])
    exact absurd hw hlt.ne
  · obtain ⟨hl, n, hn⟩ := h.flushes g hg
    exact ⟨hl, n, hn.le, hn.recorded, hn.windows, hn.awaited⟩

end Bookkeeping

theorem init_sound : Sound (init : Receiver κ χ β) where
  recorded := rfl
  handed := List.prefix_rfl
  started := fun j ↦ by simp [init, phaseAt]
  seen := fun r hr ↦ by cases hr
  windows := fun r hr ↦ by cases hr
  distinct := List.nodup_nil
  flushes := fun f hf ↦ by cases hf

theorem Sound.handed_eq {s : Receiver κ χ β} (h : Sound s) (hp : s.pendingPayloads = [])
    (hq : ∀ j ∈ s.jobs, j.phase ≠ .queued) : s.handed.flatten = s.recorded := by
  have hlen : s.jobs.length ≤ s.handed.length := by
    by_contra hlt
    have hn := Nat.lt_of_not_le hlt
    apply hq _ (List.getElem_mem hn)
    rw [← phaseAt_of_lt hn]
    exact (h.started _).mpr le_rfl
  have hall : s.handed = batches s := h.handed.eq_of_length_le (by simpa [batches] using hlen)
  rw [← h.recorded, hp, List.append_nil, hall]

theorem Sound.applied {s : Receiver κ χ β} (h : Sound s) {f : Flush} (hf : f ∈ s.flushes)
    {response : FlushResponse} (hp : f.phase = .returned response) {r : Recorded κ χ β}
    (hr : r ∈ s.recorded.take f.recorded) :
    r ∈ s.handed.flatten ∧ ∃ j ∈ s.jobs, j.phase = .done true ∧ r ∈ j.payloads := by
  obtain ⟨-, n, hn⟩ := h.flushes f hf
  rw [← hn.recorded] at hr
  obtain ⟨payloads, hm, hr⟩ := List.mem_flatten.mp hr
  obtain ⟨i, hi, hpay⟩ := List.mem_take_iff_getElem.mp hm
  have hlt : i < s.jobs.length := by have := hn.le; omega
  have hdone : phaseAt s.jobs i = .done true := by
    rcases hn.awaited i (by omega) with hd | hd | hd
    · cases hp.symm.trans hd
    · exact hd
    · cases hp.symm.trans hd.1
  have hjob : s.jobs[i].payloads = payloads := by simpa [batches] using hpay
  refine ⟨List.mem_flatten.mpr ⟨payloads, ?_, hr⟩, s.jobs[i], List.getElem_mem hlt, ?_, hjob ▸ hr⟩
  · -- A job that is done is one of those handed over.
    have hlen : i < s.handed.length := by
      by_contra hge
      have hq := (h.started i).mpr (Nat.le_of_not_lt hge)
      rw [hdone] at hq
      cases hq
    rw [← hpay, ← h.handed.getElem hlen]
    exact List.getElem_mem hlen
  · rw [← phaseAt_of_lt hlt]
    exact hdone

variable [DecidableEq χ]

/-- The steps after which the receiver still does what it is for. A call that
has waited finds its key unrecorded. No staging fails. A flush begins when
every batch whose future has left the list was applied without error, and
clears the table when nothing was recorded since. -/
def Careful (cfg : Tuning) (s : Receiver κ χ β) : Event κ χ β → Prop
  | .wake i => ∀ c ∈ s.waiting[i]?, s.seenPayloads.lookup c.payloadKey = none
  | .start _ staged => cfg.workersShareNode → staged
  | .flush => ∀ j < s.jobs.length, j ∉ s.applyFutures → phaseAt s.jobs j = .done true
  | .clear i => ∀ f ∈ s.flushes[i]?, f.recorded = s.recorded.length
  | _ => True

instance (cfg : Tuning) (s : Receiver κ χ β) : ∀ e, Decidable (Careful cfg s e)
  | .wake _ => inferInstanceAs (Decidable (∀ c ∈ (_ : Option _), _))
  | .start _ _ => inferInstanceAs (Decidable (_ → _))
  | .flush => inferInstanceAs (Decidable (∀ j < _, _))
  | .clear _ => inferInstanceAs (Decidable (∀ f ∈ (_ : Option _), _))
  | .enqueue _ | .finish _ _ | .collect _ | .verify _ _ => inferInstanceAs (Decidable True)

theorem step_sound {cfg : Tuning} {s t : Receiver κ χ β} {e : Event κ χ β} (h : Sound s)
    (hc : Careful cfg s e) (ht : step cfg s e = some t) : Sound t := by
  cases e with
  | enqueue c =>
    simp only [step, enqueueSparsePayloadApply] at ht
    split at ht
    · obtain rfl := Option.some.inj ht
      exact h.frame rfl rfl rfl rfl rfl rfl
    next hn =>
      split_ifs at ht
      · obtain rfl := Option.some.inj ht
        exact h.frame rfl rfl rfl rfl rfl rfl
      · exact proceed_sound h hn ht
  | wake i =>
    obtain ⟨c, hi, ht⟩ := Option.bind_eq_some_iff.mp ht
    split_ifs at ht
    have hw : Sound { s with waiting := s.waiting.eraseIdx i } := h.frame rfl rfl rfl rfl rfl rfl
    exact proceed_sound hw (hc c hi) ht
  | start j staged =>
    simp only [step] at ht
    split at ht
    next payloads hj =>
      split_ifs at ht with hd hs
      · simp only [Bool.and_eq_true, Bool.not_eq_eq_eq_not, Bool.not_true] at hs
        have := hc hs.1
        rw [hs.2] at this
        cases this
      · obtain rfl := Option.some.inj ht
        exact start_sound h hj hd
    · cases ht
  | finish j ok =>
    simp only [step] at ht
    split at ht
    next payloads hj =>
      obtain rfl := Option.some.inj ht
      exact finish_sound h hj ok
    · cases ht
  | flush =>
    obtain rfl := Option.some.inj ht
    exact beginFlush_sound h hc
  | collect i =>
    simp only [step] at ht
    split at ht
    next f hf =>
      by_cases hp : f.phase = .collecting
      · rw [if_pos hp] at ht
        obtain ⟨r, hr, rfl⟩ := Option.map_eq_some_iff.mp ht
        cases r with
        | none => exact setPhase_sound h hf _ (.inl rfl)
        | some n => exact setPhase_sound h hf _ (.inr ⟨by simp [hp], fun _ ↦ collect_done hr⟩)
      · rw [if_neg hp] at ht
        cases ht
    · cases ht
  | verify i ok =>
    simp only [step] at ht
    split at ht
    next f hf =>
      by_cases hp : f.phase = .verifying
      · rw [if_pos hp] at ht
        obtain rfl := Option.some.inj ht
        exact setPhase_sound h hf _ (.inr ⟨by simp [hp], by simp [hp]⟩)
      · rw [if_neg hp] at ht
        cases ht
    · cases ht
  | clear i =>
    simp only [step] at ht
    split at ht
    next hf =>
      obtain rfl := Option.some.inj ht
      exact setPhase_sound (clear_sound h (List.mem_of_getElem? hf) (hc _ hf)) hf _
        (.inr ⟨by simp, by simp⟩)
    · cases ht

/-- What the queue is for. A window lies between the beginnings of two
flushes, and the collective gets the payloads in the order they were recorded. -/
structure ExactlyOnce (cfg : Tuning) (s : Receiver κ χ β) : Prop where
  distinct : (s.recorded.map fun r ↦ (r.window, r.call.payloadKey)).Nodup
  fifo : s.handed.flatten <+: s.recorded
  drained : s.pendingPayloads = [] → (∀ j ∈ s.jobs, j.phase ≠ .queued) →
    s.handed.flatten = s.recorded
  repeated : ∀ c, ∀ r ∈ s.recorded, r.window = s.flushes.length →
    r.call.payloadKey = c.payloadKey → step cfg s (.enqueue c) =
      some (answer s c (if r.call.checksum = c.checksum then .duplicate else .reused))
  flushed : ∀ f ∈ s.flushes, ∀ response, f.phase = .returned response →
    ∀ r ∈ s.recorded.take f.recorded, r ∈ s.handed.flatten ∧
      ∃ j ∈ s.jobs, j.phase = .done true ∧ r ∈ j.payloads

theorem Sound.exactlyOnce {s : Receiver κ χ β} (h : Sound s) (cfg : Tuning) :
    ExactlyOnce cfg s where
  distinct := h.distinct
  fifo := by
    rw [← h.recorded]
    obtain ⟨rest, hrest⟩ := h.handed
    exact ⟨rest.flatten ++ s.pendingPayloads, by simp [← hrest]⟩
  drained := fun hp hq ↦ h.handed_eq hp hq
  repeated := fun c r hr hw hk ↦ by
    have hl := h.seen r hr hw
    rw [hk] at hl
    simp only [step, enqueueSparsePayloadApply, hl, ite_not]
  flushed := fun f hf response hp r hr ↦ h.applied hf hp hr

/-- Along careful runs of concurrent calls, executor steps and flushes, every
payload recorded is handed over once and in order, and repeats are answered. -/
theorem careful_exactly_once (cfg : Tuning) {s : Receiver κ χ β}
    (h : ReachableBy (step cfg) Initial (Careful cfg) s) : ExactlyOnce cfg s := by
  have hs : Sound s := by
    apply h.invariant
    · rintro _ rfl
      exact init_sound
    · intro s e t hs hc ht
      exact step_sound hs hc ht
  exact hs.exactlyOnce cfg

/-- Two batches of which the second is repeated, up to a flush that returns. -/
theorem careful_exactly_once_repeat :
    ∃ s : Receiver ℕ ℕ Unit, ExactlyOnce ⟨1, 1, true⟩ s ∧
      s.handed.map (List.map fun r ↦ r.call.payloadKey) = [[0], [1]] ∧
      s.answers.map Prod.snd = [.accepted 0, .duplicate, .accepted 1] ∧
      s.flushes.map Flush.phase = [.returned ⟨2, 2, some 3⟩] :=
  ⟨_, careful_exactly_once ⟨1, 1, true⟩ (ReachableBy.run (show Initial init from rfl)
      [.enqueue ⟨(), 0, 7, 1⟩, .enqueue ⟨(), 1, 7, 2⟩, .enqueue ⟨(), 0, 7, 1⟩, .start 0 true,
        .finish 0 true, .wake 0, .flush, .start 1 true, .finish 1 true, .collect 0,
        .verify 0 true, .clear 0] (by decide)),
    by decide, by decide, by decide⟩

/-- A retry that waits beside its first try is recorded again; so is one that
comes after a flush has cleared a key it did not submit. A failed apply raises
to the call that finds it, and the flush after that returns. -/
theorem exactly_once_fails :
    (∃ s : Receiver ℕ ℕ Unit, exec (step ⟨1, 1, false⟩) init
        [.enqueue ⟨(), 0, 7, 0⟩, .enqueue ⟨(), 1, 7, 0⟩, .enqueue ⟨(), 1, 7, 0⟩,
          .start 0 true, .finish 0 true, .wake 0, .start 1 true, .finish 1 true, .wake 0,
          .start 2 true] = some s ∧
      s.handed.map (List.map fun r ↦ r.call.payloadKey) = [[0], [1], [1]] ∧
      s.flushes = [] ∧ ¬ ExactlyOnce ⟨1, 1, false⟩ s) ∧
    (∃ s : Receiver ℕ ℕ Unit, exec (step ⟨1, 1, false⟩) init
        [.enqueue ⟨(), 0, 7, 0⟩, .start 0 true, .finish 0 true, .flush, .enqueue ⟨(), 1, 7, 0⟩,
          .collect 0, .verify 0 true, .clear 0, .start 1 true, .finish 1 true,
          .enqueue ⟨(), 1, 7, 0⟩, .start 2 true] = some s ∧
      s.handed.map (List.map fun r ↦ r.call.payloadKey) = [[0], [1], [1]] ∧
      ¬ ExactlyOnce ⟨1, 1, false⟩ s) ∧
    ∃ s : Receiver ℕ ℕ Unit, exec (step ⟨1, 1, false⟩) init
        [.enqueue ⟨(), 0, 7, 0⟩, .start 0 true, .finish 0 false, .enqueue ⟨(), 1, 7, 0⟩, .flush,
          .collect 0, .clear 0] = some s ∧
      s.answers.map Prod.snd = [.accepted 0, .raised] ∧
      s.flushes.map Flush.phase = [.returned ⟨1, 1, none⟩] ∧ ¬ ExactlyOnce ⟨1, 1, false⟩ s := by
  refine ⟨⟨_, rfl, by decide, by decide, fun h ↦ ?_⟩, ⟨_, rfl, by decide, fun h ↦ ?_⟩,
    ⟨_, rfl, by decide, by decide, fun h ↦ ?_⟩⟩
  · exact absurd h.distinct (by decide)
  · exact absurd h.distinct (by decide)
  · exact absurd (h.flushed _ (List.mem_singleton_self _) _ rfl _ (List.mem_singleton_self _)).2
      (by decide)

end NemoRL.Generation.SparseRefit
