import Mathlib
import NemoRL.Utils.ZmqRelayLedger

namespace NemoRL.Utils.ZmqRelay

open Foundations Foundations.Positions Foundations.Transition

variable {β : Type}

/-- The forward jobs that a call on some socket is making. -/
def callJobs (clients : List (Client β)) : List (String × ℕ) :=
  clients.filterMap fun c ↦ c.call.bind Send.job

/-- Whatever travels or is submitted comes from a producer and keeps the relay
it was sent to as its root. -/
structure Wired (cfg : Config) (s : Cluster β) : Prop where
  produced : ∀ x ∈ s.produced, x.1 ∈ cfg.addresses
  data : ∀ d ∈ s.data, (d.relayRoot.getD d.address, d.payload) ∈ s.produced
  calls : ∀ c ∈ s.clients, ∀ call, c.call = some call →
    (call.relayRoot.getD c.address, call.payload) ∈ s.produced
  works : ∀ own, ∀ w ∈ submitted (s.relays own),
    own ∈ cfg.addresses ∧ (w.relayRoot, w.payload) ∈ s.produced

/-- A forward that is under way at a relay. -/
def Running (r : Relay β) (j : ℕ) : Prop :=
  ∃ job, r.jobs[j]? = some job ∧ job.work.child ≠ none ∧ job.phase = .running

structure Sound (cfg : Config) (s : Cluster β) : Prop extends Wired cfg s where
  relays : ∀ own, (s.relays own).Sound cfg own
  forwards : ∀ x ∈ callJobs s.clients, Running (s.relays x.1) x.2
  nodup : (callJobs s.clients).Nodup

/-- What a step does: it keeps the books, moves each relay at most once, and
`new` is what a producer has sent with it. -/
structure Follows (cfg : Config) (s t : Cluster β) (new : List (String × Payload β)) : Prop where
  sound : Sound cfg t
  relays : ∀ own, t.relays own = s.relays own ∨ Moves cfg own (s.relays own) (t.relays own)
  produced : t.produced = s.produced ++ new

section Parts

variable {cfg : Config} {s t : Cluster β} {own : String} {r : Relay β} {j : ℕ}

theorem Running.setPhase {i : ℕ} (h : Running r i) (hij : i ≠ j) (phase : Phase) :
    Running (setPhase r j phase) i := by
  obtain ⟨job, hj, hc, hp⟩ := h
  refine ⟨job, ?_, hc, hp⟩
  rw [ZmqRelay.setPhase, List.getElem?_modify_ne _ _ (Ne.symm hij)]
  exact hj

theorem Sound.setRelay (h : Sound cfg s) (hm : Moves cfg own (s.relays own) r)
    (hw : ∀ w ∈ submitted r, own ∈ cfg.addresses ∧ (w.relayRoot, w.payload) ∈ s.produced)
    (hf : ∀ i, (own, i) ∈ callJobs s.clients → Running r i) : Sound cfg (setRelay s own r) := by
  refine ⟨⟨h.produced, h.data, h.calls, fun own' ↦ ?_⟩, fun own' ↦ ?_, fun x hx ↦ ?_, h.nodup⟩
  · by_cases he : own' = own
    · subst he
      simpa [ZmqRelay.setRelay] using hw
    · simpa [ZmqRelay.setRelay, he] using h.works own'
  · by_cases he : own' = own
    · subst he
      simpa [ZmqRelay.setRelay] using hm.sound (h.relays own')
    · simpa [ZmqRelay.setRelay, he] using h.relays own'
  · by_cases he : x.1 = own
    · subst he
      simpa [ZmqRelay.setRelay] using hf x.2 hx
    · simpa [ZmqRelay.setRelay, he] using h.forwards x hx

theorem Sound.withClients (h : Sound cfg s) {clients : List (Client β)} {data : List (Data β)}
    (hd : ∀ d ∈ data, (d.relayRoot.getD d.address, d.payload) ∈ s.produced)
    (hc : ∀ c ∈ clients, ∀ call, c.call = some call →
      (call.relayRoot.getD c.address, call.payload) ∈ s.produced)
    (hf : ∀ x ∈ callJobs clients, Running (s.relays x.1) x.2) (hn : (callJobs clients).Nodup) :
    Sound cfg { s with clients := clients, data := data } :=
  ⟨⟨h.produced, hd, hc, h.works⟩, h.relays, hf, hn⟩

theorem Sound.produce (h : Sound cfg s) {x : String × Payload β} (hx : x.1 ∈ cfg.addresses) :
    Sound cfg { s with produced := s.produced ++ [x] } := by
  have hmono {y : String × Payload β} (hy : y ∈ s.produced) : y ∈ s.produced ++ [x] :=
    List.mem_append_left _ hy
  refine ⟨⟨fun y hy ↦ ?_, fun d hd ↦ hmono (h.data d hd), fun c hc call he ↦ hmono (h.calls c hc call he),
    fun own w hw ↦ ⟨(h.works own w hw).1, hmono (h.works own w hw).2⟩⟩, h.relays, h.forwards, h.nodup⟩
  rcases List.mem_append.mp hy with hy | hy
  · exact h.produced y hy
  · obtain rfl := List.mem_singleton.mp hy
    exact hx

theorem sendPayload_sound (h : Sound cfg s) {c : ℕ} {address : String} {apiKey : Option String}
    {call : Send β} (ht : sendPayload s c address apiKey call = some t)
    (ho : (call.relayRoot.getD address, call.payload) ∈ s.produced)
    (hj : ∀ x ∈ call.job, Running (s.relays x.1) x.2 ∧ x ∉ callJobs s.clients) : Sound cfg t := by
  have hnew : ∀ clients : List (Client β), (∀ c ∈ clients, c ∈ s.clients ∨ c = ⟨address, apiKey, some call⟩) →
      (callJobs clients).Perm (callJobs s.clients ++ call.job.toList) →
      Sound cfg { s with clients := clients } := by
    intro clients hc hp
    refine h.withClients h.data (fun c hm call' he ↦ ?_) (fun x hx ↦ ?_) ?_
    · rcases hc c hm with hm | rfl
      · exact h.calls c hm call' he
      · obtain rfl := Option.some.inj he
        exact ho
    · rcases List.mem_append.mp (hp.mem_iff.mp hx) with hx | hx
      · exact h.forwards x hx
      · exact (hj x (Option.mem_toList.mp hx)).1
    · rw [hp.nodup_iff, List.nodup_append_comm]
      cases hcall : call.job with
      | none => exact h.nodup
      | some x => exact List.nodup_cons.mpr ⟨(hj x hcall).2, h.nodup⟩
  unfold sendPayload at ht
  split at ht
  next client hc =>
    split_ifs at ht with hidle
    obtain rfl := Option.some.inj ht
    have hperm := filterMap_set_perm (fun c ↦ c.call.bind Send.job) hc ⟨address, apiKey, some call⟩
    rw [Option.isNone_iff_eq_none.mp hidle.2.2] at hperm
    refine hnew _ (fun c' hm ↦ ?_) (by simpa [callJobs] using hperm)
    rcases List.mem_or_eq_of_mem_set hm with hm | hm
    · exact .inl hm
    · exact .inr hm
  next =>
    split_ifs at ht
    obtain rfl := Option.some.inj ht
    refine hnew _ (fun c' hm ↦ ?_) ?_
    · rcases List.mem_append.mp hm with hm | hm
      · exact .inl hm
      · exact .inr (List.mem_singleton.mp hm)
    · cases hcall : call.job <;> simp [callJobs, List.filterMap_append, hcall]

theorem sendPayload_frame {c : ℕ} {address : String} {apiKey : Option String} {call : Send β}
    (ht : sendPayload s c address apiKey call = some t) :
    t.relays = s.relays ∧ t.produced = s.produced := by
  unfold sendPayload at ht
  split at ht <;> split_ifs at ht <;> obtain rfl := Option.some.inj ht <;> exact ⟨rfl, rfl⟩

/-- The call on a socket goes on, for the same payload and job, or ends. -/
theorem setCall_sound (h : Sound cfg s) {c : ℕ} {client : Client β} {call : Send β}
    (hc : s.clients[c]? = some client) (hcall : client.call = some call) {call' : Option (Send β)}
    (hsame : ∀ d ∈ call', d.payload = call.payload ∧ d.relayRoot = call.relayRoot ∧
      d.job = call.job)
    {data : List (Data β)}
    (hd : ∀ d ∈ data, (d.relayRoot.getD d.address, d.payload) ∈ s.produced) :
    Sound cfg { s with clients := s.clients.set c { client with call := call' }, data := data } := by
  have hperm := filterMap_set_perm (fun c ↦ c.call.bind Send.job) hc { client with call := call' }
  have hsub : (callJobs (s.clients.set c { client with call := call' })).Nodup ∧
      ∀ x ∈ callJobs (s.clients.set c { client with call := call' }), x ∈ callJobs s.clients := by
    cases call' with
    | none =>
      simp only [Option.bind_none, Option.toList_none, List.append_nil] at hperm
      have hn := h.nodup
      rw [callJobs, ← hperm.nodup_iff] at hn
      exact ⟨hn.of_append_left, fun x hx ↦ hperm.mem_iff.mp (List.mem_append_left _ hx)⟩
    | some d =>
      simp only [hcall, Option.bind_some, (hsame d rfl).2.2, List.perm_append_right_iff] at hperm
      exact ⟨hperm.nodup_iff.mpr h.nodup, fun x hx ↦ hperm.mem_iff.mp hx⟩
  refine h.withClients hd (fun c' hm d hd' ↦ ?_) (fun x hx ↦ h.forwards x (hsub.2 x hx)) hsub.1
  rcases List.mem_or_eq_of_mem_set hm with hm | rfl
  · exact h.calls c' hm d hd'
  · obtain ⟨hp, hr, -⟩ := hsame d hd'
    rw [hp, hr]
    exact h.calls client (List.mem_of_getElem? hc) call hcall

theorem finishSend_sound (h : Sound cfg s) {c : ℕ} {client : Client β} {call : Send β}
    (hc : s.clients[c]? = some client) (hcall : client.call = some call) (ok : Bool) :
    Follows cfg s (finishSend s c client call ok) [] := by
  have hs : Sound cfg { s with clients := s.clients.set c { client with call := none } } :=
    setCall_sound h hc hcall (by simp) h.data
  unfold finishSend
  cases hjob : call.job with
  | none => exact ⟨hs, fun _ ↦ .inl rfl, (List.append_nil _).symm⟩
  | some x =>
    obtain ⟨own, j⟩ := x
    have hx : (own, j) ∈ callJobs s.clients :=
      List.mem_filterMap.mpr ⟨client, List.mem_of_getElem? hc, by simp [hcall, hjob]⟩
    obtain ⟨job, hj, -, hp⟩ := h.forwards _ hx
    have hm : Moves cfg own (s.relays own) (setPhase (s.relays own) j (.done ok)) :=
      .advance j job (.done ok) hj (.inl hp) (by simp)
    refine ⟨hs.setRelay hm ?_ fun i hi ↦ ?_, fun own' ↦ ?_, (List.append_nil _).symm⟩
    · rw [submitted_setPhase]
      exact h.works own
    · -- The finished call was the only one for its job.
      refine (hs.forwards _ hi).setPhase ?_ _
      rintro rfl
      have hperm := filterMap_set_perm (fun c ↦ c.call.bind Send.job) hc { client with call := none }
      have hn := h.nodup
      simp only [hcall, hjob, Option.bind_some, Option.bind_none, Option.toList_none,
        Option.toList_some, List.append_nil] at hperm
      rw [callJobs, ← hperm.nodup_iff, List.nodup_append_comm] at hn
      exact (List.nodup_cons.mp hn).1 hi
    · by_cases he : own' = own
      · subst he
        exact .inr (by simpa [ZmqRelay.setRelay] using hm)
      · exact .inl (by simp [ZmqRelay.setRelay, he])

theorem retry_sound (h : Sound cfg s) {c : ℕ} {client : Client β} {call : Send β}
    (hc : s.clients[c]? = some client) (hcall : client.call = some call) :
    Follows cfg s (retry cfg s c client call) [] := by
  unfold retry
  split_ifs
  · exact ⟨setCall_sound h hc hcall (by simp) h.data, fun _ ↦ .inl rfl, (List.append_nil _).symm⟩
  · exact finishSend_sound h hc hcall false

theorem clientStep_sound (h : Sound cfg s) {c : ℕ} {client : Client β} {call : Send β}
    (hc : s.clients[c]? = some client) (hcall : client.call = some call) {e : ClientEvent}
    (ht : clientStep cfg s c client call e = some t) : Follows cfg s t [] := by
  cases e with
  | send =>
    simp only [clientStep] at ht
    split_ifs at ht
    obtain rfl := Option.some.inj ht
    refine ⟨setCall_sound h hc hcall (by simp) fun d hd ↦ ?_, fun _ ↦ .inl rfl,
      (List.append_nil _).symm⟩
    rcases List.mem_append.mp hd with hd | hd
    · exact h.data d hd
    · obtain rfl := List.mem_singleton.mp hd
      exact h.calls client (List.mem_of_getElem? hc) call hcall
  | again =>
    simp only [clientStep] at ht
    split_ifs at ht
    obtain rfl := Option.some.inj ht
    exact retry_sound h hc hcall
  | recv k =>
    simp only [clientStep] at ht
    split at ht
    · split_ifs at ht
      split at ht
      · obtain rfl := Option.some.inj ht
        exact finishSend_sound h hc hcall false
      · split_ifs at ht
        · obtain rfl := Option.some.inj ht
          exact finishSend_sound h hc hcall true
        · obtain rfl := Option.some.inj ht
          exact ⟨h, fun _ ↦ .inl rfl, (List.append_nil _).symm⟩
    · cases ht
  | timeout =>
    simp only [clientStep] at ht
    split_ifs at ht
    obtain rfl := Option.some.inj ht
    exact retry_sound h hc hcall

theorem Running.congr {r' : Relay β} {i : ℕ} (h : Running r i) (hj : r'.jobs = r.jobs) :
    Running r' i := by
  obtain ⟨job, hi, hrest⟩ := h
  exact ⟨job, hj ▸ hi, hrest⟩

theorem Running.ne {i : ℕ} (h : Running r i) {job : Job β} (hj : r.jobs[j]? = some job)
    (hne : job.work.child = none ∨ job.phase = .queued) : i ≠ j := by
  rintro rfl
  obtain ⟨job', hj', hc, hp⟩ := h
  obtain rfl := Option.some.inj (hj.symm.trans hj')
  rcases hne with hne | hne
  · exact hc hne
  · cases hp.symm.trans hne

theorem receive_moves (cfg : Config) (own : String) (r : Relay β) (d : Data β) :
    (receive cfg own r d).1 = r ∨
      Moves cfg own r (receive cfg own r d).1 ∧
        ∃ jobs, (receive cfg own r d).1.jobs = r.jobs ++ jobs ∧
          jobs.map Job.work = works cfg own (d.relayRoot.getD own) d.payload := by
  unfold receive
  simp only
  split
  · exact .inl rfl
  · split_ifs with hs
    · exact .inl rfl
    · split
      · split_ifs <;> exact .inl rfl
      next hf => exact .inr ⟨.stage _ _ hs hf, _, rfl, by simp [Function.comp_def]⟩

theorem setRelay_moves (hm : Moves cfg own (s.relays own) r) (own' : String) :
    (setRelay s own r).relays own' = s.relays own' ∨
      Moves cfg own' (s.relays own') ((setRelay s own r).relays own') := by
  by_cases he : own' = own
  · subst he
    exact .inr (by simpa [ZmqRelay.setRelay] using hm)
  · exact .inl (by simp [ZmqRelay.setRelay, he])

theorem receive_sound (h : Sound cfg s) {d : Data β} (hd : d ∈ s.data)
    (ha : d.address ∈ cfg.addresses) :
    Follows cfg s (setRelay s d.address (receive cfg d.address (s.relays d.address) d).1) [] := by
  rcases receive_moves cfg d.address (s.relays d.address) d with hr | ⟨hm, jobs, hj, hw⟩
  · have hs : setRelay s d.address (s.relays d.address) = s := by
      simp [ZmqRelay.setRelay]
    rw [hr, hs]
    exact ⟨h, fun _ ↦ .inl rfl, (List.append_nil _).symm⟩
  · refine ⟨h.setRelay hm (fun w hw' ↦ ?_) fun i hi ↦ ?_, setRelay_moves hm,
      (List.append_nil _).symm⟩
    · rw [submitted, hj, List.map_append, hw] at hw'
      rcases List.mem_append.mp hw' with hw' | hw'
      · exact h.works _ w hw'
      · obtain ⟨hp, hroot⟩ := payload_of_mem_works hw'
        rw [hp, hroot]
        exact ⟨ha, h.data d hd⟩
    · obtain ⟨job, hi', hrest⟩ := h.forwards _ hi
      refine ⟨job, ?_, hrest⟩
      rw [hj, List.getElem?_append_left (List.getElem?_eq_some_iff.mp hi').1]
      exact hi'

theorem setPhase_relay_sound (h : Sound cfg s) {job : Job β}
    (hj : (s.relays own).jobs[j]? = some job)
    (hne : job.work.child = none ∨ job.phase = .queued) {phase : Phase}
    (hr : r.jobs = (setPhase (s.relays own) j phase).jobs)
    (hm : Moves cfg own (s.relays own) r) :
    Sound cfg (setRelay s own r) := by
  refine h.setRelay hm ?_ fun i hi ↦ ?_
  · have hs := submitted_setPhase (s.relays own) j phase
    rw [submitted] at hs
    rw [submitted, hr, hs]
    exact h.works own
  · have hrun := h.forwards _ hi
    exact (hrun.setPhase (hrun.ne hj hne) phase).congr hr

end Parts

def Event.sends : Event β → List (String × Payload β)
  | .produce _ address _ p => [(address, p)]
  | _ => []

theorem step_follows {cfg : Config} {s t : Cluster β} {e : Event β} (h : Sound cfg s)
    (ht : step cfg s e = some t) : Follows cfg s t e.sends := by
  cases e with
  | produce c address apiKey p =>
    simp only [step] at ht
    split_ifs at ht with ha
    obtain ⟨hr, hp⟩ := sendPayload_frame ht
    refine ⟨sendPayload_sound (h.produce (x := (address, p)) ha) ht (by simp) (by simp), ?_, hp⟩
    intro own
    rw [hr]
    exact .inl rfl
  | client c e =>
    obtain ⟨client, hc, ht⟩ := Option.bind_eq_some_iff.mp ht
    obtain ⟨call, hcall, ht⟩ := Option.bind_eq_some_iff.mp ht
    exact clientStep_sound h hc hcall ht
  | deliver k =>
    obtain ⟨d, hk, ht⟩ := Option.bind_eq_some_iff.mp ht
    by_cases ha : d.address ∈ cfg.addresses
    · rw [if_pos ha] at ht
      obtain rfl := Option.some.inj ht
      obtain ⟨hs, hm, hp⟩ := receive_sound h (List.mem_of_getElem? hk) ha
      exact ⟨⟨⟨hs.produced, hs.data, hs.calls, hs.works⟩, hs.relays, hs.forwards, hs.nodup⟩, hm, hp⟩
    · rw [if_neg ha] at ht
      cases ht
  | apply own j =>
    obtain ⟨job, hj, ht⟩ := Option.bind_eq_some_iff.mp ht
    split_ifs at ht with hc
    obtain rfl := Option.some.inj ht
    have hm : Moves cfg own _ _ := .apply j job hj hc.1 hc.2
    exact ⟨setPhase_relay_sound h hj (.inl hc.1) rfl hm, setRelay_moves hm,
      (List.append_nil _).symm⟩
  | applied own j ok =>
    obtain ⟨job, hj, ht⟩ := Option.bind_eq_some_iff.mp ht
    split_ifs at ht with hc
    obtain rfl := Option.some.inj ht
    have hm : Moves cfg own _ _ := .advance j job (.done ok) hj (.inl hc.2) (by simp)
    exact ⟨setPhase_relay_sound h hj (.inl hc.1) rfl hm, setRelay_moves hm,
      (List.append_nil _).symm⟩
  | forward own j c =>
    obtain ⟨job, hj, ht⟩ := Option.bind_eq_some_iff.mp ht
    obtain ⟨child, hc, ht⟩ := Option.bind_eq_some_iff.mp ht
    split_ifs at ht with hq
    have hm : Moves cfg own _ _ := .advance j job .running hj (.inr ⟨hq, by simp [hc]⟩) (by simp)
    have hs := setPhase_relay_sound h hj (.inr hq) rfl hm
    obtain ⟨hr, hp⟩ := sendPayload_frame ht
    refine ⟨sendPayload_sound hs ht ?_ ?_, fun own' ↦ ?_, hp.trans (List.append_nil _).symm⟩
    · have hw : job.work ∈ submitted (s.relays own) :=
        List.mem_map_of_mem (List.mem_of_getElem? hj)
      exact (h.works own _ hw).2
    · intro x hx
      obtain rfl := Option.some.inj hx
      refine ⟨⟨{ job with phase := .running }, ?_, by simp [hc], rfl⟩, fun hx ↦ ?_⟩
      · simp [setRelay, setPhase, hj]
      · exact (h.forwards _ hx).ne hj (.inr hq) rfl
    · rw [hr]
      exact setRelay_moves hm own'
  | flush own e =>
    obtain ⟨r, hr, ht⟩ := Option.bind_eq_some_iff.mp ht
    obtain rfl := Option.some.inj ht
    obtain ⟨hj, -, -⟩ := flushStep_frame hr
    have hm : Moves cfg own (s.relays own) r := .flush e r hr
    refine ⟨h.setRelay hm ?_ fun i hi ↦ (h.forwards _ hi).congr hj, setRelay_moves hm,
      (List.append_nil _).symm⟩
    rw [submitted, hj]
    exact h.works own

end NemoRL.Utils.ZmqRelay
