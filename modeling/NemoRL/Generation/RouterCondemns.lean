import Mathlib
import NemoRL.Generation.FleetHealthRuns
import NemoRL.Generation.GenerationRouter

namespace NemoRL.Generation.GenerationRouter

open Foundations.Streaks Foundations.Transition FleetHealth

variable {n : ℕ} {policy : FleetHealthPolicy} {healthManaged : Bool} {i : Fin n}

section Reports

/-- What a number of failures reported of a shard make of it. -/
structure Reported (policy : FleetHealthPolicy) (m : ℕ) (shard shard' : ShardHealth) : Prop where
  baseUrl : shard'.baseUrl = shard.baseUrl
  serving : shard'.isServing = true → shard.isServing = true ∧
    shard'.consecutiveReportedFailures = shard.consecutiveReportedFailures + m
  dead : shard.state ≠ .dead → shard'.state = .dead → shard.isServing = true ∧
    policy.unhealthyThreshold ≤ shard.consecutiveReportedFailures + m

theorem Reported.refl (shard : ShardHealth) : Reported policy 0 shard shard :=
  ⟨rfl, fun h ↦ ⟨h, rfl⟩, fun h h' ↦ absurd h' h⟩

theorem Reported.trans {m m' : ℕ} {shard shard' shard'' : ShardHealth}
    (h : Reported policy m shard shard') (h' : Reported policy m' shard' shard'') :
    Reported policy (m + m') shard shard'' := by
  refine ⟨h'.baseUrl.trans h.baseUrl, fun hs ↦ ?_, fun hne hd ↦ ?_⟩
  · obtain ⟨hs', heq'⟩ := h'.serving hs
    obtain ⟨hs₀, heq⟩ := h.serving hs'
    exact ⟨hs₀, by omega⟩
  · by_cases hd' : shard'.state = .dead
    · obtain ⟨hs, hle⟩ := h.dead hne hd'
      exact ⟨hs, by omega⟩
    · obtain ⟨hs', hle'⟩ := h'.dead hd' hd
      obtain ⟨hs₀, heq⟩ := h.serving hs'
      exact ⟨hs₀, by omega⟩

theorem reported_evolve (shard : ShardHealth) :
    Reported policy 1 shard (evolve policy shard .reportFailure) := by
  cases hserving : shard.isServing with
  | false =>
    have hsame : evolve policy shard .reportFailure = shard := by simp [evolve, hserving]
    rw [hsame]
    refine ⟨rfl, fun h ↦ ?_, fun h h' ↦ absurd h' h⟩
    rw [hserving] at h
    cases h
  | true =>
    refine ⟨baseUrl_evolve shard _, fun _ ↦ ⟨hserving, ?_⟩, fun _ hd ↦ ⟨hserving, ?_⟩⟩
    · simp [evolve, hserving]
    · by_contra hlt
      simp [evolve, hserving, hlt] at hd

theorem reported_iterate (policy : FleetHealthPolicy) {f : GenerationFleetHealth n} (hf : Consistent f) (j : Fin n) (k : ℕ) :
    Consistent ((fun f ↦ f.reportFailure policy j)^[k] f) ∧ ∀ i,
      Reported policy (if i = j then k else 0) (f.shards i)
        (((fun f ↦ f.reportFailure policy j)^[k] f).shards i) := by
  induction k with
  | zero =>
    refine ⟨hf, fun i ↦ ?_⟩
    rw [ite_self]
    exact .refl _
  | succ k ih =>
    obtain ⟨hc, hshards⟩ := ih
    rw [Function.iterate_succ_apply']
    refine ⟨consistent_apply policy hc (j, .reportFailure), fun i ↦ ?_⟩
    have hstep := apply_shards policy hc (j, .reportFailure) i
    have hone : Reported policy (if i = j then 1 else 0)
        (((fun f ↦ f.reportFailure policy j)^[k] f).shards i)
        ((apply policy ((fun f ↦ f.reportFailure policy j)^[k] f) (j, .reportFailure)).shards i) := by
      rw [hstep]
      by_cases hi : i = j
      · rw [if_pos hi, if_pos hi]
        exact reported_evolve _
      · rw [if_neg hi, if_neg hi]
        exact .refl _
    have hboth := (hshards i).trans hone
    by_cases hi : i = j
    · rw [if_pos hi] at hboth ⊢
      rw [if_pos hi] at hboth
      exact hboth
    · rw [if_neg hi] at hboth ⊢
      rw [if_neg hi] at hboth
      exact hboth

def share (f : GenerationFleetHealth n) (i : Fin n) (counts : List (String × ℕ)) : ℕ :=
  ((counts.filter fun x ↦ f.shardForBaseUrl x.1 = some i).map Prod.snd).sum

theorem baseUrl_of_shardForBaseUrl {f : GenerationFleetHealth n} {url : String}
    (h : f.shardForBaseUrl url = some i) : (f.shards i).baseUrl = some url := by
  have hfound := List.find?_some h
  simpa using hfound

theorem share_le {f : GenerationFleetHealth n} {url : String} (h : (f.shards i).baseUrl = some url)
    (counts : List (String × ℕ)) :
    share f i counts ≤ ((counts.filter fun x ↦ x.1 = url).map Prod.snd).sum := by
  refine List.Sublist.sum_le_sum ?_ fun _ _ ↦ Nat.zero_le _
  refine List.Sublist.map _ (List.monotone_filter_right counts fun x hx ↦ ?_)
  have hbase := baseUrl_of_shardForBaseUrl (of_decide_eq_true hx)
  rw [h] at hbase
  simpa using (Option.some.inj hbase).symm

theorem share_of_none {f : GenerationFleetHealth n} (h : (f.shards i).baseUrl = none)
    (counts : List (String × ℕ)) : share f i counts = 0 := by
  have hnone : (counts.filter fun x ↦ f.shardForBaseUrl x.1 = some i) = [] := by
    refine List.filter_eq_nil_iff.mpr fun x _ hx ↦ ?_
    have hbase := baseUrl_of_shardForBaseUrl (of_decide_eq_true hx)
    rw [h] at hbase
    cases hbase
  rw [share, hnone]
  rfl

theorem shardForBaseUrl_congr {f f' : GenerationFleetHealth n}
    (h : ∀ i, (f'.shards i).baseUrl = (f.shards i).baseUrl) (url : String) :
    f'.shardForBaseUrl url = f.shardForBaseUrl url := by
  unfold GenerationFleetHealth.shardForBaseUrl
  simp only [h]

/-- Folding the drained counts in reports to each shard its share of them. -/
theorem reported_drain (policy : FleetHealthPolicy) {f : GenerationFleetHealth n} (hf : Consistent f)
    (counts : List (String × ℕ)) : Consistent (drainRouterFailures policy f counts) ∧ ∀ i,
      Reported policy (share f i counts) (f.shards i)
        ((drainRouterFailures policy f counts).shards i) := by
  induction counts generalizing f with
  | nil => exact ⟨hf, fun i ↦ .refl _⟩
  | cons x counts ih =>
    have hone : Consistent (reportFailures policy f x.1 x.2) ∧ ∀ i,
        Reported policy (if f.shardForBaseUrl x.1 = some i then x.2 else 0) (f.shards i)
          ((reportFailures policy f x.1 x.2).shards i) := by
      unfold reportFailures
      cases hshard : f.shardForBaseUrl x.1 with
      | none => exact ⟨hf, fun i ↦ .refl _⟩
      | some j =>
        obtain ⟨hc, hshards⟩ := reported_iterate policy hf j x.2
        refine ⟨hc, fun i ↦ ?_⟩
        have hi := hshards i
        simp only [Option.some.injEq, eq_comm (a := j)]
        exact hi
    obtain ⟨hc, hshards⟩ := hone
    obtain ⟨hc', hshards'⟩ := ih hc
    refine ⟨hc', fun i ↦ ?_⟩
    have hboth := (hshards i).trans (hshards' i)
    have hshare : share f i (x :: counts) = (if f.shardForBaseUrl x.1 = some i then x.2 else 0) +
        share (reportFailures policy f x.1 x.2) i counts := by
      unfold share
      simp only [shardForBaseUrl_congr fun i ↦ (hshards i).baseUrl]
      by_cases hx : f.shardForBaseUrl x.1 = some i <;> simp [hx]
    rw [hshare]
    exact hboth

end Reports

section Ledger

def ProbesSucceed (i : Fin n) : Event n → Prop
  | .probe j ok => j = i → ok = true
  | _ => True

/-- No request is answered by the serving shard while a failure still counts against
it, and it is not refit while the router's side still holds one. -/
def Settled (i : Fin n) (s : System n) : Event n → Prop
  | .finish backend .answered => (s.fleet.shards i).baseUrl = some backend →
      (s.fleet.shards i).isServing = true →
        (s.fleet.shards i).consecutiveReportedFailures = 0 ∧ undrained s backend = 0
  | .refit j _ => j = i → ∀ url ∈ (s.fleet.shards i).baseUrl, undrained s url = 0
  | _ => True

instance (i : Fin n) (e : Event n) : Decidable (ProbesSucceed i e) := by
  cases e <;> unfold ProbesSucceed <;> infer_instance

instance (i : Fin n) (s : System n) (e : Event n) : Decidable (Settled i s e) := by
  cases e with
  | finish backend outcome => cases outcome <;> unfold Settled <;> infer_instance
  | _ => unfold Settled; infer_instance

/-- While a shard serves, what counts against it are failures in a row. -/
structure Ledger (i : Fin n) (s : System n) : Prop where
  consistent : Consistent s.fleet
  counted : (s.fleet.shards i).isServing = true → ∀ url ∈ (s.fleet.shards i).baseUrl,
    (s.fleet.shards i).consecutiveReportedFailures + undrained s url ≤ failedRequests s i
  unnamed : (s.fleet.shards i).isServing = true → (s.fleet.shards i).baseUrl = none →
    (s.fleet.shards i).consecutiveReportedFailures = 0

variable {s t : System n} {e : Event n}

/-- What leaves the ledger and the log alone and adds no failure keeps the count. -/
theorem Ledger.frame (h : Ledger i s) (hfleet : t.fleet = s.fleet) (hlog : t.log = s.log)
    (hle : ∀ url, undrained t url ≤ undrained s url) : Ledger i t := by
  have hrequests : failedRequests t i = failedRequests s i := by
    rw [failedRequests, failedRequests, hfleet, hlog]
  refine ⟨hfleet ▸ h.consistent, fun hs url hu ↦ ?_, fun hs hu ↦ ?_⟩
  · rw [hfleet] at hs hu ⊢
    have hcounted := h.counted hs url hu
    have hless := hle url
    omega
  · rw [hfleet] at hs hu ⊢
    exact h.unnamed hs hu

theorem backendFailures_beginRequest (r : Router) :
    r.beginRequest.backendFailures = r.backendFailures := by
  unfold Router.beginRequest
  cases r.pickBackend <;> rfl

theorem backendFailures_endRequest (healthManaged : Bool) (r : Router) (backend : String) (outcome : Outcome) :
    (r.endRequest healthManaged backend outcome).backendFailures =
      if outcome = .backendError then
        Function.update r.backendFailures backend (r.backendFailures backend + 1)
      else r.backendFailures := by
  cases outcome with
  | backendError => cases healthManaged <;> rfl
  | _ => rfl

theorem undrained_drain (r : Router) (url : String) :
    r.drainBackendFailures.1.backendFailures url +
        ((r.drainBackendFailures.2.filter fun x ↦ x.1 = url).map Prod.snd).sum =
      r.backendFailures url := by
  have hcounts : ∀ l : List String, l.Nodup →
      ((((l.filter fun b ↦ r.backendFailures b ≠ 0).map fun b ↦
        (b, r.backendFailures b)).filter fun x ↦ x.1 = url).map Prod.snd).sum =
          if url ∈ l then r.backendFailures url else 0 := by
    intro l hnd
    induction l with
    | nil => rfl
    | cons b l ih =>
      obtain ⟨hnot, hnd⟩ := List.nodup_cons.mp hnd
      have hrest := ih hnd
      by_cases hb : b = url
      · subst hb
        rw [if_neg hnot] at hrest
        by_cases hzero : r.backendFailures b = 0
        · simp only [List.filter_cons, hzero, ne_eq, not_true_eq_false, decide_false,
            Bool.false_eq_true, if_false, List.mem_cons, true_or, if_true]
          exact hrest
        · simp only [List.filter_cons, hzero, ne_eq, not_false_eq_true, decide_true, if_true,
            List.map_cons, List.sum_cons, List.mem_cons, true_or]
          rw [hrest]
          rfl
      · have hmem : (url ∈ b :: l) = (url ∈ l) := by simp [Ne.symm hb]
        simp only [hmem]
        rw [← hrest]
        by_cases hzero : r.backendFailures b = 0 <;> simp [hzero, hb]
  have hdedup := hcounts r.allBackends.dedup (List.nodup_dedup _)
  simp only [List.mem_dedup] at hdedup
  unfold Router.drainBackendFailures
  simp only
  rw [hdedup]
  split_ifs <;> omega

theorem baseUrl_apply (policy : FleetHealthPolicy) {f : GenerationFleetHealth n} (hf : Consistent f) (e : FleetHealth.Event n)
    (i : Fin n) : ((apply policy f e).shards i).baseUrl = (f.shards i).baseUrl := by
  rw [apply_shards policy hf]
  split_ifs
  · exact baseUrl_evolve _ _
  · rfl

theorem evolve_probe (shard : ShardHealth) :
    (evolve policy shard (.recordProbe true)).isServing = shard.isServing ∧
      (evolve policy shard (.recordProbe true)).consecutiveReportedFailures =
        shard.consecutiveReportedFailures ∧
      ((evolve policy shard (.recordProbe true)).state = .dead → shard.state = .dead) := by
  cases hserving : shard.isServing with
  | false => simp [evolve, hserving]
  | true =>
    simp only [evolve, hserving, if_true]
    split_ifs with h
    · simp [ShardHealth.isServing]
    · simpa [ShardHealth.isServing] using hserving

def Condemned (i : Fin n) (s t : System n) : Prop :=
  (s.fleet.shards i).state ≠ .dead ∧ (t.fleet.shards i).state = .dead

instance (i : Fin n) (s t : System n) : Decidable (Condemned i s t) :=
  inferInstanceAs (Decidable (_ ∧ _))

theorem not_condemned (h : t.fleet = s.fleet) : ¬ Condemned i s t := by
  rintro ⟨halive, hdead⟩
  rw [h] at hdead
  exact halive hdead

theorem finish_ledger {backend : String} {outcome : Outcome} (h : Ledger i s)
    (hok : Settled i s (.finish backend outcome))
    (ht : step policy healthManaged s (.finish backend outcome) = some t) :
    Ledger i t ∧ ¬ Condemned i s t := by
  simp only [step] at ht
  split_ifs at ht
  have hfailures := backendFailures_endRequest healthManaged s.router backend outcome
  cases outcome with
  | raised =>
    obtain rfl := Option.some.inj ht
    refine ⟨h.frame rfl rfl fun url ↦ ?_, not_condemned rfl⟩
    simp only [undrained, hfailures]
    exact le_rfl
  | answered =>
    obtain rfl := Option.some.inj ht
    refine ⟨⟨h.consistent, fun hs url hu ↦ ?_, h.unnamed⟩, not_condemned rfl⟩
    have hcounted := h.counted hs url hu
    have hsame : undrained { s with
        router := s.router.endRequest healthManaged backend .answered
        log := s.log ++ [.request backend true] } url = undrained s url := by
      simp only [undrained, hfailures, reduceCtorEq, if_false]
    rw [hsame]
    have hu' : (s.fleet.shards i).baseUrl = some url := hu
    by_cases hb : url = backend
    · subst hb
      obtain ⟨hzero, hnone⟩ := hok hu hs
      rw [hzero, hnone]
      exact Nat.zero_le _
    · have hkept : failedRequests s i = streak (Entry.failed (s.fleet.shards i).baseUrl)
          (Entry.clears (s.fleet.shards i).baseUrl i) (s.log ++ [.request backend true]) := by
        refine (streak_of_neither ?_ ?_ _).symm <;> simp [Entry.failed, Entry.clears, hu', hb]
      rw [hkept] at hcounted
      exact hcounted
  | backendError =>
    obtain rfl := Option.some.inj ht
    refine ⟨⟨h.consistent, fun hs url hu ↦ ?_, h.unnamed⟩, not_condemned rfl⟩
    have hcounted := h.counted hs url hu
    have hsame : undrained s url = s.router.backendFailures url +
      (((s.drained.getD []).filter fun x ↦ x.1 = url).map Prod.snd).sum := rfl
    have hu' : (s.fleet.shards i).baseUrl = some url := hu
    simp only [undrained, hfailures, if_true]
    by_cases hb : url = backend
    · subst hb
      have hmore : streak (Entry.failed (s.fleet.shards i).baseUrl)
          (Entry.clears (s.fleet.shards i).baseUrl i) (s.log ++ [.request url false]) =
            failedRequests s i + 1 := by
        refine streak_of_bad ?_ ?_ _ <;> simp [Entry.failed, Entry.clears, hu']
      rw [Function.update_self]
      refine Nat.le_trans ?_ hmore.ge
      omega
    · have hkept : failedRequests s i = streak (Entry.failed (s.fleet.shards i).baseUrl)
          (Entry.clears (s.fleet.shards i).baseUrl i) (s.log ++ [.request backend false]) := by
        refine (streak_of_neither ?_ ?_ _).symm <;> simp [Entry.failed, Entry.clears, hu', hb]
      rw [hkept, hsame] at hcounted
      rw [Function.update_of_ne hb]
      exact hcounted

theorem probe_ledger {j : Fin n} {ok : Bool} (h : Ledger i s)
    (hok : ProbesSucceed i (.probe j ok : Event n))
    (ht : step policy healthManaged s (.probe j ok) = some t) :
    Ledger i t ∧ ¬ Condemned i s t := by
  simp only [step] at ht
  split_ifs at ht
  obtain rfl := Option.some.inj ht
  have happly : s.fleet.recordProbe policy j ok = apply policy s.fleet (j, .recordProbe ok) := rfl
  have hshard := apply_shards policy h.consistent (j, .recordProbe ok) i
  have hsame : ((apply policy s.fleet (j, .recordProbe ok)).shards i).isServing =
        (s.fleet.shards i).isServing ∧
      ((apply policy s.fleet (j, .recordProbe ok)).shards i).consecutiveReportedFailures =
        (s.fleet.shards i).consecutiveReportedFailures ∧
      (((apply policy s.fleet (j, .recordProbe ok)).shards i).state = .dead →
        (s.fleet.shards i).state = .dead) := by
    rw [hshard]
    by_cases hi : i = j
    · obtain rfl : ok = true := hok hi.symm
      rw [if_pos hi]
      exact evolve_probe _
    · rw [if_neg hi]
      exact ⟨rfl, rfl, id⟩
  obtain ⟨hserving, hfailures, hdead⟩ := hsame
  have hbase := baseUrl_apply policy h.consistent (j, .recordProbe ok) i
  rw [happly]
  refine ⟨⟨consistent_apply policy h.consistent _, fun hs url hu ↦ ?_, fun hs hu ↦ ?_⟩, fun hc ↦ ?_⟩
  · simp only [hserving, hbase] at hs hu
    have hcounted := h.counted hs url hu
    simp only [failedRequests, hbase, hfailures]
    exact hcounted
  · simp only [hserving, hbase] at hs hu
    simp only [hfailures]
    exact h.unnamed hs hu
  · exact hc.1 (hdead hc.2)

theorem report_ledger (h : Ledger i s) (ht : step policy healthManaged s .report = some t) :
    Ledger i t ∧ (Condemned i s t → policy.unhealthyThreshold ≤ failedRequests t i) := by
  obtain ⟨counts, hcounts, rfl⟩ := Option.map_eq_some_iff.mp ht
  obtain ⟨hc, hshards⟩ := reported_drain policy h.consistent counts
  have hi := hshards i
  have hrequests : failedRequests { s with
      fleet := drainRouterFailures policy s.fleet counts, drained := none } i =
        failedRequests s i := by
    simp only [failedRequests, hi.baseUrl]
  have hurl : ∀ url ∈ (s.fleet.shards i).baseUrl, (s.fleet.shards i).isServing = true →
      (s.fleet.shards i).consecutiveReportedFailures + share s.fleet i counts +
        s.router.backendFailures url ≤ failedRequests s i := by
    intro url hu hs
    have hcounted := h.counted hs url hu
    have hshare := share_le hu counts
    simp only [undrained, hcounts, Option.getD_some] at hcounted
    omega
  refine ⟨⟨hc, fun hs url hu ↦ ?_, fun hs hu ↦ ?_⟩, fun hcond ↦ ?_⟩
  · rw [hrequests]
    simp only [hi.baseUrl] at hu
    obtain ⟨hs₀, heq⟩ := hi.serving hs
    have hle := hurl url hu hs₀
    simp only [undrained, heq, Option.getD_none, List.filter_nil, List.map_nil, List.sum_nil]
    omega
  · simp only [hi.baseUrl] at hu
    obtain ⟨hs₀, heq⟩ := hi.serving hs
    simp only [heq, share_of_none hu, h.unnamed hs₀ hu]
  · obtain ⟨hs₀, hle⟩ := hi.dead hcond.1 hcond.2
    rw [hrequests]
    cases hu : (s.fleet.shards i).baseUrl with
    | none =>
      have hpos := policy.unhealthy_pos
      rw [share_of_none hu, h.unnamed hs₀ hu] at hle
      omega
    | some url =>
      have hcounted := hurl url hu hs₀
      omega

theorem refit_ledger {j : Fin n} {weightVersion : ℤ} (h : Ledger i s)
    (hok : Settled i s (.refit j weightVersion))
    (ht : step policy healthManaged s (.refit j weightVersion) = some t) :
    Ledger i t ∧ ¬ Condemned i s t := by
  obtain rfl := Option.some.inj ht
  have happly : s.fleet.reportRefit j weightVersion =
    apply policy s.fleet (j, .reportRefit weightVersion) := rfl
  have hshard := apply_shards policy h.consistent (j, .reportRefit weightVersion) i
  have hbase := baseUrl_apply policy h.consistent (j, .reportRefit weightVersion) i
  rw [happly]
  by_cases hi : i = j
  · subst hi
    rw [if_pos rfl] at hshard
    have hrefit : (evolve policy (s.fleet.shards i) (.reportRefit weightVersion)).state ≠ .dead ∧
        ((evolve policy (s.fleet.shards i) (.reportRefit weightVersion)).isServing = true →
          (evolve policy (s.fleet.shards i)
            (.reportRefit weightVersion)).consecutiveReportedFailures = 0) := by
      simp only [evolve]
      split_ifs with hretired
      · simp [hretired, ShardHealth.isServing]
      · simp
    rw [← hshard] at hrefit
    refine ⟨⟨consistent_apply policy h.consistent _, fun hs url hu ↦ ?_, fun hs _ ↦ hrefit.2 hs⟩,
      fun hc ↦ hrefit.1 hc.2⟩
    simp only [hbase] at hu
    have hnone : undrained s url = 0 := hok rfl url hu
    have hzero := hrefit.2 hs
    have hsame : undrained { s with
        fleet := apply policy s.fleet (i, .reportRefit weightVersion)
        log := s.log ++ [.refit i] } url = undrained s url := rfl
    rw [hsame, hnone, hzero]
    exact Nat.zero_le _
  · rw [if_neg hi] at hshard
    have hkept : ∀ url, streak (Entry.failed url) (Entry.clears url i) (s.log ++ [.refit j]) =
        streak (Entry.failed url) (Entry.clears url i) s.log := by
      intro url
      refine streak_of_neither ?_ ?_ _ <;> simp [Entry.failed, Entry.clears, Ne.symm hi]
    refine ⟨⟨consistent_apply policy h.consistent _, fun hs url hu ↦ ?_, fun hs hu ↦ ?_⟩, fun hc ↦ ?_⟩
    · simp only [hshard] at hs hu
      have hcounted := h.counted hs url hu
      simp only [failedRequests, hshard, hkept]
      exact hcounted
    · simp only [hshard] at hs hu ⊢
      exact h.unnamed hs hu
    · have hdead := hc.2
      simp only [hshard] at hdead
      exact hc.1 hdead

theorem step_ledger (h : Ledger i s) (hprobes : ProbesSucceed i e) (hok : Settled i s e)
    (ht : step policy healthManaged s e = some t) :
    Ledger i t ∧ (Condemned i s t → policy.unhealthyThreshold ≤ failedRequests t i) := by
  cases e with
  | request =>
    obtain rfl := Option.some.inj ht
    refine ⟨h.frame rfl rfl fun url ↦ ?_, fun hc ↦ absurd hc (not_condemned rfl)⟩
    simp only [undrained, backendFailures_beginRequest]
    exact le_rfl
  | finish backend outcome =>
    obtain ⟨hledger, hnot⟩ := finish_ledger h hok ht
    exact ⟨hledger, fun hc ↦ absurd hc hnot⟩
  | probe j ok =>
    obtain ⟨hledger, hnot⟩ := probe_ledger h hprobes ht
    exact ⟨hledger, fun hc ↦ absurd hc hnot⟩
  | drain =>
    simp only [step] at ht
    split_ifs at ht with hdrained
    obtain rfl := Option.some.inj ht
    refine ⟨h.frame rfl rfl fun url ↦ ?_, fun hc ↦ absurd hc (not_condemned rfl)⟩
    have hnone : s.drained = none := by simpa using hdrained
    have hmoved := undrained_drain s.router url
    simp only [undrained, hnone, Option.getD_some, Option.getD_none, List.filter_nil, List.map_nil,
      List.sum_nil]
    omega
  | report => exact report_ledger h ht
  | lose =>
    obtain rfl := Option.some.inj ht
    refine ⟨h.frame rfl rfl fun url ↦ ?_, fun hc ↦ absurd hc (not_condemned rfl)⟩
    simp [undrained]
  | push =>
    obtain rfl := Option.some.inj ht
    exact ⟨h.frame rfl rfl fun _ ↦ le_rfl, fun hc ↦ absurd hc (not_condemned rfl)⟩
  | restart =>
    obtain rfl := Option.some.inj ht
    refine ⟨h.frame rfl rfl fun url ↦ ?_, fun hc ↦ absurd hc (not_condemned rfl)⟩
    simp [undrained, Router.init]
  | refit j weightVersion =>
    obtain ⟨hledger, hnot⟩ := refit_ledger h hok ht
    exact ⟨hledger, fun hc ↦ absurd hc hnot⟩

theorem ledger_initial (h : Initial s) : Ledger i s := by
  obtain ⟨backendUrls, baseUrls, rfl⟩ := h
  exact ⟨consistent_run (defaultPolicy 0) baseUrls [], fun _ _ _ ↦ Nat.zero_le _, fun _ _ ↦ rfl⟩

end Ledger

/-- In a run in which no request is answered by a shard that a failure still counts
against, a shard is condemned only for as many failed requests in a row as the threshold. -/
theorem condemned_in_a_row (policy : FleetHealthPolicy) (healthManaged : Bool) (i : Fin n)
    (s t : System n) (e : Event n)
    (h : ReachableBy (step policy healthManaged) Initial
      (fun s e ↦ ProbesSucceed i e ∧ Settled i s e) s)
    (hok : ProbesSucceed i e ∧ Settled i s e) (ht : step policy healthManaged s e = some t)
    (hc : Condemned i s t) : policy.unhealthyThreshold ≤ failedRequests t i := by
  have hledger : Ledger i s := by
    refine ReachableBy.invariant (I := Ledger i) (fun s hs ↦ ledger_initial hs)
      (fun s e t h hok ht ↦ ?_) h
    exact (step_ledger h hok.1 hok.2 ht).1
  exact (step_ledger hledger hok.1 hok.2 ht).2 hc

def single : System 1 := init ["http://a/v1"] fun _ ↦ some "http://a/v1"

def failing : List (Event 1) := [.request, .finish "http://a/v1" .backendError, .push]

def answering : List (Event 1) := [.request, .finish "http://a/v1" .answered]

/-- The state of the fleet and the router when the controller is about to report. -/
def reporting (events : List (Event 1)) : System 1 :=
  (exec (step (defaultPolicy 5) true) single (events ++ [.drain])).getD single

def reported (events : List (Event 1)) : System 1 :=
  (step (defaultPolicy 5) true (reporting events) .report).getD single

theorem condemned_in_a_row_three :
    Condemned 0 (reporting (failing ++ failing ++ failing))
        (reported (failing ++ failing ++ failing)) ∧
      3 ≤ failedRequests (reported (failing ++ failing ++ failing)) 0 := by
  have hrun : ReachableBy (step (defaultPolicy 5) true) Initial
      (fun s e ↦ ProbesSucceed 0 e ∧ Settled 0 s e) (reporting (failing ++ failing ++ failing)) := by
    refine ReachableBy.execBy (.init ⟨_, _, rfl⟩) (s := single)
      (failing ++ failing ++ failing ++ [.drain]) ?_
    rfl
  have hc : Condemned 0 (reporting (failing ++ failing ++ failing))
      (reported (failing ++ failing ++ failing)) := by decide
  exact ⟨hc, condemned_in_a_row (defaultPolicy 5) true 0 _ _ .report hrun (by decide) rfl hc⟩

/-- A shard that answers every second request is condemned all the same. -/
theorem alternating_condemned :
    ReachableBy (step (defaultPolicy 5) true) Initial (fun _ e ↦ ProbesSucceed 0 e)
        (reporting (failing ++ answering ++ failing ++ answering ++ failing)) ∧
      step (defaultPolicy 5) true
          (reporting (failing ++ answering ++ failing ++ answering ++ failing)) .report =
        some (reported (failing ++ answering ++ failing ++ answering ++ failing)) ∧
      Condemned 0 (reporting (failing ++ answering ++ failing ++ answering ++ failing))
        (reported (failing ++ answering ++ failing ++ answering ++ failing)) ∧
      failedRequests (reported (failing ++ answering ++ failing ++ answering ++ failing)) 0 <
        (defaultPolicy 5).unhealthyThreshold := by
  refine ⟨?_, rfl, by decide, by decide⟩
  refine ReachableBy.execBy (.init ⟨_, _, rfl⟩) (s := single)
    (failing ++ answering ++ failing ++ answering ++ failing ++ [.drain]) ?_
  rfl

end NemoRL.Generation.GenerationRouter
