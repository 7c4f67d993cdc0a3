import Mathlib
import NemoRL.Foundations.Streaks
import NemoRL.Generation.FleetHealth

namespace NemoRL.Generation.FleetHealth

open Foundations.Streaks

variable {n : ℕ} {policy : FleetHealthPolicy}

def evolve (policy : FleetHealthPolicy) (shard : ShardHealth) : Op → ShardHealth
  | .recordProbe true =>
    if shard.isServing then { shard with
      consecutiveProbeFailures := 0
      consecutiveProbeSuccesses := shard.consecutiveProbeSuccesses + 1
      state :=
        if shard.state = .suspect ∧
          policy.healthyThreshold ≤ shard.consecutiveProbeSuccesses + 1 then .healthy
        else shard.state }
    else shard
  | .recordProbe false =>
    if shard.isServing then { shard with
      consecutiveProbeSuccesses := 0
      consecutiveProbeFailures := shard.consecutiveProbeFailures + 1
      state :=
        if policy.unhealthyThreshold ≤ shard.consecutiveProbeFailures + 1 then .dead
        else .suspect }
    else shard
  | .reportFailure =>
    if shard.isServing then { shard with
      consecutiveReportedFailures := shard.consecutiveReportedFailures + 1
      state :=
        if policy.unhealthyThreshold ≤ shard.consecutiveReportedFailures + 1 then .dead
        else .suspect }
    else shard
  | .reportSuccess => { shard with consecutiveReportedFailures := 0 }
  | .markRestarting =>
    if shard.state = .retired then shard
    else { shard with
      restartAttempts := shard.restartAttempts + 1
      state :=
        if policy.maxRestartAttemptsPerShard < (shard.restartAttempts + 1 : ℕ) then .retired
        else .restarting }
  | .markLoaded => if shard.state = .retired then shard else { shard with state := .stale }
  | .reportRefit weightVersion =>
    if shard.state = .retired then shard
    else { shard with
      weightVersion := weightVersion
      consecutiveProbeFailures := 0
      consecutiveProbeSuccesses := 0
      consecutiveReportedFailures := 0
      state := .healthy }
  | .retire => { shard with state := .retired }

section Membership

variable {f : GenerationFleetHealth n} {i : Fin n} {shard : ShardHealth}

/-- The set of serving shards is the one the epoch was last counted for. -/
def Consistent (f : GenerationFleetHealth n) : Prop := f.lastServing = f.servingShards

theorem refreshMembership_of_consistent (h : Consistent f) : f.refreshMembership = f :=
  if_neg (not_not.mpr h.symm)

theorem consistent_refresh (f : GenerationFleetHealth n) : Consistent f.refreshMembership := by
  unfold GenerationFleetHealth.refreshMembership
  split_ifs with h
  · exact rfl
  · exact (not_not.mp h).symm

theorem put_shards_self (f : GenerationFleetHealth n) (i : Fin n) (shard : ShardHealth) :
    (f.put i shard).shards i = shard := by
  simp only [GenerationFleetHealth.put, Function.update_self]

theorem put_put (f : GenerationFleetHealth n) (i : Fin n) (shard shard' : ShardHealth) :
    (f.put i shard).put i shard' = f.put i shard' := by
  simp only [GenerationFleetHealth.put, Function.update_idem]

theorem put_self (f : GenerationFleetHealth n) (i : Fin n) : f.put i (f.shards i) = f := by
  simp only [GenerationFleetHealth.put, Function.update_eq_self]

theorem servingShards_put (h : shard.isServing = (f.shards i).isServing) :
    (f.put i shard).servingShards = f.servingShards := by
  refine List.filter_congr fun j _ ↦ ?_
  by_cases hj : j = i
  · subst hj
    rw [put_shards_self, h]
  · simp only [GenerationFleetHealth.put, Function.update_of_ne hj]

/-- Where the shard stays in or out of the set, nothing is counted. -/
theorem put_consistent (hf : Consistent f) (h : shard.isServing = (f.shards i).isServing) :
    (f.put i shard).refreshMembership = f.put i shard := by
  apply refreshMembership_of_consistent
  exact Eq.trans hf (servingShards_put h).symm

theorem transition_put (hf : Consistent f) (h : shard.isServing = (f.shards i).isServing)
    (newState : ShardState) : (f.put i shard).transition i newState =
      (f.put i { shard with state := newState }).refreshMembership := by
  unfold GenerationFleetHealth.transition
  rw [put_shards_self, put_put]
  split_ifs with hstate
  · subst hstate
    exact (put_consistent hf h).symm
  · rfl

theorem transition_eq (hf : Consistent f) (newState : ShardState) : f.transition i newState =
    (f.put i { f.shards i with state := newState }).refreshMembership := by
  have h : (f.put i (f.shards i)).transition i newState =
      (f.put i { f.shards i with state := newState }).refreshMembership := by
    apply transition_put hf
    rfl
  rwa [put_self] at h

/-- Every operation changes its shard alone, and counts where the set changes. -/
theorem apply_eq (hf : Consistent f) (i : Fin n) (op : Op) : apply policy f (i, op) =
    (f.put i (evolve policy (f.shards i) op)).refreshMembership := by
  have hsame : (f.put i (f.shards i)).refreshMembership = f := by
    rw [put_self, refreshMembership_of_consistent hf]
  cases op with
  | recordProbe ok =>
    simp only [apply, GenerationFleetHealth.recordProbe]
    cases hserving : (f.shards i).isServing with
    | false =>
      rw [if_pos rfl]
      cases ok <;> simp [evolve, hserving, hsame]
    | true =>
      rw [if_neg (by decide)]
      cases ok with
      | true =>
        simp only [evolve, hserving, if_true]
        split_ifs with h
        · apply transition_put hf
          rfl
        · refine (put_consistent hf ?_).symm
          rfl
      | false =>
        simp only [evolve, hserving, if_true, Bool.false_eq_true, if_false]
        split_ifs with h h'
        · apply transition_put hf
          rfl
        · apply transition_put hf
          rfl
        · have hstate : (f.shards i).state = .suspect := by
            simpa [ShardHealth.isServing, h'] using hserving
          rw [← hstate]
          refine (put_consistent hf ?_).symm
          rfl
  | reportFailure =>
    simp only [apply, GenerationFleetHealth.reportFailure]
    cases hserving : (f.shards i).isServing with
    | false => simp [evolve, hserving, hsame]
    | true =>
      simp only [evolve, hserving, if_true, Bool.true_eq_false, if_false]
      split_ifs with h h'
      · apply transition_put hf
        rfl
      · apply transition_put hf
        rfl
      · have hstate : (f.shards i).state = .suspect := by
          simpa [ShardHealth.isServing, h'] using hserving
        rw [← hstate]
        refine (put_consistent hf ?_).symm
        rfl
  | reportSuccess =>
    refine (put_consistent hf ?_).symm
    rfl
  | markRestarting =>
    simp only [apply, GenerationFleetHealth.markRestarting, GenerationFleetHealth.retire, evolve]
    split_ifs with h h'
    · exact hsame.symm
    · apply transition_put hf
      rfl
    · apply transition_put hf
      rfl
  | markLoaded =>
    simp only [apply, GenerationFleetHealth.markLoaded, evolve]
    split_ifs with h
    · exact hsame.symm
    · exact transition_eq hf _
  | reportRefit weightVersion =>
    simp only [apply, GenerationFleetHealth.reportRefit, evolve]
    split_ifs with h
    · exact hsame.symm
    · apply transition_put hf
      rfl
  | retire => exact transition_eq hf _

theorem refreshMembership_shards (f : GenerationFleetHealth n) :
    f.refreshMembership.shards = f.shards := by
  unfold GenerationFleetHealth.refreshMembership
  split_ifs <;> rfl

theorem apply_shards (policy : FleetHealthPolicy) (hf : Consistent f) (e : Event n) (j : Fin n) :
    (apply policy f e).shards j =
      if j = e.1 then evolve policy (f.shards j) e.2 else f.shards j := by
  obtain ⟨i, op⟩ := e
  rw [apply_eq hf, refreshMembership_shards]
  by_cases hj : j = i
  · subst hj
    rw [put_shards_self, if_pos rfl]
  · rw [if_neg hj]
    exact Function.update_of_ne hj _ _

theorem consistent_apply (policy : FleetHealthPolicy) (hf : Consistent f) (e : Event n) : Consistent (apply policy f e) := by
  obtain ⟨i, op⟩ := e
  rw [apply_eq hf]
  exact consistent_refresh _

theorem apply_epoch (hf : Consistent f) (e : Event n) : (apply policy f e).membershipEpoch =
    f.membershipEpoch + if (apply policy f e).servingShards = f.servingShards then 0 else 1 := by
  obtain ⟨i, op⟩ := e
  obtain ⟨g, hg, hlast, hepoch⟩ : ∃ g : GenerationFleetHealth n,
      apply policy f (i, op) = g.refreshMembership ∧ g.lastServing = f.servingShards ∧
        g.membershipEpoch = f.membershipEpoch := by
    refine ⟨_, apply_eq hf i op, ?_, rfl⟩
    exact hf
  have hserving : g.refreshMembership.servingShards = g.servingShards := by
    unfold GenerationFleetHealth.servingShards
    rw [refreshMembership_shards]
  rw [hg, hserving, ← hlast, ← hepoch]
  unfold GenerationFleetHealth.refreshMembership
  by_cases h : g.servingShards = g.lastServing
  · rw [if_neg (not_not.mpr h), if_pos h]
    rfl
  · rw [if_pos h, if_neg h]

end Membership

section Shards

variable {shard : ShardHealth} {op : Op}

theorem refit_of_serving (h : shard.isServing = false)
    (h' : (evolve policy shard op).isServing = true) :
    ∃ weightVersion, op = .reportRefit weightVersion ∧
      (evolve policy shard op).weightVersion = weightVersion := by
  cases op with
  | recordProbe ok => cases ok <;> simp [evolve, h] at h'
  | reportFailure => simp [evolve, h] at h'
  | reportSuccess => simp_all [evolve, ShardHealth.isServing]
  | markRestarting =>
    simp only [evolve] at h'
    split_ifs at h' <;> simp_all [ShardHealth.isServing]
  | markLoaded =>
    simp only [evolve] at h'
    split_ifs at h' <;> simp_all [ShardHealth.isServing]
  | reportRefit weightVersion =>
    refine ⟨weightVersion, rfl, ?_⟩
    simp only [evolve] at h' ⊢
    split_ifs at h' ⊢ with hretired
    · simp [ShardHealth.isServing, hretired] at h'
    · rfl
  | retire => simp [evolve, ShardHealth.isServing] at h'

theorem evolve_retired (policy : FleetHealthPolicy) (op : Op) (h : shard.state = .retired) :
    (evolve policy shard op).state = .retired := by
  have hserving : shard.isServing = false := by simp [ShardHealth.isServing, h]
  cases op with
  | recordProbe ok => cases ok <;> simp [evolve, hserving, h]
  | _ => simp [evolve, hserving, h]

def Op.probesAfter (failed : ℕ) : Op → ℕ
  | .recordProbe true | .reportRefit _ => 0
  | .recordProbe false => failed + 1
  | _ => failed

def Op.reportsAfter (failed : ℕ) : Op → ℕ
  | .reportSuccess | .reportRefit _ => 0
  | .reportFailure => failed + 1
  | _ => failed

/-- A serving shard counts its failures, and has not reached the threshold. -/
structure Counts (policy : FleetHealthPolicy) (probes reports : ℕ) (shard : ShardHealth) : Prop where
  probes_eq : shard.consecutiveProbeFailures = probes
  reports_eq : shard.consecutiveReportedFailures = reports
  probes_lt : probes < policy.unhealthyThreshold
  reports_lt : reports < policy.unhealthyThreshold

variable {probes reports : ℕ}

theorem evolve_counts (h : shard.isServing = true → Counts policy probes reports shard)
    (h' : (evolve policy shard op).isServing = true) :
    Counts policy (op.probesAfter probes) (op.reportsAfter reports) (evolve policy shard op) := by
  have hpos := policy.unhealthy_pos
  by_cases hserving : shard.isServing = true
  · obtain ⟨hp, hr, hplt, hrlt⟩ := h hserving
    have hnot : shard.state ≠ .retired := by
      intro hretired
      simp [ShardHealth.isServing, hretired] at hserving
    cases op with
    | recordProbe ok =>
      cases ok with
      | true =>
        simp only [evolve, hserving, if_true]
        exact ⟨rfl, hr, hpos, hrlt⟩
      | false =>
        simp only [evolve, hserving, if_true] at h' ⊢
        split_ifs at h' with hdead
        · simp [ShardHealth.isServing] at h'
        · refine ⟨?_, hr, ?_, hrlt⟩ <;> simp only [Op.probesAfter] <;> omega
    | reportFailure =>
      simp only [evolve, hserving, if_true] at h' ⊢
      split_ifs at h' with hdead
      · simp [ShardHealth.isServing] at h'
      · refine ⟨hp, ?_, hplt, ?_⟩ <;> simp only [Op.reportsAfter] <;> omega
    | reportSuccess => exact ⟨hp, rfl, hplt, hpos⟩
    | markRestarting =>
      simp only [evolve, if_neg hnot] at h'
      split_ifs at h' <;> simp [ShardHealth.isServing] at h'
    | markLoaded => simp [evolve, hnot, ShardHealth.isServing] at h'
    | reportRefit weightVersion =>
      simp only [evolve, if_neg hnot]
      exact ⟨rfl, rfl, hpos, hpos⟩
    | retire => simp [evolve, ShardHealth.isServing] at h'
  · obtain ⟨weightVersion, rfl, -⟩ := refit_of_serving (by simpa using hserving) h'
    have hnot : shard.state ≠ .retired := by
      intro hretired
      have hstays := evolve_retired policy (.reportRefit weightVersion) hretired
      simp [ShardHealth.isServing, hstays] at h'
    simp only [evolve, if_neg hnot]
    exact ⟨rfl, rfl, hpos, hpos⟩

theorem evolve_dead (hserving : shard.isServing = true) (h : Counts policy probes reports shard) :
    (evolve policy shard op).state = .dead ↔ policy.unhealthyThreshold ≤ op.probesAfter probes ∨
      policy.unhealthyThreshold ≤ op.reportsAfter reports := by
  obtain ⟨hp, hr, hplt, hrlt⟩ := h
  have hpos := policy.unhealthy_pos
  have hstate : shard.state = .healthy ∨ shard.state = .suspect := by
    simpa [ShardHealth.isServing] using hserving
  have halive : shard.state ≠ .dead := by rcases hstate with h | h <;> simp [h]
  have hnot : shard.state ≠ .retired := by rcases hstate with h | h <;> simp [h]
  cases op with
  | recordProbe ok =>
    cases ok with
    | true =>
      simp only [evolve, hserving, if_true, Op.probesAfter, Op.reportsAfter]
      split_ifs <;> simp [halive] <;> omega
    | false =>
      simp only [evolve, hserving, if_true, Op.probesAfter, Op.reportsAfter, hp]
      split_ifs with hdead <;> simp <;> omega
  | reportFailure =>
    simp only [evolve, hserving, if_true, Op.probesAfter, Op.reportsAfter, hr]
    split_ifs with hdead <;> simp <;> omega
  | reportSuccess =>
    simp only [evolve, Op.probesAfter, Op.reportsAfter, halive, false_iff]
    omega
  | markRestarting =>
    simp only [evolve, if_neg hnot, Op.probesAfter, Op.reportsAfter]
    split_ifs <;> simp <;> omega
  | markLoaded =>
    simp only [evolve, if_neg hnot, Op.probesAfter, Op.reportsAfter, reduceCtorEq, false_iff]
    omega
  | reportRefit weightVersion =>
    simp only [evolve, if_neg hnot, Op.probesAfter, Op.reportsAfter, reduceCtorEq, false_iff]
    omega
  | retire =>
    simp only [evolve, Op.probesAfter, Op.reportsAfter, reduceCtorEq, false_iff]
    omega

theorem evolve_attempts (policy : FleetHealthPolicy) (shard : ShardHealth) (op : Op) :
    shard.restartAttempts ≤ (evolve policy shard op).restartAttempts ∧
    (shard.state ≠ .restarting → (evolve policy shard op).state = .restarting →
      (evolve policy shard op).restartAttempts = shard.restartAttempts + 1 ∧
        ((shard.restartAttempts + 1 : ℕ) : ℤ) ≤ policy.maxRestartAttemptsPerShard) := by
  cases op with
  | recordProbe ok =>
    cases ok <;> simp only [evolve] <;> split_ifs <;> simp_all
  | reportFailure => simp only [evolve]; split_ifs <;> simp_all
  | reportSuccess => simp_all [evolve]
  | markRestarting => simp only [evolve]; split_ifs <;> simp_all
  | markLoaded => simp only [evolve]; split_ifs <;> simp_all
  | reportRefit weightVersion => simp only [evolve]; split_ifs <;> simp_all
  | retire => simp_all [evolve]

end Shards

section Runs

variable {baseUrls : Fin n → Option String} {events : List (Event n)} {i : Fin n}

theorem run_append_singleton (policy : FleetHealthPolicy) (baseUrls : Fin n → Option String)
    (events : List (Event n)) (e : Event n) :
    run policy baseUrls (events ++ [e]) = apply policy (run policy baseUrls events) e := by
  simp only [run, List.foldl_append, List.foldl_cons, List.foldl_nil]

theorem consistent_run (policy : FleetHealthPolicy) (baseUrls : Fin n → Option String)
    (events : List (Event n)) : Consistent (run policy baseUrls events) := by
  induction events using List.reverseRecOn with
  | nil => simp [run, Consistent, GenerationFleetHealth.init, GenerationFleetHealth.servingShards,
      ShardHealth.isServing]
  | append_singleton events e ih =>
    rw [run_append_singleton]
    exact consistent_apply policy ih e

def Op.clearsProbes : Op → Bool
  | .recordProbe true | .reportRefit _ => true
  | _ => false

def Op.clearsReports : Op → Bool
  | .reportSuccess | .reportRefit _ => true
  | _ => false

/-- The failed probes of a shard since its last successful one or its last refit. -/
def failedProbes (i : Fin n) (events : List (Event n)) : ℕ :=
  streak (fun e ↦ e = (i, .recordProbe false)) (fun e ↦ e.1 = i ∧ e.2.clearsProbes) events

/-- The failures reported of a shard since its last reported success or its last refit. -/
def reportedFailures (i : Fin n) (events : List (Event n)) : ℕ :=
  streak (fun e ↦ e = (i, .reportFailure)) (fun e ↦ e.1 = i ∧ e.2.clearsReports) events

theorem failedProbes_append (i : Fin n) (events : List (Event n)) (e : Event n) :
    failedProbes i (events ++ [e]) =
      if i = e.1 then e.2.probesAfter (failedProbes i events) else failedProbes i events := by
  obtain ⟨j, op⟩ := e
  unfold failedProbes
  by_cases hj : i = j
  · subst hj
    rw [if_pos rfl]
    cases op with
    | recordProbe ok =>
      cases ok with
      | true => exact streak_of_good (by simp [Op.clearsProbes]) _
      | false => exact streak_of_bad (by simp [Op.clearsProbes]) (by simp) _
    | reportRefit weightVersion => exact streak_of_good (by simp [Op.clearsProbes]) _
    | _ => exact streak_of_neither (by simp [Op.clearsProbes]) (by simp) _
  · rw [if_neg hj]
    exact streak_of_neither (by simp [Ne.symm hj]) (by simp [Ne.symm hj]) _

theorem reportedFailures_append (i : Fin n) (events : List (Event n)) (e : Event n) :
    reportedFailures i (events ++ [e]) =
      if i = e.1 then e.2.reportsAfter (reportedFailures i events)
      else reportedFailures i events := by
  obtain ⟨j, op⟩ := e
  unfold reportedFailures
  by_cases hj : i = j
  · subst hj
    rw [if_pos rfl]
    cases op with
    | reportFailure => exact streak_of_bad (by simp [Op.clearsReports]) (by simp) _
    | reportSuccess => exact streak_of_good (by simp [Op.clearsReports]) _
    | reportRefit weightVersion => exact streak_of_good (by simp [Op.clearsReports]) _
    | _ => exact streak_of_neither (by simp [Op.clearsReports]) (by simp) _
  · rw [if_neg hj]
    exact streak_of_neither (by simp [Ne.symm hj]) (by simp [Ne.symm hj]) _

/-- The two counters of a serving shard are the streaks of the run. -/
theorem counts_run (policy : FleetHealthPolicy) (baseUrls : Fin n → Option String)
    (events : List (Event n)) (i : Fin n)
    (h : ((run policy baseUrls events).shards i).isServing = true) :
    Counts policy (failedProbes i events) (reportedFailures i events)
      ((run policy baseUrls events).shards i) := by
  induction events using List.reverseRecOn with
  | nil => exact ⟨rfl, rfl, policy.unhealthy_pos, policy.unhealthy_pos⟩
  | append_singleton events e ih =>
    rw [run_append_singleton, apply_shards policy (consistent_run policy baseUrls events)] at h ⊢
    rw [failedProbes_append, reportedFailures_append]
    by_cases hi : i = e.1
    · rw [if_pos hi] at h ⊢
      rw [if_pos hi, if_pos hi]
      exact evolve_counts ih h
    · rw [if_neg hi] at h ⊢
      rw [if_neg hi, if_neg hi]
      exact ih h

def moment (policy : FleetHealthPolicy) (baseUrls : Fin n → Option String) (events : List (Event n))
    (k : ℕ) : GenerationFleetHealth n :=
  run policy baseUrls (events.take k)

theorem moment_succ {k : ℕ} {e : Event n} (h : events[k]? = some e) :
    moment policy baseUrls events (k + 1) = apply policy (moment policy baseUrls events k) e := by
  rw [moment, List.take_add_one, h]
  exact run_append_singleton policy baseUrls (events.take k) e

theorem consistent_moment (k : ℕ) : Consistent (moment policy baseUrls events k) :=
  consistent_run policy baseUrls (events.take k)

theorem moment_shards_succ {k : ℕ} {e : Event n} (h : events[k]? = some e) (i : Fin n) :
    (moment policy baseUrls events (k + 1)).shards i =
      if i = e.1 then evolve policy ((moment policy baseUrls events k).shards i) e.2
      else (moment policy baseUrls events k).shards i := by
  rw [moment_succ h, apply_shards policy (consistent_moment k)]

theorem moment_of_length_le {k : ℕ} (h : events.length ≤ k) :
    moment policy baseUrls events (k + 1) = moment policy baseUrls events k := by
  rw [moment, moment, List.take_of_length_le h, List.take_of_length_le (by omega)]

theorem moment_induction {P : GenerationFleetHealth n → Prop}
    (hs : ∀ k e, events[k]? = some e → P (moment policy baseUrls events k) →
      P (moment policy baseUrls events (k + 1))) {j k : ℕ} (hjk : j ≤ k)
    (h : P (moment policy baseUrls events j)) : P (moment policy baseUrls events k) := by
  induction k, hjk using Nat.le_induction with
  | base => exact h
  | succ k _ ih =>
    rcases Nat.lt_or_ge k events.length with hlt | hge
    · exact hs k _ (List.getElem?_eq_getElem hlt) ih
    · rw [moment_of_length_le hge]
      exact ih

theorem baseUrl_evolve (shard : ShardHealth) (op : Op) :
    (evolve policy shard op).baseUrl = shard.baseUrl := by
  cases op with
  | recordProbe ok => cases ok <;> simp only [evolve] <;> split_ifs <;> rfl
  | reportSuccess => rfl
  | retire => rfl
  | _ => simp only [evolve]; split_ifs <;> rfl

theorem baseUrl_moment (k : ℕ) (i : Fin n) :
    ((moment policy baseUrls events k).shards i).baseUrl = baseUrls i := by
  refine moment_induction (P := fun f ↦ (f.shards i).baseUrl = baseUrls i) ?_ (Nat.zero_le k) rfl
  intro k e he h
  rw [moment_shards_succ he]
  split_ifs with hi
  · rw [baseUrl_evolve, h]
  · exact h

theorem retired_moment {i : Fin n} {j k : ℕ} (hjk : j ≤ k)
    (h : ((moment policy baseUrls events j).shards i).state = .retired) :
    ((moment policy baseUrls events k).shards i).state = .retired := by
  refine moment_induction (P := fun f ↦ (f.shards i).state = .retired) ?_ hjk h
  intro k e he h
  rw [moment_shards_succ he]
  split_ifs with hi
  · exact evolve_retired policy _ h
  · exact h

theorem epoch_succ (k : ℕ) : (moment policy baseUrls events (k + 1)).membershipEpoch =
    (moment policy baseUrls events k).membershipEpoch +
      if (moment policy baseUrls events (k + 1)).servingShards =
        (moment policy baseUrls events k).servingShards then 0 else 1 := by
  rcases Nat.lt_or_ge k events.length with hlt | hge
  · rw [moment_succ (List.getElem?_eq_getElem hlt)]
    exact apply_epoch (consistent_moment k) _
  · rw [moment_of_length_le hge, if_pos rfl]
    rfl

theorem epoch_eq_changes (k : ℕ) : (moment policy baseUrls events k).membershipEpoch =
    (List.range k).countP fun j ↦ (moment policy baseUrls events (j + 1)).servingShards ≠
      (moment policy baseUrls events j).servingShards := by
  induction k with
  | zero => rfl
  | succ k ih =>
    rw [epoch_succ, ih, List.range_succ, List.countP_append, List.countP_singleton]
    by_cases h : (moment policy baseUrls events (k + 1)).servingShards =
        (moment policy baseUrls events k).servingShards <;> simp [h]

theorem serving_of_epoch {j k : ℕ} (hjk : j ≤ k) :
    (moment policy baseUrls events j).membershipEpoch ≤
        (moment policy baseUrls events k).membershipEpoch ∧
      ((moment policy baseUrls events j).membershipEpoch =
          (moment policy baseUrls events k).membershipEpoch →
        (moment policy baseUrls events j).servingShards =
          (moment policy baseUrls events k).servingShards) := by
  induction k, hjk using Nat.le_induction with
  | base => exact ⟨le_rfl, fun _ ↦ rfl⟩
  | succ k _ ih =>
    obtain ⟨hle, hsame⟩ := ih
    rw [epoch_succ]
    split_ifs with h
    · rw [h]
      exact ⟨hle, hsame⟩
    · exact ⟨by omega, fun he ↦ by omega⟩

theorem routes_of_epoch (j k : ℕ) (h : (moment policy baseUrls events j).membershipEpoch =
    (moment policy baseUrls events k).membershipEpoch) :
    (moment policy baseUrls events j).servingShards =
      (moment policy baseUrls events k).servingShards := by
  rcases Nat.le_total j k with hjk | hkj
  · exact (serving_of_epoch hjk).2 h
  · exact ((serving_of_epoch hkj).2 h.symm).symm

theorem restarts_le (i : Fin n) (k : ℕ) :
    ((List.range k).countP fun j ↦
        ((moment policy baseUrls events j).shards i).state ≠ .restarting ∧
          ((moment policy baseUrls events (j + 1)).shards i).state = .restarting) ≤
      min ((moment policy baseUrls events k).shards i).restartAttempts
        policy.maxRestartAttemptsPerShard.toNat := by
  induction k with
  | zero => exact Nat.zero_le _
  | succ k ih =>
    rw [List.range_succ, List.countP_append, List.countP_singleton]
    rcases Nat.lt_or_ge k events.length with hlt | hge
    · rw [moment_shards_succ (List.getElem?_eq_getElem hlt)]
      split_ifs with hi hstarts hstarts
      · obtain ⟨-, hattempts⟩ := evolve_attempts policy
          ((moment policy baseUrls events k).shards i) (events[k]).2
        obtain ⟨hstate, hstate'⟩ := of_decide_eq_true hstarts
        obtain ⟨heq, hle⟩ := hattempts hstate hstate'
        omega
      · have hmono := (evolve_attempts policy
          ((moment policy baseUrls events k).shards i) (events[k]).2).1
        omega
      · obtain ⟨hstate, hstate'⟩ := of_decide_eq_true hstarts
        exact absurd hstate' hstate
      · exact ih
    · rw [moment_of_length_le hge, if_neg (by simp)]
      exact ih

end Runs

/-- Whatever happens to the shards of a fleet: a shard that does not serve comes back by
a refit alone and at its version, a retired one never; a serving shard is condemned
for failures in a row and for nothing else; the epoch counts the changes of the
serving set; and the restarts are bounded. -/
theorem fleet_health_runs (policy : FleetHealthPolicy) (baseUrls : Fin n → Option String)
    (events : List (Event n)) :
    (∀ i k e, events[k]? = some e →
      ((moment policy baseUrls events k).shards i).isServing = false →
      ((moment policy baseUrls events (k + 1)).shards i).isServing = true →
      ∃ weightVersion, e = (i, .reportRefit weightVersion) ∧
        ((moment policy baseUrls events (k + 1)).shards i).weightVersion = weightVersion) ∧
    (∀ i j k, j ≤ k → ((moment policy baseUrls events j).shards i).state = .retired →
      ((moment policy baseUrls events k).shards i).state = .retired) ∧
    (∀ i, ∀ k < events.length, ((moment policy baseUrls events k).shards i).isServing = true →
      (((moment policy baseUrls events (k + 1)).shards i).state = .dead ↔
        policy.unhealthyThreshold ≤ failedProbes i (events.take (k + 1)) ∨
          policy.unhealthyThreshold ≤ reportedFailures i (events.take (k + 1)))) ∧
    (∀ k, (moment policy baseUrls events k).membershipEpoch =
      (List.range k).countP fun j ↦ (moment policy baseUrls events (j + 1)).servingShards ≠
        (moment policy baseUrls events j).servingShards) ∧
    (∀ j k, (moment policy baseUrls events j).membershipEpoch =
        (moment policy baseUrls events k).membershipEpoch →
      (moment policy baseUrls events j).servingShards =
          (moment policy baseUrls events k).servingShards ∧
        (moment policy baseUrls events j).servingBaseUrls =
          (moment policy baseUrls events k).servingBaseUrls ∧
        ∀ inflight, (moment policy baseUrls events j).nextShard inflight =
          (moment policy baseUrls events k).nextShard inflight) ∧
    ∀ i k, ((List.range k).countP fun j ↦
        ((moment policy baseUrls events j).shards i).state ≠ .restarting ∧
          ((moment policy baseUrls events (j + 1)).shards i).state = .restarting) ≤
      policy.maxRestartAttemptsPerShard.toNat := by
  refine ⟨fun i k e he hout hin ↦ ?_, fun i j k hjk h ↦ retired_moment hjk h,
    fun i k hk hserving ↦ ?_, epoch_eq_changes, fun j k h ↦ ?_, fun i k ↦ ?_⟩
  · rw [moment_shards_succ he] at hin ⊢
    split_ifs at hin ⊢ with hi
    · obtain ⟨weightVersion, hop, hversion⟩ := refit_of_serving hout hin
      exact ⟨weightVersion, Prod.ext hi.symm hop, hversion⟩
    · rw [hout] at hin
      cases hin
  · have he : events[k]? = some events[k] := List.getElem?_eq_getElem hk
    have hcounts := counts_run policy baseUrls (events.take k) i hserving
    have htake : events.take (k + 1) = events.take k ++ [events[k]] := by
      rw [List.take_add_one, he]
      rfl
    rw [moment_shards_succ he, htake, failedProbes_append, reportedFailures_append]
    split_ifs with hi
    · exact evolve_dead hserving hcounts
    · have halive : ((moment policy baseUrls events k).shards i).state ≠ .dead := by
        intro hdead
        simp [ShardHealth.isServing, hdead] at hserving
      have hp := hcounts.probes_lt
      have hr := hcounts.reports_lt
      refine ⟨fun hdead ↦ absurd hdead halive, ?_⟩
      omega
  · have hserving := routes_of_epoch j k h
    refine ⟨hserving, ?_, fun inflight ↦ ?_⟩
    · unfold GenerationFleetHealth.servingBaseUrls
      rw [hserving]
      simp only [baseUrl_moment]
    · unfold GenerationFleetHealth.nextShard
      rw [hserving]
  · exact (restarts_le i k).trans (min_le_right _ _)

/-- The events since the shard last went from not serving to serving. -/
def sinceEntry (policy : FleetHealthPolicy) (baseUrls : Fin n → Option String)
    (events : List (Event n)) (i : Fin n) : List (Event n) :=
  let entries := (List.range events.length).filter fun k ↦
    ((moment policy baseUrls events k).shards i).isServing = false ∧
      ((moment policy baseUrls events (k + 1)).shards i).isServing = true
  events.drop ((entries.getLast?.map (· + 1)).getD 0)

def defaultPolicy (maxRestartAttemptsPerShard : ℤ) : FleetHealthPolicy :=
  ⟨3, 2, maxRestartAttemptsPerShard, 1, by decide, Nat.two_pos, Nat.one_pos⟩

/-- A refit of a serving shard clears its streak, so the third failed probe in a row
since its entry does not condemn it; and less than no restart is not possible. -/
theorem entry_streak_fails :
    (∃ (baseUrls : Fin 1 → Option String) (events : List (Event 1)),
      ((run (defaultPolicy 5) baseUrls events).shards 0).isServing = true ∧
      streak (fun e ↦ e = (0, .recordProbe false)) (fun e ↦ e = (0, .recordProbe true))
        (sinceEntry (defaultPolicy 5) baseUrls events 0) = 3) ∧
    ¬ (∀ k, (((List.range k).countP fun j ↦
        ((moment (defaultPolicy (-1)) (fun _ : Fin 1 ↦ none) [] j).shards 0).state ≠ .restarting ∧
          ((moment (defaultPolicy (-1)) (fun _ : Fin 1 ↦ none) [] (j + 1)).shards 0).state =
            .restarting : ℕ) : ℤ) ≤ (defaultPolicy (-1)).maxRestartAttemptsPerShard) := by
  refine ⟨⟨fun _ ↦ none, [(0, .recordProbe false), (0, .recordProbe false), (0, .reportRefit 1),
    (0, .recordProbe false)], ?_⟩, fun h ↦ ?_⟩
  · decide
  · exact absurd (h 0) (by decide)

end NemoRL.Generation.FleetHealth
