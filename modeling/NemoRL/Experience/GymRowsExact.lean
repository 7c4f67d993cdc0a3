import Mathlib
import NemoRL.Experience.GymRollouts

namespace NemoRL.Experience.GymRollouts

open Foundations.Positions

variable {ρ μ ι κ : Type}

section Streams

variable {dispatched received : List ℕ} {deliveries : List (Delivery ρ μ)} {i totalRows : ℕ}
  {r : ρ} {s s' : Received ρ μ} {d : Delivery ρ μ}

/-- A stream brings a row this result, with nothing before it that is not a row of the
dispatch that is still to come. -/
inductive Delivers (dispatched : List ℕ) (i : ℕ) (r : ρ) : List ℕ → List (Delivery ρ μ) → Prop
  | here {received : List ℕ} {timing : Option μ} {deliveries : List (Delivery ρ μ)} :
    i ∈ dispatched → i ∉ received →
    Delivers dispatched i r received (⟨.int i, some r, timing⟩ :: deliveries)
  | later {received : List ℕ} {n : ℕ} {result : Option ρ} {timing : Option μ}
      {deliveries : List (Delivery ρ μ)} : n ∈ dispatched → n ∉ received →
    Delivers dispatched i r (n :: received) deliveries →
    Delivers dispatched i r received (⟨.int n, result, timing⟩ :: deliveries)

theorem Delivers.mem (h : Delivers dispatched i r received deliveries) : i ∈ dispatched := by
  induction h with
  | here hmem _ => exact hmem
  | later _ _ _ ih => exact ih

theorem Delivers.notMem (h : Delivers dispatched i r received deliveries) : i ∉ received := by
  induction h with
  | here _ hnew => exact hnew
  | later _ _ _ ih => exact fun hmem ↦ ih (List.mem_cons_of_mem _ hmem)

theorem receive_ok (h : receive dispatched totalRows s d = .ok s') :
    ∃ n : ℕ, d.rowidx = .int n ∧ n < totalRows ∧ n ∈ dispatched ∧ n ∉ s.received ∧
      s'.results = s.results.set n d.result ∧ s'.received = n :: s.received := by
  obtain ⟨rowidx, result, timing⟩ := d
  cases rowidx with
  | other => cases h
  | int m =>
    simp only [receive] at h
    split_ifs at h with hrange hmem hnew
    obtain ⟨hlo, hhi⟩ := hrange
    obtain rfl := Except.ok.inj h
    refine ⟨m.toNat, ?_, by omega, hmem, hnew, rfl, rfl⟩
    rw [Int.toNat_of_nonneg hlo]

theorem receive_eq_ok {n : ℕ} (hrow : d.rowidx = .int n) (hlt : n < totalRows)
    (hmem : n ∈ dispatched) (hnew : n ∉ s.received) :
    ∃ s', receive dispatched totalRows s d = .ok s' := by
  have hrange : ¬ ¬ ((0 : ℤ) ≤ n ∧ (n : ℤ) < totalRows) := not_not.mpr ⟨by omega, by omega⟩
  rw [receive, hrow]
  simp only [if_neg hrange, Int.toNat_natCast, if_neg (not_not.mpr hmem), if_neg hnew]
  exact ⟨_, rfl⟩

variable (ending : Ending)

theorem length_streamRest (s : Received ρ μ) (deliveries : List (Delivery ρ μ)) :
    (streamRest dispatched totalRows ending s deliveries).1.length = s.results.length := by
  induction deliveries generalizing s with
  | nil => rfl
  | cons d deliveries ih =>
    rw [streamRest]
    cases hd : receive dispatched totalRows s d with
    | error failure => rfl
    | ok s' =>
      obtain ⟨n, -, -, -, -, hresults, -⟩ := receive_ok hd
      rw [ih s', hresults, List.length_set]

theorem getElem?_streamRest_of_notMem (h : i ∉ dispatched ∨ i ∈ s.received) :
    (streamRest dispatched totalRows ending s deliveries).1[i]? = s.results[i]? := by
  induction deliveries generalizing s with
  | nil => rfl
  | cons d deliveries ih =>
    rw [streamRest]
    cases hd : receive dispatched totalRows s d with
    | error failure => rfl
    | ok s' =>
      obtain ⟨n, -, -, hmem, hnew, hresults, hreceived⟩ := receive_ok hd
      have hne : n ≠ i := by
        rintro rfl
        exact h.elim (fun hout ↦ hout hmem) hnew
      have hnext : i ∉ dispatched ∨ i ∈ s'.received := by
        rw [hreceived]
        exact h.imp_right fun hin ↦ List.mem_cons_of_mem _ hin
      rw [ih hnext, hresults, List.getElem?_set_ne hne]

theorem getElem?_streamRest (hrange : ∀ n ∈ dispatched, n < totalRows)
    (hlen : s.results.length = totalRows) (hmem : i ∈ dispatched) (hnew : i ∉ s.received)
    (hnone : s.results[i]? = some none) :
    (streamRest dispatched totalRows ending s deliveries).1[i]? = some (some r) ↔
      Delivers dispatched i r s.received deliveries := by
  induction deliveries generalizing s with
  | nil =>
    change s.results[i]? = some (some r) ↔ _
    rw [hnone]
    refine iff_of_false (fun h ↦ ?_) fun h ↦ ?_
    · cases Option.some.inj h
    · cases h
  | cons d deliveries ih =>
    rw [streamRest]
    cases hd : receive dispatched totalRows s d with
    | error failure =>
      rw [hnone]
      refine iff_of_false (fun h ↦ ?_) fun h ↦ ?_
      · cases Option.some.inj h
      · have htaken : ∃ s', receive dispatched totalRows s d = .ok s' := by
          cases h with
          | here hn hfresh => exact receive_eq_ok rfl (hrange _ hn) hn hfresh
          | later hn hfresh _ => exact receive_eq_ok rfl (hrange _ hn) hn hfresh
        obtain ⟨s', hs'⟩ := htaken
        rw [hd] at hs'
        cases hs'
    | ok s' =>
      obtain ⟨n, hrow, hlt, hn, hfresh, hresults, hreceived⟩ := receive_ok hd
      obtain ⟨rowidx, result, timing⟩ := d
      simp only at hrow hresults
      subst hrow
      by_cases hni : n = i
      · subst hni
        have hin : n ∈ s'.received := hreceived ▸ List.mem_cons_self
        rw [getElem?_streamRest_of_notMem ending (.inr hin), hresults,
          List.getElem?_set_self (hlen.symm ▸ hlt), Option.some_inj]
        constructor
        · rintro rfl
          exact .here hn hfresh
        · intro h
          cases h with
          | here _ _ => rfl
          | later _ _ hlater => exact absurd List.mem_cons_self hlater.notMem
      · have hnew' : i ∉ s'.received := by
          rw [hreceived]
          exact fun hin ↦ (List.mem_cons.mp hin).elim (fun heq ↦ hni heq.symm) hnew
        have hnone' : s'.results[i]? = some none := by
          rw [hresults, List.getElem?_set_ne hni]
          exact hnone
        rw [ih (by rw [hresults, List.length_set]; exact hlen) hnew' hnone', hreceived]
        constructor
        · exact fun h ↦ .later hn hfresh h
        · intro h
          cases h with
          | here _ _ => exact absurd rfl hni
          | later _ _ hlater => exact hlater

end Streams

section Attempts

variable {env : ℕ → List ℕ → RowStream ρ μ} {maxAttempts totalRows : ℕ}
  {s s' : GymState ρ μ} {i : ℕ} {r : ρ}

def Brings (x : List ℕ × RowStream ρ μ) (i : ℕ) (r : ρ) : Prop :=
  Delivers x.1 i r [] x.2.deliveries

/-- The results are those the attempts brought, and none of their rows was
dispatched again. -/
structure Merged (env : ℕ → List ℕ → RowStream ρ μ) (totalRows : ℕ) (s : GymState ρ μ) :
    Prop where
  answers : ∀ k x, s.dispatches[k]? = some x → x.2 = env (k + 1) x.1
  length : s.results.length = totalRows
  result_iff : ∀ i r, s.results[i]? = some (some r) ↔ ∃ x ∈ s.dispatches, Brings x i r
  once : s.dispatches.Pairwise fun x y ↦ ∀ i ∈ y.1, ∀ r, ¬ Brings x i r

theorem mem_pending : i ∈ s.pending ↔ s.results[i]? = some none := by
  rw [GymState.pending, mem_indicesWhere]
  constructor
  · rintro ⟨result, hget, hnone⟩
    rw [hget, Option.isNone_iff_eq_none.mp hnone]
  · intro h
    exact ⟨none, h, rfl⟩

theorem Merged.attempt (h : Merged env totalRows s) {stream : RowStream ρ μ}
    (hstream : stream = env (s.dispatches.length + 1) s.pending)
    (hresults : s'.results = (streamRows s.pending s.results totalRows stream).1)
    (hdispatches : s'.dispatches = s.dispatches ++ [(s.pending, stream)]) :
    Merged env totalRows s' := by
  have hrange : ∀ n ∈ s.pending, n < totalRows := by
    intro n hn
    rw [← h.length]
    exact (List.getElem?_eq_some_iff.mp (mem_pending.mp hn)).1
  have hopen : ∀ n ∈ s.pending, ∀ r, ¬ ∃ x ∈ s.dispatches, Brings x n r := by
    intro n hn r hbrings
    have hsome := (h.result_iff n r).mpr hbrings
    rw [mem_pending.mp hn] at hsome
    cases Option.some.inj hsome
  refine ⟨fun k x hx ↦ ?_, ?_, fun i r ↦ ?_, ?_⟩
  · rw [hdispatches] at hx
    rcases getElem?_append_singleton_cases hx with ⟨rfl, rfl⟩ | hold
    · exact hstream
    · exact h.answers k x hold
  · rw [hresults, streamRows, length_streamRest]
    exact h.length
  · rw [hresults, hdispatches, streamRows]
    have hsplit : (∃ x ∈ s.dispatches ++ [(s.pending, stream)], Brings x i r) ↔
        (∃ x ∈ s.dispatches, Brings x i r) ∨ Brings (s.pending, stream) i r := by
      simp only [List.mem_append, List.mem_singleton, or_and_right, exists_or, exists_eq_left]
    rw [hsplit]
    by_cases hi : i ∈ s.pending
    · rw [getElem?_streamRest stream.ending hrange h.length hi List.not_mem_nil (mem_pending.mp hi)]
      exact (or_iff_right (hopen i hi r)).symm
    · rw [getElem?_streamRest_of_notMem stream.ending (.inl hi)]
      have hnot : ¬ Brings (s.pending, stream) i r := fun hbrings ↦ hi hbrings.mem
      exact (h.result_iff i r).trans (or_iff_left hnot).symm
  · rw [hdispatches]
    refine List.pairwise_append.mpr ⟨h.once, List.pairwise_singleton _ _, ?_⟩
    intro x hx y hy i hi r hbrings
    rw [List.mem_singleton.mp hy] at hi
    exact hopen i hi r ⟨x, hx, hbrings⟩

theorem Merged.runAttempts (h : Merged env totalRows s) {left : ℕ}
    (hleft : s.dispatches.length + left = maxAttempts) :
    Merged env totalRows (runAttempts env maxAttempts totalRows left s).1 ∧
      (GymRollouts.runAttempts env maxAttempts totalRows left s).1.dispatches.length ≤
        maxAttempts := by
  induction left generalizing s with
  | zero => exact ⟨h, hleft.le⟩
  | succ left ih =>
    rw [GymRollouts.runAttempts]
    simp only
    by_cases hpending : s.pending = []
    · rw [if_pos hpending]
      refine ⟨h, ?_⟩
      show s.dispatches.length ≤ maxAttempts
      omega
    rw [if_neg hpending]
    set stream := env (maxAttempts - left) s.pending with hstream
    have hattempt : maxAttempts - left = s.dispatches.length + 1 := by omega
    rw [hattempt] at hstream
    have hcount : ∀ s' : GymState ρ μ, s'.dispatches = s.dispatches ++ [(s.pending, stream)] →
        s'.dispatches.length = s.dispatches.length + 1 := by
      intro s' hdispatches
      rw [hdispatches, List.length_append, List.length_singleton]
    have hstop : ∀ s' : GymState ρ μ,
        s'.results = (streamRows s.pending s.results totalRows stream).1 →
        s'.dispatches = s.dispatches ++ [(s.pending, stream)] →
        Merged env totalRows s' ∧ s'.dispatches.length ≤ maxAttempts := by
      intro s' hresults hdispatches
      refine ⟨h.attempt hstream hresults hdispatches, ?_⟩
      rw [hcount s' hdispatches]
      omega
    have hnext : ∀ s' : GymState ρ μ,
        s'.results = (streamRows s.pending s.results totalRows stream).1 →
        s'.dispatches = s.dispatches ++ [(s.pending, stream)] →
        Merged env totalRows (GymRollouts.runAttempts env maxAttempts totalRows left s').1 ∧
          (GymRollouts.runAttempts env maxAttempts totalRows left s').1.dispatches.length ≤
            maxAttempts := by
      intro s' hresults hdispatches
      refine ih (h.attempt hstream hresults hdispatches) ?_
      rw [hcount s' hdispatches]
      omega
    cases (streamRows s.pending s.results totalRows stream).2 with
    | ok timingMetrics => exact hnext _ rfl rfl
    | error failure =>
      simp only
      by_cases hcaught : failure.caught = true
      · rw [if_neg (not_not.mpr hcaught)]
        by_cases hlast : classifyRolloutFailure failure.exc ≠ .infra ∨
            maxAttempts - left = maxAttempts
        · rw [if_pos hlast]
          exact hstop _ rfl rfl
        · rw [if_neg hlast]
          exact hnext _ rfl rfl
      · rw [if_pos hcaught]
        exact hstop _ rfl rfl

theorem merged_start (env : ℕ → List ℕ → RowStream ρ μ) (inputs : List (Option ℤ × ι)) :
    Merged env inputs.length ⟨inputs.map fun _ ↦ none, none, none, 0, []⟩ := by
  rw [List.map_const']
  refine ⟨fun k x hx ↦ ?_, List.length_replicate, fun i r ↦ ?_, List.Pairwise.nil⟩
  · rw [List.getElem?_nil] at hx
    cases hx
  refine iff_of_false (fun h ↦ ?_) fun ⟨x, hx, _⟩ ↦ by cases hx
  have hnone := List.eq_of_mem_replicate (List.mem_of_getElem? h)
  cases hnone

end Attempts

section Rollouts

variable {env : ℕ → List ℕ → RowStream ρ μ} {toCompletion : ι → ρ → Except Exc κ}

theorem mapM_getElem? {α β ε : Type} {f : α → Except ε β} {l : List α} {bs : List β}
    (h : l.mapM f = .ok bs) : bs.length = l.length ∧
      ∀ (i : ℕ) (a : α), l[i]? = some a → ∃ b, bs[i]? = some b ∧ f a = .ok b := by
  induction l generalizing bs with
  | nil =>
    obtain rfl := Except.ok.inj h
    exact ⟨rfl, fun i a ha ↦ by cases ha⟩
  | cons a l ih =>
    rw [List.mapM_cons] at h
    cases hb : f a with
    | error e =>
      rw [hb] at h
      cases h
    | ok b =>
      cases hbs : l.mapM f with
      | error e =>
        rw [hb, hbs] at h
        cases h
      | ok rest =>
        rw [hb, hbs] at h
        obtain rfl := Except.ok.inj h
        obtain ⟨hlen, hall⟩ := ih hbs
        refine ⟨congrArg Nat.succ hlen, fun i x hx ↦ ?_⟩
        cases i with
        | zero =>
          obtain rfl := Option.some.inj hx
          exact ⟨b, rfl, hb⟩
        | succ i => exact hall i x hx

theorem map_some_reduceOption {α : Type} {l : List (Option α)} (h : none ∉ l) :
    l.reduceOption.map some = l := by
  induction l with
  | nil => rfl
  | cons a l ih =>
    obtain ⟨hne, hrest⟩ := not_or.mp (mt List.mem_cons.mpr h)
    cases a with
    | none => exact absurd rfl hne
    | some a => rw [List.reduceOption_cons_of_some, List.map_cons, ih hrest]

theorem runRollouts_merged (env : ℕ → List ℕ → RowStream ρ μ) (toCompletion : ι → ρ → Except Exc κ)
    (maxAttempts : ℕ) (inputs : List (Option ℤ × ι)) :
    Merged env inputs.length (runRollouts env toCompletion maxAttempts inputs).1 ∧
      (runRollouts env toCompletion maxAttempts inputs).1.dispatches.length ≤ maxAttempts := by
  have hstart := merged_start env inputs
  have hrun := hstart.runAttempts (Nat.zero_add maxAttempts)
  unfold runRollouts
  simp only
  split
  · exact ⟨hstart, Nat.zero_le _⟩
  · split
    · exact hrun
    · split_ifs
      · exact hrun
      · exact hrun
      · exact hrun

/-- The completions are made of the results, row by row, and only if every row has one. -/
theorem runRollouts_ok {maxAttempts : ℕ} {inputs : List (Option ℤ × ι)} {completions : List κ}
    {timing : Option μ}
    (h : (runRollouts env toCompletion maxAttempts inputs).2 = .ok (completions, timing)) :
    completions.length = inputs.length ∧ ∀ (i : ℕ) x, inputs[i]? = some x →
      ∃ r c, (runRollouts env toCompletion maxAttempts inputs).1.results[i]? = some (some r) ∧
        toCompletion x.2 r = .ok c ∧ completions[i]? = some c := by
  obtain ⟨hmerged, -⟩ := runRollouts_merged env toCompletion maxAttempts inputs
  unfold runRollouts at h hmerged ⊢
  simp only at h hmerged ⊢
  split at h
  · cases h
  rename_i hstamped
  simp only [hstamped] at hmerged ⊢
  split at h
  · cases h
  rename_i hraised
  simp only [hraised] at hmerged ⊢
  set run := runAttempts env maxAttempts inputs.length maxAttempts
    ⟨inputs.map fun _ ↦ none, none, none, 0, []⟩
  by_cases hpending : run.1.pending = []
  · rw [if_neg (not_not.mpr hpending)] at h hmerged ⊢
    by_cases hempty : run.1.results.reduceOption = []
    · rw [if_pos hempty] at h
      cases h
    rw [if_neg hempty] at h hmerged ⊢
    simp only at h hmerged ⊢
    cases hmapM : (inputs.zip run.1.results.reduceOption).mapM fun x ↦ toCompletion x.1.2 x.2 with
    | error e =>
      rw [hmapM] at h
      cases h
    | ok completed =>
      rw [hmapM] at h
      obtain rfl := (Prod.mk.inj (Except.ok.inj h)).1
      have hnone : none ∉ run.1.results := by
        intro hmem
        obtain ⟨i, hi⟩ := List.mem_iff_getElem?.mp hmem
        have hpend := mem_pending.mpr hi
        rw [hpending] at hpend
        cases hpend
      have hall := map_some_reduceOption hnone
      have hcount : run.1.results.reduceOption.length = inputs.length := by
        rw [← hmerged.length, ← congrArg List.length hall, List.length_map]
      obtain ⟨hlen, hrows⟩ := mapM_getElem? hmapM
      rw [List.length_zip, hcount, Nat.min_self] at hlen
      refine ⟨hlen, fun i x hx ↦ ?_⟩
      have hlt : i < run.1.results.reduceOption.length :=
        hcount.symm ▸ (List.getElem?_eq_some_iff.mp hx).1
      obtain ⟨r, hr⟩ : ∃ r, run.1.results.reduceOption[i]? = some r :=
        ⟨_, List.getElem?_eq_getElem hlt⟩
      obtain ⟨c, hc, hcompletion⟩ := hrows i (x, r) (List.getElem?_zip_eq_some.mpr ⟨hx, hr⟩)
      have hget : (run.1.results.reduceOption.map some)[i]? = some (some r) := by
        rw [List.getElem?_map, hr]
        rfl
      rw [hall] at hget
      exact ⟨r, c, hget, hcompletion, hc⟩
  · rw [if_pos hpending] at h
    cases h

/-- Of any environment, the completions are made of what the attempts brought for
their rows, and there is an exception where a row got nothing. -/
theorem gym_rows_exact (env : ℕ → List ℕ → RowStream ρ μ) (toCompletion : ι → ρ → Except Exc κ)
    (maxAttempts : ℕ) (inputs : List (Option ℤ × ι)) :
    let run := runRollouts env toCompletion maxAttempts inputs
    run.1.dispatches.length ≤ maxAttempts ∧
    (∀ k attempt, run.1.dispatches[k]? = some attempt → attempt.2 = env (k + 1) attempt.1) ∧
    (run.1.dispatches.Pairwise fun earlier later ↦ ∀ i ∈ later.1, ∀ r, ¬ Brings earlier i r) ∧
    (∀ completions timing, run.2 = .ok (completions, timing) →
      completions.length = inputs.length ∧ ∀ (i : ℕ) x, inputs[i]? = some x → ∃ r c,
        (∃ attempt ∈ run.1.dispatches, i ∈ attempt.1 ∧ Brings attempt i r) ∧
        toCompletion x.2 r = .ok c ∧ completions[i]? = some c) ∧
    ((∃ i < inputs.length, ∀ attempt ∈ run.1.dispatches, ∀ r, ¬ Brings attempt i r) →
      ∃ failure, run.2 = .error failure) := by
  intro run
  obtain ⟨hmerged, hcount⟩ := runRollouts_merged env toCompletion maxAttempts inputs
  have hok : ∀ completions timing, run.2 = .ok (completions, timing) →
      completions.length = inputs.length ∧ ∀ (i : ℕ) x, inputs[i]? = some x → ∃ r c,
        (∃ attempt ∈ run.1.dispatches, i ∈ attempt.1 ∧ Brings attempt i r) ∧
        toCompletion x.2 r = .ok c ∧ completions[i]? = some c := by
    intro completions timing h
    obtain ⟨hlen, hrows⟩ := runRollouts_ok h
    refine ⟨hlen, fun i x hx ↦ ?_⟩
    obtain ⟨r, c, hr, hcompletion, hc⟩ := hrows i x hx
    obtain ⟨attempt, hattempt, hbrings⟩ := (hmerged.result_iff i r).mp hr
    exact ⟨r, c, ⟨attempt, hattempt, hbrings.mem, hbrings⟩, hcompletion, hc⟩
  refine ⟨hcount, hmerged.answers, hmerged.once, hok, ?_⟩
  rintro ⟨i, hi, hnothing⟩
  cases hresult : run.2 with
  | error failure => exact ⟨failure, rfl⟩
  | ok value =>
    obtain ⟨r, -, ⟨attempt, hattempt, -, hbrings⟩, -, -⟩ :=
      (hok value.1 value.2 hresult).2 i _ (List.getElem?_eq_getElem hi)
    exact absurd hbrings (hnothing attempt hattempt r)

end Rollouts

end NemoRL.Experience.GymRollouts
