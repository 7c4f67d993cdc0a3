import Mathlib

namespace NemoRL.Foundations.Transition

variable {σ ε : Type*}

/-- The state a partial step function reaches along a list of events, if each
of them is enabled in turn. -/
def exec (step : σ → ε → Option σ) : σ → List ε → Option σ
  | s, [] => some s
  | s, e :: es => (step s e).bind fun t ↦ exec step t es

/-- The states of the runs in which every step meets `ok`, a condition on the
event and the state before it. -/
inductive ReachableBy (step : σ → ε → Option σ) (init : σ → Prop) (ok : σ → ε → Prop) : σ → Prop
  | init {s : σ} : init s → ReachableBy step init ok s
  | step {s t : σ} {e : ε} : ReachableBy step init ok s → ok s e → step s e = some t →
      ReachableBy step init ok t

abbrev Reachable (step : σ → ε → Option σ) (init : σ → Prop) : σ → Prop :=
  ReachableBy step init fun _ _ ↦ True

variable {step : σ → ε → Option σ} {init : σ → Prop} {ok ok' : σ → ε → Prop}

theorem ReachableBy.mono (hok : ∀ s e, ok s e → ok' s e) {s : σ}
    (h : ReachableBy step init ok s) : ReachableBy step init ok' s := by
  induction h with
  | init hs => exact .init hs
  | step _ ho hs ih => exact .step ih (hok _ _ ho) hs

theorem ReachableBy.reachable {s : σ} (h : ReachableBy step init ok s) :
    Reachable step init s :=
  h.mono fun _ _ _ ↦ trivial

/-- What holds initially and is preserved by every allowed step holds of every
state reached. -/
theorem ReachableBy.invariant {I : σ → Prop} (h₀ : ∀ s, init s → I s)
    (hs : ∀ s e t, I s → ok s e → step s e = some t → I t) {s : σ}
    (h : ReachableBy step init ok s) : I s := by
  induction h with
  | init hi => exact h₀ _ hi
  | step _ ho hstep ih => exact hs _ _ _ ih ho hstep

theorem ReachableBy.invariant_of {I : σ → Prop} (h₀ : ∀ s, init s → I s)
    (hs : ∀ s e t, ReachableBy step init ok s → I s → ok s e → step s e = some t → I t)
    {s : σ} (h : ReachableBy step init ok s) : I s := by
  induction h with
  | init hi => exact h₀ _ hi
  | step hr ho hstep ih => exact hs _ _ _ hr ih ho hstep

theorem ReachableBy.single {s t : σ} {e : ε} (ho : ok s e) (hs : step s e = some t) :
    ReachableBy step (· = s) ok t :=
  .step (.init rfl) ho hs

theorem ReachableBy.trans {s t : σ} (h : ReachableBy step init ok s)
    (h' : ReachableBy step (· = s) ok t) : ReachableBy step init ok t := by
  induction h' with
  | init he => exact he ▸ h
  | step _ ho hs ih => exact ih.step ho hs

theorem ReachableBy.exec {s t : σ} (h : Reachable step init s) (es : List ε)
    (he : exec step s es = some t) : Reachable step init t := by
  induction es generalizing s with
  | nil =>
    obtain rfl : s = t := by simpa [Transition.exec] using he
    exact h
  | cons e es ih =>
    obtain ⟨u, hu, ht⟩ := Option.bind_eq_some_iff.mp he
    exact ih (h.step trivial hu) ht

def execBy (step : σ → ε → Option σ) (ok : σ → ε → Prop) [∀ s e, Decidable (ok s e)] :
    σ → List ε → Option σ
  | s, [] => some s
  | s, e :: es => if ok s e then (step s e).bind fun t ↦ execBy step ok t es else none

theorem ReachableBy.execBy [∀ s e, Decidable (ok s e)] {s t : σ}
    (h : ReachableBy step init ok s) (es : List ε)
    (he : execBy step ok s es = some t) : ReachableBy step init ok t := by
  induction es generalizing s with
  | nil =>
    obtain rfl : s = t := by simpa [Transition.execBy] using he
    exact h
  | cons e es ih =>
    simp only [Transition.execBy] at he
    split_ifs at he with ho
    obtain ⟨u, hu, ht⟩ := Option.bind_eq_some_iff.mp he
    exact ih (h.step ho hu) ht

theorem ReachableBy.run [∀ s e, Decidable (ok s e)] {s : σ} (h : init s) (es : List ε)
    (he : (Transition.execBy step ok s es).isSome) :
    ReachableBy step init ok ((Transition.execBy step ok s es).get he) :=
  (ReachableBy.init h).execBy es (Option.some_get he).symm

theorem Reachable.run {s : σ} (h : init s) (es : List ε)
    (he : (Transition.exec step s es).isSome) :
    Reachable step init ((Transition.exec step s es).get he) :=
  (ReachableBy.init h).exec es (Option.some_get he).symm

theorem exec_append (s : σ) (es es' : List ε) :
    Transition.exec step s (es ++ es') =
      (Transition.exec step s es).bind fun t ↦ Transition.exec step t es' := by
  induction es generalizing s with
  | nil => rfl
  | cons e es ih =>
    rw [List.cons_append, Transition.exec, Transition.exec, Option.bind_assoc]
    exact congrArg _ (funext fun t ↦ ih t)

theorem exists_terminal {s : σ} {N : ℕ}
    (h : ∀ es t, Transition.exec step s es = some t → es.length ≤ N) :
    ∃ es t, Transition.exec step s es = some t ∧ ∀ e, step t e = none := by
  by_contra hno
  push Not at hno
  have hlong : ∀ n, ∃ es t, es.length = n ∧ Transition.exec step s es = some t := by
    intro n
    induction n with
    | zero => exact ⟨[], s, rfl, rfl⟩
    | succ n ih =>
      obtain ⟨es, t, hlen, ht⟩ := ih
      obtain ⟨e, he⟩ := hno es t ht
      obtain ⟨u, hu⟩ := Option.ne_none_iff_exists'.mp he
      refine ⟨es ++ [e], u, by rw [List.length_append, hlen]; rfl, ?_⟩
      rw [exec_append, ht, Option.bind_some, Transition.exec, hu]
      rfl
  obtain ⟨es, t, hlen, ht⟩ := hlong (N + 1)
  have hle := h es t ht
  omega

end NemoRL.Foundations.Transition
