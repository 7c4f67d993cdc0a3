import Mathlib
import NemoRL.Experience.Failures
import NemoRL.Foundations.Positions

namespace NemoRL.Experience.GymRollouts

open Foundations.Positions

inductive RowIndex
  | int (n : ℤ)
  | other

structure Delivery (ρ μ : Type) where
  rowidx : RowIndex
  result : Option ρ
  timingMetrics : Option μ

inductive Ending
  | clean
  | error (e : Exc)
  /-- The deadline of the group cancels the wait. -/
  | deadline

structure RowStream (ρ μ : Type) where
  deliveries : List (Delivery ρ μ)
  ending : Ending

inductive GymFailure
  | unstampedRow (position : ℕ) (rowidx : Option ℤ)
  | invalidRow (rowidx : RowIndex) (totalRows : ℕ)
  | undispatchedRow (rowidx : ℕ) (dispatched : List ℕ)
  | duplicateRow (rowidx : ℕ)
  | stream (error : Exc)
  | rolloutTimeout
  | missingRows (missing : List ℕ) (totalRows maxAttempts : ℕ) (lastError : Option GymFailure)
  | noRows
  | conversion (error : Exc)

namespace GymFailure

def exc : GymFailure → Exc
  | unstampedRow _ _ | invalidRow _ _ | undispatchedRow _ _ | duplicateRow _ => .valueError
  | stream error | conversion error => error
  | rolloutTimeout =>
    .ofClasses [.other "RolloutTimeout", .rolloutInfraFailure, .rolloutFailure] none
  | missingRows _ _ _ none =>
    .ofClasses [.other "GymTransportError", .rolloutInfraFailure, .rolloutFailure] none
  | missingRows _ _ _ (some lastError) =>
    .ofClasses [.other "GymTransportError", .rolloutInfraFailure, .rolloutFailure]
      (some lastError.exc)
  | noRows => .ofClasses [.indexError] none

/-- Whether the attempt's `except Exception` sees it. A deadline passes it as a
cancellation, and becomes a `RolloutTimeout` outside. -/
def caught : GymFailure → Bool
  | rolloutTimeout => false
  | failure => failure.exc.isException

end GymFailure

section StreamRows

variable {ρ μ : Type}

structure Received (ρ μ : Type) where
  results : List (Option ρ)
  received : List ℕ
  envTimingMetrics : Option μ

def receive (dispatched : List ℕ) (totalRows : ℕ) (s : Received ρ μ) (d : Delivery ρ μ) :
    Except GymFailure (Received ρ μ) :=
  match d.rowidx with
  | .other => .error (.invalidRow .other totalRows)
  | .int rowidx =>
    if ¬ (0 ≤ rowidx ∧ rowidx < totalRows) then .error (.invalidRow (.int rowidx) totalRows)
    else if rowidx.toNat ∉ dispatched then .error (.undispatchedRow rowidx.toNat dispatched)
    else if rowidx.toNat ∈ s.received then .error (.duplicateRow rowidx.toNat)
    else .ok {
      results := s.results.set rowidx.toNat d.result
      received := rowidx.toNat :: s.received
      envTimingMetrics := d.timingMetrics.or s.envTimingMetrics }

def streamRest (dispatched : List ℕ) (totalRows : ℕ) (ending : Ending) :
    Received ρ μ → List (Delivery ρ μ) → List (Option ρ) × Except GymFailure (Option μ)
  | s, [] =>
    (s.results, match ending with
      | .clean => .ok s.envTimingMetrics
      | .error e => .error (.stream e)
      | .deadline => .error .rolloutTimeout)
  | s, d :: deliveries =>
    match receive dispatched totalRows s d with
    | .error failure => (s.results, .error failure)
    | .ok s => streamRest dispatched totalRows ending s deliveries

def streamRows (pending : List ℕ) (results : List (Option ρ)) (totalRows : ℕ)
    (stream : RowStream ρ μ) : List (Option ρ) × Except GymFailure (Option μ) :=
  streamRest pending totalRows stream.ending ⟨results, [], none⟩ stream.deliveries

end StreamRows

section RunRollouts

variable {ρ μ ι κ : Type}

/-- The state of `_run_rollouts` between two attempts, and the attempts so far: the
rows that were dispatched, and the stream that came back. -/
structure GymState (ρ μ : Type) where
  results : List (Option ρ)
  envTimingMetrics : Option μ
  lastError : Option GymFailure
  gymRowRedispatches : ℕ
  dispatches : List (List ℕ × RowStream ρ μ)

def GymState.pending (s : GymState ρ μ) : List ℕ := indicesWhere Option.isNone s.results

def runAttempts (env : ℕ → List ℕ → RowStream ρ μ) (maxAttempts totalRows : ℕ) :
    ℕ → GymState ρ μ → GymState ρ μ × Option GymFailure
  | 0, s => (s, none)
  | left + 1, s =>
    let attempt := maxAttempts - left
    if s.pending = [] then (s, none)
    else
      let stream := env attempt s.pending
      let streamed := streamRows s.pending s.results totalRows stream
      let next := { s with
        results := streamed.1
        gymRowRedispatches := s.gymRowRedispatches + if attempt > 1 then s.pending.length else 0
        dispatches := s.dispatches ++ [(s.pending, stream)] }
      match streamed.2 with
      | .ok timingMetrics => runAttempts env maxAttempts totalRows left
          { next with envTimingMetrics := timingMetrics.or s.envTimingMetrics }
      | .error failure =>
        if ¬ failure.caught then (next, some failure)
        else if classifyRolloutFailure failure.exc ≠ .infra ∨ attempt = maxAttempts then
          ({ next with lastError := some failure }, some failure)
        else runAttempts env maxAttempts totalRows left { next with lastError := some failure }

/-- `_run_rollouts` of rows with their `_rowidx`, and what a row's completion is made
of. The state shows what was dispatched. -/
def runRollouts (env : ℕ → List ℕ → RowStream ρ μ) (toCompletion : ι → ρ → Except Exc κ)
    (maxAttempts : ℕ) (inputs : List (Option ℤ × ι)) :
    GymState ρ μ × Except GymFailure (List κ × Option μ) :=
  let start : GymState ρ μ := ⟨inputs.map fun _ ↦ none, none, none, 0, []⟩
  match inputs.zipIdx.find? fun x ↦ x.1.1 ≠ some (x.2 : ℤ) with
  | some x => (start, .error (.unstampedRow x.2 x.1.1))
  | none =>
    let run := runAttempts env maxAttempts inputs.length maxAttempts start
    match run.2 with
    | some failure => (run.1, .error failure)
    | none =>
      let missing := run.1.pending
      if missing ≠ [] then
        (run.1, .error (.missingRows missing inputs.length maxAttempts run.1.lastError))
      else
        let completedResults := run.1.results.reduceOption
        if completedResults = [] then (run.1, .error .noRows)
        else
          (run.1, match (inputs.zip completedResults).mapM fun x ↦ toCompletion x.1.2 x.2 with
            | .error e => .error (.conversion e)
            | .ok completions => .ok (completions, run.1.envTimingMetrics))

end RunRollouts

end NemoRL.Experience.GymRollouts
