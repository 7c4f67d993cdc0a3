import Mathlib
import NemoRL.Foundations.Choice

namespace NemoRL.Utils

open Foundations.Choice

/-- A checkpoint directory: its step and what its `training_info.json` says of the metrics. -/
structure Checkpoint (α : Type) where
  step : ℕ
  info : List (String × α)
  deriving DecidableEq

structure CheckpointManager where
  metricName : Option String
  higherIsBetter : Bool
  keepTopK : Option ℕ
  savePeriod : ℕ
  ftKeepLatestK : Option ℕ
  savePeriod_pos : 0 < savePeriod

section Retention

variable {α : Type} [LinearOrder α] [BoundedOrder α]

def Checkpoint.metric (c : Checkpoint α) (name : String) (default : α) : α :=
  (c.info.lookup name).getD default

namespace CheckpointManager

def sortPeriodic (m : CheckpointManager) (periodicHistory : List (Checkpoint α)) :
    List (Checkpoint α) :=
  match m.metricName with
  | none => periodicHistory.insertionSort fun x y ↦ y.step ≤ x.step
  | some name =>
    if m.higherIsBetter then
      periodicHistory.insertionSort fun x y ↦
        toLex (y.metric name ⊥, y.step) ≤ toLex (x.metric name ⊥, x.step)
    else
      periodicHistory.insertionSort fun x y ↦
        toLex (x.metric name ⊤, -(x.step : ℤ)) ≤ toLex (y.metric name ⊤, -(y.step : ℤ))

def removeOldCheckpoints (m : CheckpointManager) (excludeLatest : Bool)
    (checkpointHistory : List (Checkpoint α)) : List (Checkpoint α) :=
  if checkpointHistory.isEmpty then checkpointHistory
  else if m.keepTopK.isNone ∧ m.ftKeepLatestK.isNone then checkpointHistory
  else
    let latestStep := (checkpointHistory.map Checkpoint.step).max?.getD 0
    let periodicHistory := checkpointHistory.filter fun c ↦ c.step % m.savePeriod = 0
    let latest := if excludeLatest then [latestStep] else []
    let periodic := match m.keepTopK with
      | some k => ((m.sortPeriodic periodicHistory).take k).map Checkpoint.step
      | none => periodicHistory.map Checkpoint.step
    let recent := match m.ftKeepLatestK with
      | some k => ((checkpointHistory.insertionSort fun x y ↦ y.step ≤ x.step).take k).map
          Checkpoint.step
      | none => []
    let protectedSteps := latest ++ periodic ++ recent
    checkpointHistory.filter fun c ↦ c.step ∈ protectedSteps

def outranks (m : CheckpointManager) (x y : Checkpoint α) : Bool :=
  match m.metricName with
  | none => decide (y.step < x.step)
  | some name =>
    if m.higherIsBetter then
      decide (y.metric name ⊥ < x.metric name ⊥ ∨
        (y.metric name ⊥ = x.metric name ⊥ ∧ y.step < x.step))
    else
      decide (x.metric name ⊤ < y.metric name ⊤ ∨
        (y.metric name ⊤ = x.metric name ⊤ ∧ y.step < x.step))

inductive Runs (m : CheckpointManager) :
    Finset (Checkpoint α) → List (Event (Checkpoint α)) → Finset (Checkpoint α) → Prop
  | nil (dir : Finset (Checkpoint α)) : Runs m dir [] dir
  | save {dir dir' : Finset (Checkpoint α)} {events : List (Event (Checkpoint α))}
      (c : Checkpoint α) : Runs m (insert c dir) events dir' →
      Runs m dir (.arrive c :: events) dir'
  | removeOldCheckpoints {dir dir' : Finset (Checkpoint α)}
      {events : List (Event (Checkpoint α))} (history : List (Checkpoint α)) : history.Nodup →
      history.toFinset = dir → Runs m (m.removeOldCheckpoints true history).toFinset events dir' →
      Runs m dir (.apply :: events) dir'

end CheckpointManager

end Retention

end NemoRL.Utils
