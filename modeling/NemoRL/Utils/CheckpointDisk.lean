import Mathlib
import NemoRL.Foundations.Directories
import NemoRL.Utils.Checkpoint

namespace NemoRL.Utils.CheckpointDisk

open Foundations.Directories

inductive DirName
  | tmp (step : ℕ)
  | step (step : ℕ)
  | old (step : ℕ)
  deriving DecidableEq

inductive Entry (β : Type)
  | trainingInfo
  | config
  | file (name : β)
  deriving DecidableEq

/-- One save: the arguments of `init_tmp_checkpoint`, and the files that the algorithm
then writes into the directory. -/
structure Save (α β : Type) where
  step : ℕ
  trainingInfo : List (String × α)
  runConfig : Bool
  files : Finset β

abbrev CheckpointDir (α β : Type) := Disk DirName (Save α β) (Entry β)

inductive Writer (α β : Type)
  | idle
  | clearing (c : Save α β)
  | making (c : Save α β)
  | savingInfo (c : Save α β)
  | savingConfig (c : Save α β)
  | saving (c : Save α β)

inductive Finalizer (α β : Type)
  | idle
  | waiting (c : Save α β)
  | checking (step : ℕ)
  | movingOld (step : ℕ)
  | movingNew (step : ℕ) (swap : Bool)
  | removingOld (step : ℕ)
  | failed (step : ℕ)

inductive Pruner (α : Type)
  | idle
  | loading (stepDirs : List ℕ) (history : List (Checkpoint α))
  | removing (paths : List ℕ)

/-- The directory on disk and the threads of the process that runs. What has been
finalized is listed, the last one first. -/
structure State (α β : Type) where
  disk : CheckpointDir α β
  writer : Writer α β
  finalizer : Finalizer α β
  pruner : Pruner α
  queued : ℕ
  finalized : List ℕ

inductive Thread
  | writer
  | finalizer
  | pruner

inductive Event (α β : Type)
  | initTmpCheckpoint (c : Save α β)
  /-- The next operation of a thread. -/
  | next (thread : Thread)
  /-- One removal of an `rmtree`. -/
  | unlink (thread : Thread) (entry : Entry β)
  /-- A removal from a directory that was renamed while the pruner had it open. -/
  | unlinkMoved (entry : Entry β)
  /-- A file of the checkpoint, before `begin_finalization` or behind its `wait_fn`. -/
  | write (file : β)
  | writeAsync (file : β)
  | list (stepDirs : List ℕ)
  /-- An `rmtree` does not find what it has listed. -/
  | abort (thread : Thread)
  /-- The process ends here, and another one resumes. -/
  | crash

variable {α β : Type} [DecidableEq β]

def Save.entries (c : Save α β) : Finset (Entry β) :=
  insert .trainingInfo ((if c.runConfig then {.config} else ∅) ∪ c.files.image .file)

def stepDirs (d : CheckpointDir α β) : Finset ℕ :=
  d.keys.biUnion fun
    | .step n => {n}
    | _ => ∅

def getLatestCheckpointPath (d : CheckpointDir α β) : Option ℕ :=
  if h : (stepDirs d).Nonempty then some ((stepDirs d).max' h) else none

def Finalizer.pending : Finalizer α β → Option ℕ
  | waiting c => some c.step
  | checking n | movingOld n | movingNew n _ => some n
  | idle | removingOld _ | failed _ => none

def initTmpCheckpoint (s : State α β) (c : Save α β) : Option (State α β) :=
  match s.writer with
  | .idle =>
    if s.finalizer.pending = some c.step then none
    else if .tmp c.step ∈ s.disk then some { s with writer := .clearing c }
    else some { s with writer := .making c }
  | _ => none

/-- The rest of `init_tmp_checkpoint` and the call of `begin_finalization`, which waits for the
finalization before and raises what that one raised. -/
def Writer.next (s : State α β) : Option (State α β) :=
  match s.writer with
  | .clearing c =>
    if s.disk.listdir (.tmp c.step) = ∅ then
      some { s with disk := s.disk.erase (.tmp c.step), writer := .making c }
    else none
  | .making c => some { s with disk := s.disk.mkdir (.tmp c.step) c, writer := .savingInfo c }
  | .savingInfo c => some { s with
      disk := s.disk.write (.tmp c.step) .trainingInfo
      writer := if c.runConfig then .savingConfig c else .saving c }
  | .savingConfig c =>
    some { s with disk := s.disk.write (.tmp c.step) .config, writer := .saving c }
  | .saving c =>
    match s.finalizer with
    | .idle => some { s with writer := .idle, finalizer := .waiting c }
    | _ => none
  | .idle => none

def submit (s : State α β) : State α β :=
  { s with finalizer := .idle, queued := s.queued + 1 }

def Finalizer.next (s : State α β) : Option (State α β) :=
  match s.finalizer with
  | .waiting c =>
    if s.disk.listdir (.tmp c.step) = c.entries then
      some { s with finalizer := .checking c.step }
    else none
  | .checking n =>
    if .step n ∈ s.disk then some { s with finalizer := .movingOld n }
    else some { s with finalizer := .movingNew n false }
  | .movingOld n =>
    match s.disk.rename (.step n) (.old n) with
    | some d => some { s with disk := d, finalizer := .movingNew n true }
    | none => some { s with finalizer := .failed n }
  | .movingNew n swap =>
    match s.disk.rename (.tmp n) (.step n) with
    | some d =>
      let s := { s with disk := d, finalized := n :: s.finalized }
      if swap then some { s with finalizer := .removingOld n } else some (submit s)
    | none => some { s with finalizer := .failed n }
  | .removingOld n =>
    if .old n ∈ s.disk then
      if s.disk.listdir (.old n) = ∅ then
        some (submit { s with disk := s.disk.erase (.old n) })
      else none
    else some (submit s)
  | .idle | .failed _ => none

variable [LinearOrder α] [BoundedOrder α]

/-- `remove_old_checkpoints`: the history is loaded one directory at a time, and what the
retention rules do not protect is removed. -/
def Pruner.next (m : CheckpointManager) (s : State α β) : Option (State α β) :=
  match s.pruner with
  | .loading (n :: dirs) history =>
    match s.disk.lookup (.step n) with
    | some x =>
      if Entry.trainingInfo ∈ x.entries then
        some { s with pruner := .loading dirs (history ++ [⟨n, x.tag.trainingInfo⟩]) }
      else some { s with pruner := .loading dirs history }
    | none => some { s with pruner := .loading dirs history }
  | .loading [] history =>
    let kept := m.removeOldCheckpoints true history
    some { s with pruner := .removing ((history.filter (· ∉ kept)).map Checkpoint.step) }
  | .removing (n :: paths) =>
    if .step n ∈ s.disk then
      if s.disk.listdir (.step n) = ∅ then
        some { s with disk := s.disk.erase (.step n), pruner := .removing paths }
      else none
    else some { s with pruner := .idle }
  | .removing [] => some { s with pruner := .idle }
  | .idle => none

def rmtree (s : State α β) : Thread → Option DirName
  | .writer =>
    match s.writer with
    | .clearing c => some (.tmp c.step)
    | _ => none
  | .finalizer =>
    match s.finalizer with
    | .removingOld n => some (.old n)
    | _ => none
  | .pruner =>
    match s.pruner with
    | .removing (n :: _) => some (.step n)
    | _ => none

def step (m : CheckpointManager) (s : State α β) : Event α β → Option (State α β)
  | .initTmpCheckpoint c => initTmpCheckpoint s c
  | .next .writer => Writer.next s
  | .next .finalizer => Finalizer.next s
  | .next .pruner => Pruner.next m s
  | .unlink thread e =>
    match rmtree s thread with
    | some p =>
      if e ∈ s.disk.listdir p then some { s with disk := s.disk.unlink p e } else none
    | none => none
  | .unlinkMoved e =>
    match s.pruner with
    | .removing (n :: _) => some { s with disk := s.disk.unlink (.old n) e }
    | _ => none
  | .write f =>
    match s.writer with
    | .saving c =>
      if f ∈ c.files then some { s with disk := s.disk.write (.tmp c.step) (.file f) } else none
    | _ => none
  | .writeAsync f =>
    match s.finalizer with
    | .waiting c =>
      if f ∈ c.files then some { s with disk := s.disk.write (.tmp c.step) (.file f) } else none
    | _ => none
  | .list dirs =>
    match s.pruner with
    | .idle =>
      if 0 < s.queued ∧ dirs.Nodup ∧ dirs.toFinset = stepDirs s.disk then
        some { s with pruner := .loading dirs [], queued := s.queued - 1 }
      else none
    | _ => none
  | .abort .finalizer =>
    match s.finalizer with
    | .removingOld n => some { s with finalizer := .failed n }
    | _ => none
  | .abort .pruner => some { s with pruner := .idle }
  | .abort .writer => none
  | .crash => some { s with
      writer := .idle, finalizer := .idle, pruner := .idle, queued := 0 }

def State.start : State α β := ⟨∅, .idle, .idle, .idle, 0, []⟩

end NemoRL.Utils.CheckpointDisk
