import Mathlib
import NemoRL.Foundations.Transition

namespace NemoRL.Generation.SparseRefit

open Foundations.Transition

variable {κ χ β : Type}

structure Tuning where
  applyQueueDepth : ℕ+
  applyBatchSize : ℕ+
  workersShareNode : Bool

structure Call (κ χ β : Type) where
  payload : β
  payloadKey : κ
  checksum : χ
  verificationCandidates : ℕ
  deriving DecidableEq

/-- A payload that was recorded and queued. The code keeps the bytes, or the
future of their staged copy; the rest of the call, and how many flushes had
begun when it was recorded, say which payload it is. -/
structure Recorded (κ χ β : Type) where
  call : Call κ χ β
  window : ℕ
  deriving DecidableEq

inductive Phase
  | queued
  | applying
  | done (ok : Bool)
  deriving DecidableEq

/-- A batch submitted to the apply executor, and how far its future is. -/
structure Job (κ χ β : Type) where
  payloads : List (Recorded κ χ β)
  phase : Phase
  deriving DecidableEq

inductive Answer
  | accepted (payloads : ℕ)
  | duplicate
  | reused
  | raised
  deriving DecidableEq

structure FlushResponse where
  payloads : ℕ
  batches : ℕ
  verificationCandidates : Option ℕ
  deriving DecidableEq

inductive FlushPhase
  | collecting
  | verifying
  | clearing (verificationCandidates : Option ℕ)
  | returned (response : FlushResponse)
  | raised
  deriving DecidableEq

/-- A call of `_flush_queued_sparse_payloads` past its first critical section.
`recorded` counts the payloads recorded before it. -/
structure Flush where
  futures : List ℕ
  payloadCount : ℕ
  batchCount : ℕ
  phase : FlushPhase
  recorded : ℕ
  deriving DecidableEq

/-- The receiver with the calls under way. A future is the position of its job
among all jobs submitted so far. `recorded` and `handed` log the payloads
queued and the batches given to the worker collective, in order. -/
structure Receiver (κ χ β : Type) where
  applyFutures : List ℕ
  pendingPayloads : List (Recorded κ χ β)
  seenPayloads : AList fun _ : κ ↦ χ
  verificationCandidates : ℕ
  jobs : List (Job κ χ β)
  waiting : List (Call κ χ β)
  flushes : List Flush
  recorded : List (Recorded κ χ β)
  handed : List (List (Recorded κ χ β))
  answers : List (Call κ χ β × Answer)

inductive Event (κ χ β : Type)
  | enqueue (c : Call κ χ β)
  | wake (i : ℕ)
  | start (j : ℕ) (staged : Bool)
  | finish (j : ℕ) (ok : Bool)
  | flush
  | collect (i : ℕ)
  | verify (i : ℕ) (ok : Bool)
  | clear (i : ℕ)

def phaseAt (jobs : List (Job κ χ β)) (f : ℕ) : Phase :=
  (jobs[f]?.map Job.phase).getD .queued

def isDone (jobs : List (Job κ χ β)) (f : ℕ) : Bool :=
  match phaseAt jobs f with
  | .done _ => true
  | _ => false

/-- `future.result()` on each future in turn: `none` while one is awaited,
`some none` once one raises, and otherwise the sum of the payload counts. -/
def collectRefitApplyResults (jobs : List (Job κ χ β)) : List ℕ → Option (Option ℕ)
  | [] => some (some 0)
  | f :: fs =>
    match jobs[f]? with
    | some ⟨payloads, .done true⟩ =>
      (collectRefitApplyResults jobs fs).map fun r ↦ r.map (payloads.length + ·)
    | some ⟨_, .done false⟩ => some none
    | _ => none

def answer (s : Receiver κ χ β) (c : Call κ χ β) (a : Answer) : Receiver κ χ β :=
  { s with answers := s.answers ++ [(c, a)] }

def submitPendingSparsePayloads (s : Receiver κ χ β) : Receiver κ χ β :=
  { s with
    pendingPayloads := []
    jobs := s.jobs ++ [⟨s.pendingPayloads, .queued⟩]
    applyFutures := s.applyFutures ++ [s.jobs.length] }

def blocked (cfg : Tuning) (s : Receiver κ χ β) : Bool :=
  cfg.applyQueueDepth ≤ s.applyFutures.length && !(s.applyFutures.head?.any (isDone s.jobs))

variable [DecidableEq κ]

def record (cfg : Tuning) (s : Receiver κ χ β) (c : Call κ χ β) : Receiver κ χ β :=
  let r : Recorded κ χ β := ⟨c, s.flushes.length⟩
  let s := { s with
    seenPayloads := s.seenPayloads.insert c.payloadKey c.checksum
    verificationCandidates := s.verificationCandidates + c.verificationCandidates
    pendingPayloads := s.pendingPayloads ++ [r]
    recorded := s.recorded ++ [r] }
  if s.pendingPayloads.length = (cfg.applyBatchSize : ℕ) then submitPendingSparsePayloads s else s

def proceed (cfg : Tuning) (s : Receiver κ χ β) (c : Call κ χ β) : Option (Receiver κ χ β) := do
  let completed := s.applyFutures.takeWhile (isDone s.jobs)
  let s := { s with applyFutures := s.applyFutures.dropWhile (isDone s.jobs) }
  match ← collectRefitApplyResults s.jobs completed with
  | some payloads => some (answer (record cfg s c) c (.accepted payloads))
  | none => some (answer s c .raised)

variable [DecidableEq χ]

def enqueueSparsePayloadApply (cfg : Tuning) (s : Receiver κ χ β) (c : Call κ χ β) :
    Option (Receiver κ χ β) :=
  match s.seenPayloads.lookup c.payloadKey with
  | some seenChecksum =>
    some (answer s c (if seenChecksum ≠ c.checksum then .reused else .duplicate))
  | none =>
    if blocked cfg s then some { s with waiting := s.waiting ++ [c] } else proceed cfg s c

def beginFlush (cfg : Tuning) (s : Receiver κ χ β) : Receiver κ χ β :=
  let s := if s.pendingPayloads ≠ [] then submitPendingSparsePayloads s else s
  let payloadCount := s.seenPayloads.keys.length
  { s with
    applyFutures := []
    flushes := s.flushes ++ [{
      futures := s.applyFutures
      payloadCount := payloadCount
      batchCount := (payloadCount + cfg.applyBatchSize - 1) / cfg.applyBatchSize
      phase := .collecting
      recorded := s.recorded.length }] }

def setPhase (s : Receiver κ χ β) (i : ℕ) (phase : FlushPhase) : Receiver κ χ β :=
  { s with flushes := s.flushes.modify i fun f ↦ { f with phase := phase } }

def step (cfg : Tuning) (s : Receiver κ χ β) : Event κ χ β → Option (Receiver κ χ β)
  | .enqueue c => enqueueSparsePayloadApply cfg s c
  | .wake i => do
    let c ← s.waiting[i]?
    if blocked cfg s then none else proceed cfg { s with waiting := s.waiting.eraseIdx i } c
  -- The executor has one thread, which takes the jobs in the order of submission.
  | .start j staged =>
    match s.jobs[j]? with
    | some ⟨payloads, .queued⟩ =>
      if (List.range j).all (isDone s.jobs) then
        -- A batch whose staging failed raises before the collective is called.
        if cfg.workersShareNode && !staged then
          some { s with jobs := s.jobs.set j ⟨payloads, .done false⟩ }
        else
          some { s with
            jobs := s.jobs.set j ⟨payloads, .applying⟩
            handed := s.handed ++ [payloads] }
      else none
    | _ => none
  | .finish j ok =>
    match s.jobs[j]? with
    | some ⟨payloads, .applying⟩ => some { s with jobs := s.jobs.set j ⟨payloads, .done ok⟩ }
    | _ => none
  | .flush => some (beginFlush cfg s)
  | .collect i =>
    match s.flushes[i]? with
    | some f =>
      if f.phase = .collecting then
        (collectRefitApplyResults s.jobs f.futures).map fun
          | some _ => setPhase s i (if f.futures ≠ [] then .verifying else .clearing none)
          | none => setPhase s i .raised
      else none
    | none => none
  | .verify i ok =>
    match s.flushes[i]? with
    | some f =>
      if f.phase = .verifying then
        some (setPhase s i (if ok then
          .clearing (if s.verificationCandidates ≠ 0 then some s.verificationCandidates else none)
        else .raised))
      else none
    | none => none
  | .clear i =>
    match s.flushes[i]? with
    | some ⟨_, payloadCount, batchCount, .clearing candidates, _⟩ =>
      some (setPhase { s with seenPayloads := ∅, verificationCandidates := 0 } i
        (.returned ⟨payloadCount, batchCount, candidates⟩))
    | _ => none

def init : Receiver κ χ β :=
  ⟨[], [], ∅, 0, [], [], [], [], [], []⟩

def Initial (s : Receiver κ χ β) : Prop := s = init

end NemoRL.Generation.SparseRefit
