import Mathlib
import NemoRL.CheckpointEngines.WeightChunks
import NemoRL.Foundations.Transition

namespace NemoRL.CheckpointEngines.Nixl

open Utils Utils.PackedTensor Foundations

variable {δ : Type} [ElementType δ]

/-- The announcement of a bucket. `remoteDescs` is the index of the sender's
buffer and `notifyKey`, a fresh `uuid4`, the number of the bucket. -/
structure Message (δ : Type) where
  bucketMeta : List (TensorMeta δ)
  notifyKey : ℕ
  isLast : Bool
  remoteDescs : Bool

inductive SenderStage
  | filling
  | closing
  | closed
  deriving DecidableEq

/-- `send_weights`: what is left of the chunk iterator, and its variables.
`bucketMeta` holds the values of the dictionary in the order of insertion. -/
structure Sender (δ : Type) where
  chunks : List (Chunk δ)
  buffers : Bool → Buffer UInt8
  bufferIndex : Bool
  offset : ℕ
  bucketMeta : List (TensorMeta δ)
  pendingKey : Option ℕ
  stage : SenderStage
  announced : ℕ

/-- Where the generator of `receive_weight_batches` stands. `missing` are the
positions of the bucket that the READ has not copied yet. -/
inductive ReceiverStage (δ : Type)
  | awaiting
  | reading (m : Message δ) (missing : List ℕ)
  | fetched (m : Message δ)
  | yielded (m : Message δ) (batch : List (Entry δ)) (consumed : Bool)
  | ended

structure Receiver (δ : Type) where
  buffers : Bool → Buffer UInt8
  bufferIndex : Bool
  merging : Option (Merging δ)
  stage : ReceiverStage δ

/-- Both sides, the messages and notifications under way, and what the consumer
has read from the batches. -/
structure Stream (δ : Type) where
  sender : Sender δ
  receiver : Receiver δ
  messages : List (Message δ)
  notifications : List ℕ
  received : List (String × List ℕ × δ × List UInt8)

inductive Event
  | place
  | flush
  | close
  | take
  | copy (position : ℕ)
  | notify
  | merge
  | consume
  | next
  deriving DecidableEq

variable (bucketSize : ℕ) (uninitialised : Buffer UInt8)

def Sender.alignedOffset (s : Sender δ) (m : TensorMeta δ) : ℕ :=
  let alignment := max 1 (ElementType.itemsize m.dtype)
  (s.offset + alignment - 1) / alignment * alignment

def Sender.fits (s : Sender δ) (m : TensorMeta δ) : Prop :=
  s.alignedOffset m + m.chunkSize ≤ bucketSize

instance (s : Sender δ) (m : TensorMeta δ) : Decidable (s.fits bucketSize m) :=
  inferInstanceAs (Decidable (_ ≤ _))

def insertMeta (bucketMeta : List (TensorMeta δ)) (m : TensorMeta δ) : List (TensorMeta δ) :=
  if m.name ∈ bucketMeta.map TensorMeta.name then
    bucketMeta.map fun m' ↦ if m'.name = m.name then m else m'
  else bucketMeta ++ [m]

def Sender.place (s : Sender δ) (c : Chunk δ) (rest : List (Chunk δ)) : Sender δ :=
  let offset := s.alignedOffset c.1
  { s with
    chunks := rest
    bucketMeta := insertMeta s.bucketMeta { c.1 with offset := some offset }
    buffers := Function.update s.buffers s.bufferIndex
      ((s.buffers s.bufferIndex).write offset c.2)
    offset := offset + c.1.chunkSize }

def waitReaders (notifications : List ℕ) : Option ℕ → Option (List ℕ)
  | none => some notifications
  | some key => if key ∈ notifications then some (notifications.erase key) else none

def flushBucket (s : Stream δ) (isLast : Bool) : Option (Stream δ) :=
  (waitReaders s.notifications s.sender.pendingKey).map fun notifications ↦
    { s with
      notifications := notifications
      messages := s.messages ++
        [⟨s.sender.bucketMeta, s.sender.announced, isLast, s.sender.bufferIndex⟩]
      sender := { s.sender with
        bufferIndex := !s.sender.bufferIndex
        offset := 0
        bucketMeta := []
        pendingKey := some s.sender.announced
        announced := s.sender.announced + 1
        stage := if isLast then .closing else .filling } }

def Receiver.advance (r : Receiver δ) (m : Message δ) : Receiver δ :=
  if m.isLast then { r with stage := .ended }
  else { r with bufferIndex := !r.bufferIndex, stage := .awaiting }

def Receiver.merge (r : Receiver δ) (m : Message δ) : Option (Receiver δ) := do
  let (merging, batch) ← mergeBatch uninitialised r.buffers r.bufferIndex m.bucketMeta r.merging
  let r := { r with merging := merging }
  if batch.isEmpty then some (r.advance m) else some { r with stage := .yielded m batch false }

def step (s : Stream δ) : Event → Option (Stream δ)
  | .place =>
    match s.sender.stage, s.sender.chunks with
    | .filling, c :: rest =>
      if s.sender.fits bucketSize c.1 then some { s with sender := s.sender.place c rest } else none
    | _, _ => none
  | .flush =>
    match s.sender.stage, s.sender.chunks with
    | .filling, c :: _ => if s.sender.fits bucketSize c.1 then none else flushBucket s false
    | .filling, [] => flushBucket s true
    | _, _ => none
  | .close =>
    match s.sender.stage with
    | .closing =>
      (waitReaders s.notifications s.sender.pendingKey).map fun notifications ↦
        { s with notifications := notifications, sender := { s.sender with stage := .closed } }
    | _ => none
  | .take =>
    match s.receiver.stage, s.messages with
    | .awaiting, m :: rest =>
      some { s with
        messages := rest
        receiver := { s.receiver with stage := .reading m (List.range bucketSize) } }
    | _, _ => none
  | .copy position =>
    match s.receiver.stage with
    | .reading m missing =>
      if position ∈ missing then
        let r := s.receiver
        let buffer := (r.buffers r.bufferIndex).write position
          [s.sender.buffers m.remoteDescs position]
        some { s with receiver := { r with
          buffers := Function.update r.buffers r.bufferIndex buffer
          stage := .reading m (missing.erase position) } }
      else none
    | _ => none
  | .notify =>
    match s.receiver.stage with
    | .reading m [] =>
      some { s with
        notifications := s.notifications ++ [m.notifyKey]
        receiver := { s.receiver with stage := .fetched m } }
    | _ => none
  | .merge =>
    match s.receiver.stage with
    | .fetched m => (s.receiver.merge uninitialised m).map fun r ↦ { s with receiver := r }
    | _ => none
  | .consume =>
    match s.receiver.stage with
    | .yielded m batch false =>
      some { s with
        received := s.received ++ batch.map (Entry.read s.receiver.buffers)
        receiver := { s.receiver with stage := .yielded m batch true } }
    | _ => none
  | .next =>
    match s.receiver.stage with
    | .yielded m _ true => some { s with receiver := s.receiver.advance m }
    | _ => none

def Initial (weights : List (Weight δ)) (s : Stream δ) : Prop :=
  s.sender.chunks = splitWeightChunks bucketSize weights ∧ s.sender.bufferIndex = false ∧
    s.sender.offset = 0 ∧ s.sender.bucketMeta = [] ∧ s.sender.pendingKey = none ∧
    s.sender.stage = .filling ∧ s.sender.announced = 0 ∧ s.receiver.bufferIndex = true ∧
    s.receiver.merging = none ∧ s.receiver.stage = .awaiting ∧ s.messages = [] ∧
    s.notifications = [] ∧ s.received = []

end NemoRL.CheckpointEngines.Nixl
