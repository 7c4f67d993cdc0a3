import Mathlib
import NemoRL.Foundations.Buffers
import NemoRL.Foundations.Transition
import NemoRL.Utils.PackedTensor

namespace NemoRL.IpcRefit

open Utils Utils.PackedTensor Foundations

abbrev Param := String × Tensor Dtype

/-- What a consumer loads: a name, a shape, an element type and the bytes. -/
abbrev Loaded := String × List ℕ × Dtype × List UInt8

abbrev StateDictInfo := List (String × List ℕ × Dtype)

def calculateAlignedSize (sizeBytes : ℕ) (alignment : ℕ := 512) : ℕ :=
  (sizeBytes + alignment - 1) / alignment * alignment

/-- `buffer_a` and `buffer_b`, and the buffer of an oversized parameter. -/
inductive BufferRef
  | staging (index : Bool)
  | oversized
  deriving DecidableEq

/-- An IPC handle and the size of the tensor that is rebuilt from it. -/
structure Handle where
  buffer : BufferRef
  size : ℕ
  deriving DecidableEq

structure Group where
  handle : Handle
  paramNames : List String
  usedBytes : ℕ
  deriving DecidableEq

inductive Payload
  | group (g : Group)
  | complete
  deriving DecidableEq

/-! ### The manifest -/

inductive ManifestError
  | duplicateKeys (keys : Finset String)
  | unexpectedKeys (keys : Finset String)
  | loadFailed
  deriving DecidableEq

structure Manifest where
  expectedKeys : Finset String
  loadedKeys : Finset String
  errors : List ManifestError

namespace Manifest

def init (info : StateDictInfo) : Manifest := ⟨(info.map Prod.fst).toFinset, ∅, []⟩

/-- `batch_keys` and `duplicate_keys` after the loop of `validate_batch`. -/
def scan (keys : List String) : Finset String × Finset String :=
  keys.foldl (fun (batchKeys, duplicateKeys) key ↦
    (insert key batchKeys, if key ∈ batchKeys then insert key duplicateKeys else duplicateKeys))
    (∅, ∅)

def validateBatch (m : Manifest) (keys : List String) : Manifest × Option (Finset String) :=
  let (batchKeys, repeated) := scan keys
  let duplicateKeys := repeated ∪ m.loadedKeys ∩ batchKeys
  let unexpectedKeys := batchKeys \ m.expectedKeys
  let errors := m.errors ++
    (if duplicateKeys = ∅ then [] else [.duplicateKeys duplicateKeys]) ++
    (if unexpectedKeys = ∅ then [] else [.unexpectedKeys unexpectedKeys])
  ({ m with errors := errors }, if errors = [] then some batchKeys else none)

def recordLoaded (m : Manifest) (keys : Finset String) : Manifest :=
  { m with loadedKeys := m.loadedKeys ∪ keys }

def recordLoadFailure (m : Manifest) : Manifest := { m with errors := m.errors ++ [.loadFailed] }

def complete (m : Manifest) : Bool := m.errors = [] ∧ m.expectedKeys \ m.loadedKeys = ∅

end Manifest

/-! ### The two parties -/

inductive SenderStage
  /-- At the loop over the parameters. -/
  | packing
  /-- The oversized parameter at the head is packed into its buffer. -/
  | packed
  /-- The oversized buffer is sent. -/
  | shipped
  | completing
  | returned
  | timedOut
  deriving DecidableEq

/-- `stream_weights_via_ipc_zmq_impl`. The last three fields are not the code's:
the messages sent, the replies taken, and the message whose reply is not taken. -/
structure Sender where
  params : List Param
  buffers : BufferRef → Buffer UInt8
  allocated : BufferRef → Bool
  currentBuffer : Bool
  usedBytes : ℕ
  paramNames : List String
  awaitRecv : Bool
  stage : SenderStage
  sent : ℕ
  acked : ℕ
  pending : Option Payload

structure View where
  name : String
  shape : List ℕ
  dtype : Dtype
  offset : ℕ
  size : ℕ

/-- Where `update_weights_via_ipc_zmq` stands: `entering` before the set-up of
the lifecycle, `replying` in the `finally` block of a group, `leaving` when only
the rest of the lifecycle is to come. -/
inductive ReceiverStage
  | entering
  | receiving
  | handling (g : Group)
  | replying (g : Group) (batchKeys : Option (Finset String)) (buffer : Option Handle)
      (weights : List View) (batchError : Bool)
  | completing
  | leaving
  | returned (result : Bool)
  | raised

def Payload.handled : Payload → ReceiverStage
  | .group g => .handling g
  | .complete => .completing

/-- The last two fields are not the code's: whether every load, synchronization
and finalization has succeeded so far, and the replies sent. -/
structure Receiver where
  manifest : Manifest
  stage : ReceiverStage
  loaded : List Loaded
  healthy : Bool
  replied : ℕ

structure Stream where
  sender : Sender
  receiver : Receiver
  requests : List Payload
  replies : ℕ

/-- The Booleans say whether the receiver's calls succeed. -/
inductive Event
  | pack
  | flush
  | packOversized
  | sendOversized
  | freeOversized
  | complete
  | finish
  | senderTimeout
  | enter (ok : Bool)
  | receive
  | load (rebuilt loaded : Bool)
  | acknowledge (synchronized : Bool)
  | finalize (ok : Bool)
  | leave (ok : Bool)
  | receiverTimeout
  deriving DecidableEq

/-! ### The sender -/

variable (bufferSizeBytes : ℕ)

def stagingBytes : ℕ := bufferSizeBytes / 2

def Param.nbytes (p : Param) : ℕ := p.2.bytes.length

def Param.alignedSize (p : Param) : ℕ := calculateAlignedSize p.nbytes

def Param.isOversized (p : Param) : Prop := stagingBytes bufferSizeBytes < p.alignedSize

instance (p : Param) : Decidable (p.isOversized bufferSizeBytes) :=
  inferInstanceAs (Decidable (_ < _))

def packTensor (b : Buffer UInt8) (p : Param) (usedBytes : ℕ) : Buffer UInt8 :=
  b.write usedBytes p.2.bytes

def Sender.allocate (s : Sender) : Sender :=
  { s with allocated := fun b ↦ match b with | .staging _ => true | .oversized => s.allocated b }

def Sender.release (s : Sender) : Sender :=
  { s with allocated := fun b ↦ match b with | .staging _ => false | .oversized => s.allocated b }

def takeReply (s : Stream) : Option Stream :=
  if s.sender.awaitRecv then
    if s.replies = 0 then none
    else some { s with
      replies := s.replies - 1
      sender := { s.sender with awaitRecv := false, acked := s.sender.acked + 1, pending := none } }
  else some s

def send (s : Stream) (p : Payload) : Stream :=
  { s with
    requests := s.requests ++ [p]
    sender := { s.sender with sent := s.sender.sent + 1, pending := some p } }

def Sender.group (s : Sender) : Group :=
  ⟨⟨.staging s.currentBuffer, calculateAlignedSize (stagingBytes bufferSizeBytes)⟩, s.paramNames,
    s.usedBytes⟩

def Sender.flushes (s : Sender) : Prop :=
  match s.params with
  | [] => s.paramNames ≠ []
  | p :: _ =>
    if p.isOversized bufferSizeBytes then s.paramNames ≠ []
    else stagingBytes bufferSizeBytes < s.usedBytes + p.alignedSize

instance (s : Sender) : Decidable (s.flushes bufferSizeBytes) := by
  unfold Sender.flushes
  split <;> infer_instance

def Sender.waits (s : Sender) : Prop :=
  match s.stage with
  | .packing => s.awaitRecv ∧ (s.flushes bufferSizeBytes ∨ s.params = [])
  | .packed => s.awaitRecv
  | .shipped | .completing => True
  | .returned | .timedOut => False

instance (s : Sender) : Decidable (s.waits bufferSizeBytes) := by
  unfold Sender.waits
  split <;> infer_instance

/-! ### The receiver -/

variable (info : StateDictInfo) (errorsAreFatal : Bool)

/-- The views of a batch in a buffer of the given size, and the final offset. -/
def buildViews (size : ℕ) : List String → ℕ → Option (List View × ℕ)
  | [], offset => some ([], offset)
  | key :: keys, offset => do
    let (shape, dtype) ← info.lookup key
    let sizeInBytes := dtype.itemsize * shape.prod
    -- A slice stops at the end of the buffer.
    let start := min offset size
    if min (offset + sizeInBytes) size - start = sizeInBytes ∧ start % dtype.itemsize = 0 then
      let (views, offset) ← buildViews size keys (offset + calculateAlignedSize sizeInBytes)
      some (⟨key, shape, dtype, start, sizeInBytes⟩ :: views, offset)
    else none

def View.read (b : Buffer UInt8) (v : View) : Loaded := (v.name, v.shape, v.dtype, b.slice v.offset v.size)

def ReceiverStage.failed : ReceiverStage := if errorsAreFatal then .raised else .returned false

def Receiver.load (r : Receiver) (g : Group) (rebuilt loaded : Bool) : Receiver :=
  let (manifest, batchKeys) := r.manifest.validateBatch g.paramNames
  let stage : ReceiverStage :=
    match batchKeys with
    | none => .replying g none none [] false
    | some keys =>
      if rebuilt then
        match buildViews info g.handle.size g.paramNames 0 with
        | some (weights, offset) =>
          if offset = g.usedBytes ∧ loaded then .replying g (some keys) (some g.handle) weights false
          else .replying g (some keys) (some g.handle) [] true
        | none => .replying g (some keys) (some g.handle) [] true
      else .replying g (some keys) none [] true
  { r with manifest := manifest, stage := stage }

/-- The `finally` block of a group. What was loaded is read by the time the
stream is synchronized. -/
def Receiver.acknowledge (r : Receiver) (buffers : BufferRef → Buffer UInt8) (g : Group)
    (batchKeys : Option (Finset String)) (buffer : Option Handle) (weights : List View)
    (batchError synchronized : Bool) : Receiver :=
  let failed := batchError || buffer.isSome && !synchronized
  let manifest :=
    if failed then r.manifest.recordLoadFailure
    else match batchKeys with
      | some keys => r.manifest.recordLoaded keys
      | none => r.manifest
  { manifest := manifest
    stage := .receiving
    loaded := r.loaded ++ weights.map (View.read (buffers g.handle.buffer))
    healthy := r.healthy && !failed
    replied := r.replied + 1 }

def Receiver.finalize (r : Receiver) (ok : Bool) : Receiver :=
  let finalized := r.manifest.complete && ok
  { r with
    stage := if finalized then .leaving else .failed errorsAreFatal
    healthy := r.healthy && (!r.manifest.complete || ok)
    replied := r.replied + 1 }

/-! ### The steps -/

def stepSender (s : Stream) : Event → Option Stream
  | .pack =>
    match s.sender.stage, s.sender.params with
    | .packing, p :: rest =>
      if p.isOversized bufferSizeBytes ∨ s.sender.flushes bufferSizeBytes then none
      else
        let sender := s.sender.allocate
        some { s with sender := { sender with
          params := rest
          paramNames := sender.paramNames ++ [p.1]
          buffers := Function.update sender.buffers (.staging sender.currentBuffer)
            (packTensor (sender.buffers (.staging sender.currentBuffer)) p sender.usedBytes)
          usedBytes := sender.usedBytes + p.alignedSize } }
    | _, _ => none
  | .flush =>
    if s.sender.stage = .packing ∧ s.sender.flushes bufferSizeBytes then
      (takeReply s).map fun s ↦
        let s := send s (.group (s.sender.group bufferSizeBytes))
        { s with sender := { s.sender with
          awaitRecv := true
          -- The last group is sent after the loop, where nothing is switched.
          currentBuffer := if s.sender.params = [] then s.sender.currentBuffer
            else !s.sender.currentBuffer
          usedBytes := 0
          paramNames := [] } }
    else none
  | .packOversized =>
    match s.sender.stage, s.sender.params with
    | .packing, p :: _ =>
      if p.isOversized bufferSizeBytes ∧ ¬ s.sender.flushes bufferSizeBytes then
        let sender := s.sender.allocate
        some { s with sender := { sender with
          stage := .packed
          allocated := Function.update sender.allocated .oversized true
          buffers := Function.update sender.buffers .oversized
            (packTensor (sender.buffers .oversized) p 0) } }
      else none
    | _, _ => none
  | .sendOversized =>
    match s.sender.stage, s.sender.params with
    | .packed, p :: rest =>
      (takeReply s).map fun s ↦
        let s := send s (.group ⟨⟨.oversized, p.alignedSize⟩, [p.1], p.alignedSize⟩)
        { s with sender := { s.sender with stage := .shipped, params := rest } }
    | _, _ => none
  | .freeOversized =>
    if s.sender.stage = .shipped ∧ 0 < s.replies then
      some { s with
        replies := s.replies - 1
        sender := { s.sender with
          stage := .packing
          awaitRecv := false
          allocated := Function.update s.sender.allocated .oversized false
          acked := s.sender.acked + 1
          pending := none } }
    else none
  | .complete =>
    if s.sender.stage = .packing ∧ s.sender.params = [] ∧ ¬ s.sender.flushes bufferSizeBytes then
      (takeReply s).map fun s ↦
        let s := send { s with sender := s.sender.release } .complete
        { s with sender := { s.sender with stage := .completing } }
    else none
  | .finish =>
    if s.sender.stage = .completing ∧ 0 < s.replies then
      some { s with
        replies := s.replies - 1
        sender := { s.sender with
          stage := .returned, acked := s.sender.acked + 1, pending := none } }
    else none
  | .senderTimeout =>
    if s.sender.waits bufferSizeBytes ∧ s.replies = 0 then
      some { s with sender := { s.sender with stage := .timedOut, allocated := fun _ ↦ false } }
    else none
  | _ => none

def stepReceiver (s : Stream) : Event → Option Stream
  | .enter ok =>
    match s.receiver.stage with
    | .entering =>
      some { s with receiver := { s.receiver with
        stage := if ok then .receiving else .failed errorsAreFatal } }
    | _ => none
  | .receive =>
    match s.receiver.stage, s.requests with
    | .receiving, p :: rest =>
      some { s with
        requests := rest
        receiver := { s.receiver with
          stage := p.handled } }
    | _, _ => none
  | .load rebuilt loaded =>
    match s.receiver.stage with
    | .handling g => some { s with receiver := s.receiver.load info g rebuilt loaded }
    | _ => none
  | .acknowledge synchronized =>
    match s.receiver.stage with
    | .replying g batchKeys buffer weights batchError =>
      some { s with
        replies := s.replies + 1
        receiver := s.receiver.acknowledge s.sender.buffers g batchKeys buffer weights batchError
          synchronized }
    | _ => none
  | .finalize ok =>
    match s.receiver.stage with
    | .completing =>
      some { s with
        replies := s.replies + 1
        receiver := s.receiver.finalize errorsAreFatal ok }
    | _ => none
  | .leave ok =>
    match s.receiver.stage with
    | .leaving =>
      some { s with receiver := { s.receiver with
        stage := if ok then .returned true else .failed errorsAreFatal } }
    | _ => none
  | .receiverTimeout =>
    match s.receiver.stage, s.requests with
    | .receiving, [] =>
      some { s with receiver := { s.receiver with stage := .failed errorsAreFatal } }
    | _, _ => none
  | _ => none

def step (s : Stream) (e : Event) : Option Stream :=
  (stepSender bufferSizeBytes s e).or (stepReceiver info errorsAreFatal s e)

def Initial (params : List Param) (s : Stream) : Prop :=
  s.sender.params = params ∧ (∀ b, s.sender.allocated b = false) ∧ s.sender.currentBuffer = false ∧
    s.sender.usedBytes = 0 ∧ s.sender.paramNames = [] ∧ s.sender.awaitRecv = false ∧
    s.sender.stage = .packing ∧ s.sender.sent = 0 ∧ s.sender.acked = 0 ∧ s.sender.pending = none ∧
    s.receiver = ⟨.init info, .entering, [], true, 0⟩ ∧ s.requests = [] ∧ s.replies = 0

end NemoRL.IpcRefit
